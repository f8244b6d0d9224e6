import Mathlib
import PackageMap.Proofs.Source.Line
import PackageMap.Proofs.Source.Literals
import PackageMap.Proofs.Source.Progress

/-!
# Counters of 32 bits

Lines and open braces are counted in words of 32 bits. In a text that is `Countable` no such counter
overflows wherever the lexer stands (`Visits.fits`), so the line of each reference is the line that
is reported (`line_eq_of_scan`).

A counter goes up only where a line end or an opening brace is passed. So what it says and what is
left to count do not grow together (`step_within`).
-/

namespace PackageMap.Source

open PackageMap.Text

/-- The lines and the opening braces of a text can be counted in 32 bits. -/
structure Countable (text : List Char) : Prop where
  lines : text.countP isLineEnd + 1 < 2 ^ 32
  braces : text.count '\x7b' < 2 ^ 32

theorem countable_iff {text : List Char} :
    Countable text ↔ text.countP isLineEnd + 1 < 2 ^ 32 ∧ text.count '\x7b' < 2 ^ 32 :=
  ⟨fun h => ⟨h.lines, h.braces⟩, fun h => ⟨h.1, h.2⟩⟩

instance (text : List Char) : Decidable (Countable text) := decidable_of_iff' _ countable_iff

/-- What is left out of a text does not make it harder to count. -/
theorem Countable.of_sublist {u text : List Char} (h : Countable text) (hu : u.Sublist text) :
    Countable u where
  lines := Nat.lt_of_le_of_lt (Nat.add_le_add_right hu.countP_le 1) h.lines
  braces := Nat.lt_of_le_of_lt (hu.count_le _) h.braces

/-! ## Readers -/

/-- A line and the line ends behind it. -/
def linesFrom (line : Nat) (r : List Char) : Nat := line + r.countP isLineEnd

def Cursor.lines (c : Cursor) : Nat := linesFrom c.line c.rest

variable {offset line : Nat} {a : Char} {r taken text : List Char} {c : Cursor}

theorem linesFrom_of_sublist {r' : List Char} (line : Nat) (h : r.Sublist r') :
    linesFrom line r ≤ linesFrom line r' := Nat.add_le_add_left h.countP_le line

theorem linesFrom_cons (line : Nat) (a : Char) (r : List Char) :
    linesFrom line r ≤ linesFrom line (a :: r) := linesFrom_of_sublist line (List.sublist_cons_self a r)

theorem linesFrom_succ (line : Nat) (r : List Char) (ha : isLineEnd a = true) :
    linesFrom (line + 1) r = linesFrom line (a :: r) := by
  unfold linesFrom
  rw [List.countP_cons_of_pos ha]
  exact Nat.add_right_comm _ _ _

/-- A line is counted where one ends. -/
theorem linesFrom_ite {p : Prop} [Decidable p] (line : Nat) (r : List Char)
    (h : p → isLineEnd a = true) :
    linesFrom (if p then line + 1 else line) r ≤ linesFrom line (a :: r) := by
  by_cases hp : p
  · rw [if_pos hp]
    exact Nat.le_of_eq (linesFrom_succ line r (h hp))
  · rw [if_neg hp]
    exact linesFrom_cons line a r

theorem isLineEnd_of_eq (h : a = '\n') : isLineEnd a = true := by
  subst h
  decide

/-- A backslash takes the next character with it. -/
theorem linesFrom_escape (line : Nat) (a : Char) (r : List Char) :
    linesFrom (if isLineEnd a then line + 1 else line) r ≤ linesFrom line ('\\' :: a :: r) :=
  (linesFrom_ite line r id).trans (linesFrom_cons line '\\' (a :: r))

theorem linesFrom_crlf (line : Nat) (r : List Char) :
    linesFrom (line + 1) r ≤ linesFrom line ('\\' :: '\r' :: '\n' :: r) := by
  rw [linesFrom_succ line r (a := '\n') (by decide)]
  exact (linesFrom_cons line '\r' _).trans (linesFrom_cons line '\\' _)

theorem skipLine_lines (r : List Char) (offset line : Nat) :
    (skipLine r offset line).lines ≤ linesFrom line r := by
  induction r generalizing offset with
  | nil => exact Nat.le_refl _
  | cons a r ih =>
    unfold skipLine
    split
    · exact Nat.le_refl _
    · exact (ih (offset + 1)).trans (linesFrom_cons line a r)

theorem skipComment_lines (h : skipComment r offset line = some c) :
    c.lines ≤ linesFrom line r := by
  fun_induction skipComment r offset line with
  | case1 => cases h
  | case2 r offset line =>
    cases h
    exact (linesFrom_cons line '/' r).trans (linesFrom_cons line '*' _)
  | case3 a r offset line hne ih => exact (ih h).trans (linesFrom_ite line r isLineEnd_of_eq)

theorem readString_lines {quote : Char}
    (h : readString quote r offset line taken = some (text, c)) :
    c.lines ≤ linesFrom line r := by
  fun_induction readString quote r offset line taken with
  | case1 => cases h
  | case2 r offset line taken ih => exact (ih h).trans (linesFrom_crlf line r)
  | case3 a r offset line taken hne ih => exact (ih h).trans (linesFrom_escape line a r)
  | case4 => cases h
  | case5 => cases h; exact linesFrom_cons _ _ _
  | case6 a r offset line taken hcr hesc hn hq ih =>
    exact (ih h).trans (linesFrom_cons line a r)

theorem readTemplate_lines {how : TemplateEnd}
    (h : readTemplate r offset line taken = some (text, how, c)) :
    c.lines ≤ linesFrom line r := by
  fun_induction readTemplate r offset line taken with
  | case1 => cases h
  | case2 r offset line taken ih => exact (ih h).trans (linesFrom_crlf line r)
  | case3 a r offset line taken hne ih => exact (ih h).trans (linesFrom_escape line a r)
  | case4 r offset line taken =>
    cases h
    exact (linesFrom_cons line '\x7b' r).trans (linesFrom_cons line '$' _)
  | case5 => cases h; exact linesFrom_cons _ _ _
  | case6 a r offset line taken hcr hesc hd hq ih =>
    exact (ih h).trans (linesFrom_ite line r isLineEnd_of_eq)

/-! ## Steps -/

namespace Lexer

variable {s t : State} {L B : Nat}

section

variable (hr : s.cursor.rest = a :: r)

include hr

theorem lines_behind {n : Nat} (h : n ≤ linesFrom s.cursor.line r) : n ≤ s.cursor.lines := by
  unfold Cursor.lines
  rw [hr]
  exact h.trans (linesFrom_cons s.cursor.line a r)

theorem lines_of_suffix {rest : List Char} (h : rest <:+ r) :
    linesFrom s.cursor.line rest ≤ s.cursor.lines :=
  lines_behind hr (linesFrom_of_sublist _ h.sublist)

theorem slash_lines (h : slash s r = .ok t) : t.cursor.lines ≤ s.cursor.lines := by
  have hpunct : linesFrom s.cursor.line r ≤ s.cursor.lines := lines_of_suffix hr List.suffix_rfl
  unfold slash at h
  split at h
  · cases h
    exact lines_behind hr ((skipLine_lines _ _ _).trans (linesFrom_cons _ _ _))
  · split at h
    · next hc =>
      cases h
      exact lines_behind hr ((skipComment_lines hc).trans (linesFrom_cons _ _ _))
    · cases h
  · split at h
    · split at h
      · next hw =>
        cases h
        obtain ⟨u, hu, -⟩ : Cursor.Ahead ⟨r, 0 + 1, 0⟩ _ := skipRegex_ahead hw
        exact lines_of_suffix hr ⟨u, hu.symm⟩
      · cases h; exact hpunct
    · cases h; exact hpunct

theorem quoted_lines {quote : Char} (h : quoted s quote r = .ok t) :
    t.cursor.lines ≤ s.cursor.lines := by
  unfold quoted at h
  split at h
  · next hs => cases h; exact lines_behind hr (readString_lines hs)
  · cases h

theorem template_lines {resumed : Bool} (h : template s resumed r = .ok t) :
    t.cursor.lines ≤ s.cursor.lines := by
  unfold template at h
  split at h
  · next ht => cases h; exact lines_behind hr (readTemplate_lines ht)
  · next ht => cases h; exact lines_behind hr (readTemplate_lines ht)
  · cases h

theorem closeBrace_lines (h : closeBrace s r = .ok t) : t.cursor.lines ≤ s.cursor.lines := by
  unfold closeBrace at h
  split at h
  · cases h; exact lines_of_suffix hr List.suffix_rfl
  · next outer _ => exact template_lines (s := { s with depths := outer }) hr h
  · cases h; exact lines_of_suffix hr List.suffix_rfl

end

/-- What the lines are counted to and what is left of them do not grow. -/
theorem step_lines (h : step s = .ok t) : t.cursor.lines ≤ s.cursor.lines := by
  cases hr : s.cursor.rest with
  | nil =>
    rw [step_of_rest_nil hr] at h
    cases h
    exact Nat.le_refl _
  | cons a r =>
    obtain ⟨f, hf, hstep⟩ := exists_reads a
    rw [hstep s r hr] at h
    cases hf with
    | feed =>
      cases h
      unfold Cursor.lines
      rw [hr]
      exact Nat.le_of_eq (linesFrom_succ _ r (isLineEnd_of_eq rfl))
    | slash => exact slash_lines hr h
    | quote => exact quoted_lines hr h
    | template => exact template_lines hr h
    | closing => exact closeBrace_lines hr h
    | word => cases h; exact lines_of_suffix hr (List.dropWhile_suffix _)
    | number => cases h; exact lines_of_suffix hr (List.dropWhile_suffix _)
    | _ => cases h; exact lines_of_suffix hr List.suffix_rfl

theorem slash_depths (h : slash s r = .ok t) : t.depths = s.depths := by
  unfold slash at h
  split at h
  · cases h; rfl
  · split at h
    · cases h; rfl
    · cases h
  · split at h
    · split at h
      · cases h; rfl
      · cases h; rfl
    · cases h; rfl

theorem quoted_depths {quote : Char} (h : quoted s quote r = .ok t) : t.depths = s.depths := by
  unfold quoted at h
  split at h
  · cases h; rfl
  · cases h

theorem template_depths {resumed : Bool} (h : template s resumed r = .ok t) :
    t.depths = s.depths ∨ t.depths = 0 :: s.depths := by
  unfold template at h
  split at h
  · cases h; exact .inl rfl
  · cases h; exact .inr rfl
  · cases h

theorem openBrace_depths (s : State) (r : List Char) :
    (openBrace s r).depths = s.depths ∨
      ∃ n outer, s.depths = n :: outer ∧ (openBrace s r).depths = (n + 1) :: outer := by
  unfold openBrace
  cases s.depths with
  | nil => exact .inl rfl
  | cons n outer => exact .inr ⟨n, outer, rfl, rfl⟩

/-- What is counted and left to count does not exceed `L` lines and `B` opening braces. -/
structure State.Within (L B : Nat) (s : State) : Prop where
  lines : s.cursor.lines ≤ L
  braces : s.cursor.rest.count '\x7b' ≤ B
  depths : ∀ d ∈ s.depths, d + s.cursor.rest.count '\x7b' ≤ B
  lexemes : ∀ x ∈ s.lexemes, x.place.line ≤ L

theorem step_within (hs : s.Within L B) (h : step s = .ok t) : t.Within L B := by
  obtain ⟨⟨u, hu, -⟩, hlexemes⟩ := step_steps h
  have hcount : t.cursor.rest.count '\x7b' ≤ s.cursor.rest.count '\x7b' := by
    rw [hu]
    exact (List.sublist_append_right u _).count_le _
  have hkept : ∀ ds : List Nat, (∀ d ∈ ds, d + s.cursor.rest.count '\x7b' ≤ B) →
      ∀ d ∈ ds, d + t.cursor.rest.count '\x7b' ≤ B := fun ds hds d hd =>
    (Nat.add_le_add_left hcount d).trans (hds d hd)
  have hopened : ∀ ds : List Nat, (∀ d ∈ ds, d + s.cursor.rest.count '\x7b' ≤ B) →
      ∀ d ∈ 0 :: ds, d + t.cursor.rest.count '\x7b' ≤ B := fun ds hds =>
    List.forall_mem_cons.2 ⟨(Nat.zero_add _).trans_le (hcount.trans hs.braces), hkept ds hds⟩
  refine ⟨(step_lines h).trans hs.lines, hcount.trans hs.braces, ?_, ?_⟩
  · cases hr : s.cursor.rest with
    | nil =>
      rw [step_of_rest_nil hr] at h
      cases h
      exact hs.depths
    | cons a r =>
      obtain ⟨f, hf, hstep⟩ := exists_reads a
      rw [hstep s r hr] at h
      cases hf with
      | slash => exact slash_depths h ▸ hkept _ hs.depths
      | quote => exact quoted_depths h ▸ hkept _ hs.depths
      | template =>
        rcases template_depths h with hd | hd
        · exact hd ▸ hkept _ hs.depths
        · exact hd ▸ hopened _ hs.depths
      | opening =>
        cases h
        rcases openBrace_depths s r with hd | ⟨n, outer, hd, hnext⟩
        · exact hd ▸ hkept _ hs.depths
        · have hdepths := hs.depths
          rw [hd] at hdepths
          obtain ⟨hn, houter⟩ := List.forall_mem_cons.1 hdepths
          rw [hnext]
          refine List.forall_mem_cons.2 ⟨?_, hkept outer houter⟩
          -- the brace that is counted is one less that is left
          rw [hr, List.count_cons_self] at hn
          show n + 1 + r.count '\x7b' ≤ B
          omega
      | closing =>
        have hdepths := hs.depths
        unfold closeBrace at h
        split at h
        · next hnil => cases h; exact hkept _ hs.depths
        · next outer hd =>
          rw [hd] at hdepths
          have houter := (List.forall_mem_cons.1 hdepths).2
          rcases template_depths h with hd | hd
          · exact hd ▸ hkept outer houter
          · exact hd ▸ hopened outer houter
        · next n outer hd =>
          cases h
          rw [hd] at hdepths
          obtain ⟨hn, houter⟩ := List.forall_mem_cons.1 hdepths
          refine List.forall_mem_cons.2 ⟨?_, hkept outer houter⟩
          exact (Nat.add_le_add (Nat.le_succ n) hcount).trans hn
      | _ => cases h; exact hkept _ hs.depths
  · rcases hlexemes with hlexemes | ⟨token, hlexemes⟩
    · rw [hlexemes]
      exact hs.lexemes
    · rw [hlexemes]
      exact List.forall_mem_cons.2 ⟨(Nat.le_add_right _ _).trans hs.lines, hs.lexemes⟩

/-! ## Runs -/

/-- The counters of a state are words of 32 bits. -/
structure State.Fits (s : State) : Prop where
  line : s.cursor.line < 2 ^ 32
  depths : ∀ d ∈ s.depths, d < 2 ^ 32
  lexemes : ∀ x ∈ s.lexemes, x.place.line < 2 ^ 32

theorem start_within (text : List Char) :
    (State.start text).Within (text.countP isLineEnd + 1) (text.count '\x7b') := by
  obtain ⟨u, hu, -⟩ := start_ahead text
  have hrest : (State.start text).cursor.rest.Sublist text := by
    show (State.start text).cursor.rest.Sublist (Cursor.ofText text).rest
    rw [hu]
    exact List.sublist_append_right u _
  have hempty : (State.start text).lexemes = [] ∧ (State.start text).depths = [] := ⟨rfl, rfl⟩
  refine ⟨?_, hrest.count_le _, ?_, ?_⟩
  · unfold Cursor.lines
    rw [start_line, Nat.add_comm (text.countP isLineEnd) 1]
    exact linesFrom_of_sublist 1 hrest
  · rw [hempty.2]
    nofun
  · rw [hempty.1]
    nofun

theorem Visits.within (h : Visits text s) :
    s.Within (text.countP isLineEnd + 1) (text.count '\x7b') := by
  induction h with
  | start => exact start_within text
  | step _ _ hs ih => exact step_within ih hs

/-- No counter overflows wherever the lexer stands. -/
theorem Visits.fits (hcount : Countable text) (h : Visits text s) : s.Fits where
  line := ((Nat.le_add_right _ _).trans h.within.lines).trans_lt hcount.lines
  depths d hd := ((Nat.le_add_right _ _).trans (h.within.depths d hd)).trans_lt hcount.braces
  lexemes x hx := (h.within.lexemes x hx).trans_lt hcount.lines

end Lexer

open Lexer in
/-- The lines of an accepted text's references are those that are reported. -/
theorem line_eq_of_scan {text : String} {rs : List Reference} (hcount : Countable text.toList)
    (h : scan text = .ok rs) : ∀ r ∈ rs, r.line.toNat = r.place.line := by
  obtain ⟨s, hs, rfl⟩ := scan_eq_ok_iff.1 h
  intro r hr
  have hmem : r.literal ∈ s.lexemes :=
    List.mem_reverse.1 (literal_mem_of_mem_collect (List.mem_reverse.1 hr))
  exact UInt32.toNat_ofNat_of_lt' ((Visits.start.of_finish hs).fits hcount |>.lexemes _ hmem)

end PackageMap.Source
