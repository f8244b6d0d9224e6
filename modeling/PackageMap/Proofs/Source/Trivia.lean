import PackageMap.Proofs.Source.Concat
import PackageMap.Proofs.Source.Construct
import PackageMap.Proofs.Source.Progress

/-!
# Comments between tokens

Wherever the lexer stands between two steps, a comment with an empty line before it and a line end
after it may be put into the text. The same references are found, those after the comment further
on in the text.
-/

namespace PackageMap.Source

/-! ## References at other places -/

section Move

variable {f : Place → Place}

theorem listed_move {found : List Reference} {specifier : String} :
    Reference.Listed (found.map (Reference.move f)) specifier ↔
      Reference.Listed found specifier := by
  unfold Reference.Listed
  rw [List.any_map]
  rfl

theorem record_move (found : List Reference) (r : Reference) :
    record (found.map (Reference.move f)) (r.move f) =
      (record found r).map (Reference.move f) := by
  by_cases h : r.specifier = "" ∨ Reference.Listed found r.specifier
  · rw [record_of_listed h, record_of_listed (r := r.move f) (h.imp_right listed_move.2)]
  · rw [record_of_not_listed h, record_of_not_listed (r := r.move f)]
    · rfl
    · exact mt (Or.imp_right listed_move.1) h

/-- Which references are found does not depend on the places of the tokens. -/
theorem collect_move (before : Option Token) (found : List Reference) (ls : List Lexeme) :
    collect before (found.map (Reference.move f)) (ls.map (Lexeme.move f)) =
      (collect before found ls).map (Reference.move f) := by
  induction ls generalizing before found with
  | nil => rfl
  | cons x ls ih =>
    have hx : reference? before (x.move f).token (ls.map (Lexeme.move f)) =
        (reference? before x.token ls).map (Reference.move f) :=
      reference?_moved before x.token (moved_map f ls)
    rw [List.map_cons, collect, collect, hx]
    cases reference? before x.token ls with
    | none => exact ih _ _
    | some r =>
      show collect _ (record (found.map (Reference.move f)) (r.move f)) _ = _
      rw [record_move]
      exact ih _ _

end Move

/-! ## The comment -/

namespace Lexer

open PackageMap.Text

variable {s t : State}

/-- A comment on lines of its own, after an empty line. -/
def apart (body : List Char) : List Char :=
  '\n' :: '\n' :: '/' :: '*' :: (body ++ ['*', '/', '\n'])

/-- The lexer passes the comment and goes on as it was, further on in the text. -/
theorem finish_apart {body : List Char} (h : ¬ ['*', '/'] <:+: body) (s : State) :
    finish (s.withRest (apart body ++ s.cursor.rest)) =
      finish { s with cursor := s.cursor.shift (body.length + 7) (body.count '\n' + 3) } := by
  have htext : apart body ++ s.cursor.rest =
      '\n' :: '\n' :: '/' :: '*' :: (body ++ '*' :: '/' :: '\n' :: s.cursor.rest) := by
    simp [apart]
  have hfeed : isBlank '\n' = true := by decide
  calc finish (s.withRest (apart body ++ s.cursor.rest))
      = finish (.reading s.cursor.place s.lexemes s.depths (apart body ++ s.cursor.rest)) := rfl
    _ = finish (.reading (s.cursor.place.past (apart body)) s.lexemes s.depths s.cursor.rest) := by
      rw [htext, finish_blank _ _ _ _ hfeed, finish_blank _ _ _ _ hfeed,
        finish_blockComment _ _ _ _ h, finish_blank _ _ _ _ hfeed, ← Place.past_append,
        ← Place.past_append, ← Place.past_append]
      congr 3
      simp [apart]
    _ = finish { s with cursor := s.cursor.shift (body.length + 7) (body.count '\n' + 3) } := by
      unfold State.reading Place.past Cursor.shift
      congr 3
      · show s.cursor.offset + (apart body).length = _
        simp only [apart, List.length_cons, List.length_append, List.length_nil]
        omega
      · show s.cursor.line + (apart body).count '\n' = _
        simp [apart]
        omega

/-! ## Standing between two tokens -/

namespace Visits

variable {a b text : List Char}

theorem finish (h : Visits text s) : Lexer.finish (.start text) = Lexer.finish s := by
  induction h with
  | start => rfl
  | step _ hr hs ih => rw [ih, finish_of_step hr hs]

theorem ahead (h : Visits text s) : (Cursor.ofText text).Ahead s.cursor := by
  induction h with
  | start => exact start_ahead text
  | step _ _ hs ih => exact ih.trans (step_steps hs).ahead

/-- What has been found opens before the cursor. -/
theorem lexemes_lt (h : Visits text s) : ∀ x ∈ s.lexemes, x.place.offset < s.cursor.offset := by
  induction h with
  | start => nofun
  | step _ hr hs ih =>
    obtain ⟨hahead, new, hnew, hplace⟩ := step_moves hr hs
    intro x hx
    rw [hnew] at hx
    rcases List.mem_append.1 hx with hx | hx
    · exact (hplace x hx).2
    · exact Nat.lt_of_lt_of_le (ih x hx) hahead.offset_le

theorem rest_eq (h : Visits (a ++ b) s) (ho : s.cursor.offset = a.length) :
    s.cursor.rest = b := by
  obtain ⟨u, hu, hlen⟩ := h.ahead
  have hzero : (Cursor.ofText (a ++ b)).offset = 0 := rfl
  exact (List.append_inj_right hu (by omega)).symm

theorem finish_seam {u v post x : List Char} (h : Visits (u ++ post) s)
    (hv : s.cursor.rest = v ++ post) :
    Lexer.finish (.start (u ++ '\n' :: '\n' :: x)) =
      Lexer.finish (s.withRest (v ++ '\n' :: '\n' :: x)) := by
  induction h generalizing v with
  | start => rw [start_seam_within hv]
  | @step s t _ hr hs ih =>
    obtain ⟨w, hw, -⟩ := (step_steps hs).ahead
    rw [hv, ← List.append_assoc] at hw
    have hne : w ++ v ≠ [] := by
      intro hnil
      have hlt := step_length_lt hr hs
      rw [hw, hnil, hv, List.length_append, List.nil_append] at hlt
      omega
    rw [ih hw]
    refine finish_of_step (by simp [State.withRest]) ?_
    exact step_seam hw hne hs hv

end Visits

/-- The lexer comes to stand before the first of the characters `b` when it reads `a ++ b`. -/
def StandsBetween (a b : List Char) : Prop := ∃ s, Visits (a ++ b) s ∧ s.cursor.offset = a.length

end Lexer

/-- The places of a text after `o` characters and `l` lines are put in at the offset `n`. -/
def Place.pushed (n o l : Nat) (p : Place) : Place := if p.offset < n then p else p.shift o l

theorem Lexeme.move_pushed_of_lt {n o l : Nat} {x : Lexeme} (h : x.place.offset < n) :
    x.move (Place.pushed n o l) = x := by
  unfold move Place.pushed
  rw [if_pos h]

theorem Lexeme.move_pushed_of_le {n o l : Nat} {x : Lexeme} (h : n ≤ x.place.offset) :
    x.move (Place.pushed n o l) = x.shift o l := by
  unfold move Place.pushed
  rw [if_neg (Nat.not_lt.2 h)]
  rfl

open Lexer in
/-- The references of a text with a comment between two tokens. -/
theorem scan_pushed {a b c : String} {rs : List Reference} (h : scan (a ++ b) = .ok rs)
    (hab : StandsBetween a.toList b.toList) (hc : ¬ ['*', '/'] <:+: c.toList) :
    scan (a ++ "\n\n/*" ++ c ++ "*/\n" ++ b) =
      .ok (rs.map (Reference.move
        (Place.pushed a.length (c.length + 7) (c.toList.count '\n' + 3)))) := by
  obtain ⟨t, ht, rfl⟩ := scan_eq_ok_iff.1 h
  obtain ⟨s, hs, hoffset⟩ := hab
  rw [String.toList_append] at ht
  have hrest : s.cursor.rest = b.toList := hs.rest_eq hoffset
  have hst : finish s = .ok t := hs.finish.symm.trans ht
  -- the run over the longer text comes to `s` as well, passes the comment and goes on from there
  have htext : (a ++ "\n\n/*" ++ c ++ "*/\n" ++ b).toList =
      a.toList ++ (apart c.toList ++ b.toList) := by
    simp [String.toList_append, apart]
  have hrun : finish (.start (a.toList ++ (apart c.toList ++ b.toList))) =
      finish { s with cursor := s.cursor.shift (c.length + 7) (c.toList.count '\n' + 3) } := by
    rw [← String.length_toList, ← finish_apart hc, hrest]
    exact hs.finish_seam (v := []) hrest
  have hshift : Shifted (c.length + 7) (c.toList.count '\n' + 3) s.lexemes s.lexemes s
      { s with cursor := s.cursor.shift (c.length + 7) (c.toList.count '\n' + 3) } :=
    ⟨rfl, rfl, [], rfl, rfl⟩
  obtain ⟨t', ht', hshift'⟩ := finish_shifted (fun _ => rfl) hshift hst
  refine scan_eq_ok_iff.2 ⟨t', (congrArg finish (congrArg State.start htext)).trans
    (hrun.trans ht'), ?_⟩
  -- each token is where the comment pushes it
  obtain ⟨new, hnew, hnew'⟩ := hshift'.lexemes
  obtain ⟨-, new₁, hnew₁, hplace⟩ := finish_moves hst
  obtain rfl : new₁ = new := List.append_cancel_right (hnew₁.symm.trans hnew)
  have hlexemes : t'.lexemes = t.lexemes.map
      (Lexeme.move (Place.pushed a.length (c.length + 7) (c.toList.count '\n' + 3))) := by
    rw [String.length_toList] at hoffset
    rw [hnew, hnew', List.map_append]
    congr 1
    · refine List.map_congr_left fun x hx => (Lexeme.move_pushed_of_le ?_).symm
      exact hoffset ▸ (hplace x hx).1
    · refine (List.map_congr_left fun x hx => ?_).trans s.lexemes.map_id |>.symm
      exact Lexeme.move_pushed_of_lt (hoffset ▸ hs.lexemes_lt x hx)
  rw [hlexemes, ← List.map_reverse]
  exact (congrArg List.reverse (collect_move none [] _)).trans List.map_reverse.symm

open Lexer in
/--
A comment between two tokens, after an empty line and with a line end behind it: the same specifiers
are referred to in the same ways, in the same order. What opens before the comment stays where it
is, what opens after it moves by the comment, and so by its lines and three more. If the longer text
can be counted in 32 bits, the lines before and after are those that are reported.
-/
theorem scan_apart {a b c : String} {rs : List Reference}
    (hcount : Countable (a ++ "\n\n/*" ++ c ++ "*/\n" ++ b).toList) (h : scan (a ++ b) = .ok rs)
    (hab : StandsBetween a.toList b.toList) (hc : ¬ ['*', '/'] <:+: c.toList) :
    ∃ rs', scan (a ++ "\n\n/*" ++ c ++ "*/\n" ++ b) = .ok rs' ∧
      rs' = rs.map (Reference.move
        (Place.pushed a.length (c.length + 7) (c.toList.count '\n' + 3))) ∧
      ∀ r ∈ rs ++ rs', r.line.toNat = r.place.line := by
  have hrs' := scan_pushed h hab hc
  refine ⟨_, hrs', rfl, ?_⟩
  have hshort : (a ++ b).toList.Sublist (a ++ "\n\n/*" ++ c ++ "*/\n" ++ b).toList := by
    simp only [String.toList_append, List.append_assoc]
    exact .append_left ((((List.sublist_append_right _ _).trans
      (List.sublist_append_right _ _)).trans (List.sublist_append_right _ _))) _
  intro r hr
  rcases List.mem_append.1 hr with hr | hr
  · exact line_eq_of_scan (hcount.of_sublist hshort) h r hr
  · exact line_eq_of_scan hcount hrs' r hr

open Lexer in
/-- A comment over two lines inside a template interpolation, before a call there. -/
theorem scan_apart_interpolation :
    Countable ("import'x';`$\x7b" ++ "\n\n/*" ++ "'\n" ++ "*/\n" ++ "require('y')\x7d`").toList ∧
      scan ("import'x';`$\x7b" ++ "require('y')\x7d`") =
        .ok [⟨"x", .esmImport, ⟨6, 1⟩⟩, ⟨"y", .cjsRequire, ⟨21, 1⟩⟩] ∧
      StandsBetween "import'x';`$\x7b".toList "require('y')\x7d`".toList ∧
      scan ("import'x';`$\x7b" ++ "\n\n/*" ++ "'\n" ++ "*/\n" ++ "require('y')\x7d`") =
        .ok [⟨"x", .esmImport, ⟨6, 1⟩⟩, ⟨"y", .cjsRequire, ⟨30, 5⟩⟩] := by
  have hcount : Countable ("import'x';`$\x7b" ++ "\n\n/*" ++ "'\n" ++ "*/\n" ++
      "require('y')\x7d`").toList := by decide
  have h : scan ("import'x';`$\x7b" ++ "require('y')\x7d`") =
      .ok [⟨"x", .esmImport, ⟨6, 1⟩⟩, ⟨"y", .cjsRequire, ⟨21, 1⟩⟩] := by cbv
  have hab : StandsBetween "import'x';`$\x7b".toList "require('y')\x7d`".toList :=
    ⟨_, .step (.step (.step (.step .start (by decide) rfl) (by decide) rfl) (by decide) rfl)
      (by decide) rfl, rfl⟩
  obtain ⟨rs, hrs, rfl, -⟩ := scan_apart hcount h hab (by decide)
  exact ⟨hcount, h, hab, hrs⟩

end PackageMap.Source
