import Mathlib
import PackageMap.Source.Lexer

/-!
# Constructs read as a whole

Each construct of a text with the text after it is read in one step, which leaves the text after it.
What the construct is followed by matters for two of them: a name must not go on, and a line comment
ends with its line.
-/

namespace PackageMap

namespace Text

theorem lt_of_isAlpha {c : Char} (h : c.isAlpha = true) : 0x40 < c.toNat := by
  simp only [Char.isAlpha, Char.isUpper, Char.isLower, Bool.or_eq_true, Bool.and_eq_true,
    decide_eq_true_eq, UInt32.le_iff_toNat_le, ge_iff_le] at h
  have : c.toNat = c.val.toNat := rfl
  have : 'A'.val.toNat = 0x41 := rfl
  have : 'a'.val.toNat = 0x61 := rfl
  omega

theorem lt_of_isDigit {c : Char} (h : c.isDigit = true) : 0x2F < c.toNat := by
  simp only [Char.isDigit, Bool.and_eq_true, decide_eq_true_eq, UInt32.le_iff_toNat_le,
    ge_iff_le] at h
  have : c.toNat = c.val.toNat := rfl
  have : '0'.val.toNat = 0x30 := rfl
  omega

/-- The blanks beyond ASCII. -/
def wideBlanks : List Nat :=
  [0x85, 0xA0, 0x1680, 0x2028, 0x2029, 0x202F, 0x205F, 0x3000] ++ (List.range 11).map (0x2000 + ·)

theorem mem_wideBlanks {c : Char} (h : isBlank c = true) (hn : ¬ c.toNat < 0x80) :
    c.toNat ∈ wideBlanks := by
  unfold isBlank at h
  dsimp only at h
  rw [if_neg hn] at h
  generalize c.toNat = n at h
  simp only [Bool.or_eq_true, Bool.and_eq_true, decide_eq_true_eq, beq_iff_eq] at h
  simp only [wideBlanks, List.mem_append, List.mem_cons, List.not_mem_nil, or_false, List.mem_map,
    List.mem_range]
  by_cases hspace : 0x2000 ≤ n ∧ n ≤ 0x200A
  · exact Or.inr ⟨n - 0x2000, by omega, by omega⟩
  · omega

theorem lt_of_isBlank {c : Char} (h : isBlank c = true) (hn : c.toNat < 0x80) :
    c.toNat < 0x21 := by
  unfold isBlank at h
  dsimp only at h
  rw [if_pos hn] at h
  simp only [Bool.or_eq_true, Bool.and_eq_true, decide_eq_true_eq, beq_iff_eq] at h
  omega

/-- The wide blanks lie between the ranges of letters and between those of numerals. -/
theorem isIdentPart_of_isBlank {c : Char} (h : isBlank c = true) : isIdentPart c = false := by
  have hletter : isLetter c = false := by
    have hwide : ∀ n ∈ wideBlanks, inRanges letterRanges n 0 letterRanges.size = false := by
      decide +kernel
    unfold isLetter
    by_cases hn : c.toNat < 0x80
    · rw [if_pos hn, ← Bool.not_eq_true]
      intro ha
      have := lt_of_isAlpha ha
      have := lt_of_isBlank h hn
      omega
    · rw [if_neg hn]
      exact hwide _ (mem_wideBlanks h hn)
  have hnumeral : isNumeral c = false := by
    have hwide : ∀ n ∈ wideBlanks, inRanges numeralRanges n 0 numeralRanges.size = false := by
      decide +kernel
    unfold isNumeral
    by_cases hn : c.toNat < 0x80
    · rw [if_pos hn, ← Bool.not_eq_true]
      intro hd
      have := lt_of_isDigit hd
      have := lt_of_isBlank h hn
      omega
    · rw [if_neg hn]
      exact hwide _ (mem_wideBlanks h hn)
  have hother : c ≠ '_' ∧ c ≠ '$' := by
    constructor <;> rintro rfl <;> exact absurd h (by decide)
  unfold isIdentPart
  simp [hletter, hnumeral, hother]

theorem isBlank_of_isIdentStart {c : Char} (h : isIdentStart c = true) : isBlank c = false := by
  rw [← Bool.not_eq_true]
  intro hb
  have hpart := isIdentPart_of_isIdentStart h
  rw [isIdentPart_of_isBlank hb] at hpart
  cases hpart

end Text

namespace Source

open PackageMap.Text

/-! ## Places -/

/-- The place after some characters. -/
def Place.past (p : Place) (u : List Char) : Place := ⟨p.offset + u.length, p.line + u.count '\n'⟩

theorem Place.past_append (p : Place) (u v : List Char) : p.past (u ++ v) = (p.past u).past v := by
  unfold past
  rw [List.length_append, List.count_append, Nat.add_assoc, Nat.add_assoc]

theorem Place.past_singleton {c : Char} (p : Place) (h : c ≠ '\n') :
    p.past [c] = ⟨p.offset + 1, p.line⟩ := by
  unfold past
  rw [List.count_singleton, beq_false_of_ne h]
  rfl

theorem Place.past_of_not_mem {u : List Char} (p : Place) (h : '\n' ∉ u) :
    p.past u = ⟨p.offset + u.length, p.line⟩ := by
  unfold past
  rw [List.count_eq_zero.2 h, Nat.add_zero]

/-! ## Names -/

/-- A name is a letter, or one of the other characters that start it, and those that may follow. -/
def isWord : List Char → Bool
  | [] => false
  | c :: r => isIdentStart c && r.all isIdentPart

theorem takeWhile_exact {p : Char → Bool} {u r : List Char} (hu : ∀ c ∈ u, p c = true)
    (hr : ∀ c ∈ r.head?, p c = false) : (u ++ r).takeWhile p = u ∧ (u ++ r).dropWhile p = r := by
  rw [List.takeWhile_append_of_pos hu, List.dropWhile_append_of_pos hu]
  cases r with
  | nil => simp
  | cons c r => simp [hr c rfl]

/-! ## Literals -/

inductive Quote where
  | single
  | double
deriving DecidableEq, Repr

def Quote.char : Quote → Char
  | .single => '\''
  | .double => '"'

/-- Whether a text can stand between two quotes: the quote itself and a line feed stand in it only
after a backslash, and a backslash stands before a character, which ends no line unless it is a line
feed. -/
def Quote.encloses (q : Quote) : List Char → Bool
  | [] => true
  | ['\\'] => false
  | '\\' :: c :: r => (!isLineEnd c || c == '\n') && q.encloses r
  | c :: r => c != q.char && c != '\n' && q.encloses r

theorem Quote.encloses_cons {q : Quote} {c : Char} {r : List Char} (h : c ≠ '\\') :
    q.encloses (c :: r) = (c != q.char && c != '\n' && q.encloses r) := by
  rw [encloses] <;> simp [h]

/-- An enclosed text is read up to the quote after it. -/
theorem readString_enclosed {q : Quote} {body : List Char} (h : q.encloses body = true)
    (r : List Char) (offset line : Nat) (taken : List Char) :
    readString q.char (body ++ q.char :: r) offset line taken =
      some (taken.reverse ++ body, ⟨r, offset + body.length + 1, line + body.count '\n'⟩) := by
  fun_induction Quote.encloses q body generalizing offset line taken with
  | case1 =>
    have hq : q.char ≠ '\\' ∧ q.char ≠ '\n' := by cases q <;> decide
    rw [List.nil_append, readString_cons hq.1, if_neg hq.2, if_pos rfl, List.append_nil]
    rfl
  | case2 => cases h
  | case3 c r' ih =>
    obtain ⟨hc, hr⟩ := Bool.and_eq_true_iff.1 h
    have hcr : ∀ r'', c = '\r' → r' ++ q.char :: r = '\n' :: r'' → False := by
      rintro - rfl
      exact absurd hc (by decide)
    have hend : isLineEnd c = decide (c = '\n') := by
      by_cases hn : c = '\n'
      · subst hn
        decide
      · simpa [hn] using hc
    rw [List.cons_append, List.cons_append, readString_escape hcr, ih hr, hend]
    congr 2
    · simp
    · congr 1
      · simp only [List.length_cons]
        omega
      · rw [List.count_cons_of_ne (by decide), List.count_cons]
        by_cases hn : c = '\n' <;> simp [hn]
        omega
  | case4 c r' hne hesc ih =>
    have hc : c ≠ '\\' := by
      rintro rfl
      cases r' with
      | nil => exact hne rfl rfl
      | cons a r' => exact hesc a r' rfl rfl
    simp only [Bool.and_eq_true, bne_iff_ne] at h
    obtain ⟨⟨hq, hn⟩, hr⟩ := h
    rw [List.cons_append, readString_cons hc, if_neg hn, if_neg hq, ih hr, List.count_cons_of_ne hn]
    congr 2
    · simp
    · congr 1
      rw [List.length_cons]
      omega

/-! ## Comments -/

theorem skipLine_closed {body r : List Char} (h : '\n' ∉ body) (hr : ∀ c ∈ r.head?, c = '\n')
    (offset line : Nat) :
    skipLine (body ++ r) offset line = ⟨r, offset + body.length, line⟩ := by
  induction body generalizing offset with
  | nil =>
    cases r with
    | nil => rfl
    | cons c r =>
      obtain rfl := hr c rfl
      rfl
  | cons a body ih =>
    obtain ⟨ha, hbody⟩ := not_or.1 (mt List.mem_cons.2 h)
    rw [List.cons_append, skipLine, if_neg (Ne.symm ha), ih hbody, List.length_cons]
    congr 1
    omega

/-- A comment that is closed for the first time at its end is skipped as a whole. -/
theorem skipComment_closed {body : List Char} (h : ¬ ['*', '/'] <:+: body) (r : List Char)
    (offset line : Nat) : skipComment (body ++ '*' :: '/' :: r) offset line =
      some ⟨r, offset + body.length + 2, line + body.count '\n'⟩ := by
  induction body generalizing offset line with
  | nil => rfl
  | cons a body ih =>
    have hopen : ∀ r', a = '*' → body ++ '*' :: '/' :: r = '/' :: r' → False := by
      rintro r' rfl hr
      cases body with
      | nil => exact absurd (List.cons.inj hr).1 (by decide)
      | cons b body =>
        obtain ⟨rfl, -⟩ := List.cons.inj hr
        exact h ⟨[], body, rfl⟩
    have hbody : ¬ ['*', '/'] <:+: body := fun hi => h (hi.trans (List.suffix_cons a body).isInfix)
    rw [List.cons_append, skipComment, ih hbody]
    · congr 2
      · rw [List.length_cons]
        omega
      · rw [List.count_cons]
        by_cases ha : a = '\n' <;> simp [ha]
        omega
    · exact hopen

/-! ## Steps -/

namespace Lexer

/-- The lexer before the text `r`, which starts at the place `p`. -/
def State.reading (p : Place) (ls : List Lexeme) (depths : List Nat) (r : List Char) : State :=
  ⟨⟨r, p.offset, p.line⟩, ls, depths⟩

variable (p : Place) (ls : List Lexeme) (depths : List Nat) (r : List Char)

theorem finish_blank {c : Char} (h : isBlank c = true) :
    finish (.reading p ls depths (c :: r)) = finish (.reading (p.past [c]) ls depths r) := by
  refine finish_of_step (List.cons_ne_nil c r) ?_
  by_cases hn : c = '\n'
  · subst hn
    rfl
  · rw [p.past_singleton hn]
    unfold step
    dsimp only [State.reading]
    rw [if_neg hn, if_pos h]
    rfl

theorem finish_lineComment {body : List Char} (h : '\n' ∉ body) (hr : ∀ c ∈ r.head?, c = '\n') :
    finish (.reading p ls depths ('/' :: '/' :: (body ++ r))) =
      finish (.reading (p.past ('/' :: '/' :: body)) ls depths r) := by
  have hplace : p.past ('/' :: '/' :: body) = ⟨p.offset + 2 + body.length, p.line⟩ := by
    rw [p.past_of_not_mem (by simpa using h)]
    congr 1
    simp only [List.length_cons]
    omega
  refine finish_of_step (List.cons_ne_nil _ _) ?_
  show Except.ok (State.moveTo _ (skipLine (body ++ r) (p.offset + 2) p.line)) = _
  rw [skipLine_closed h hr, hplace]
  rfl

theorem finish_blockComment {body : List Char} (h : ¬ ['*', '/'] <:+: body) :
    finish (.reading p ls depths ('/' :: '*' :: (body ++ '*' :: '/' :: r))) =
      finish (.reading (p.past ('/' :: '*' :: (body ++ ['*', '/']))) ls depths r) := by
  have hplace : p.past ('/' :: '*' :: (body ++ ['*', '/'])) =
      ⟨p.offset + 2 + body.length + 2, p.line + body.count '\n'⟩ := by
    unfold Place.past
    congr 1
    · simp only [List.length_cons, List.length_append, List.length_nil]
      omega
    · simp
  refine finish_of_step (List.cons_ne_nil _ _) ?_
  show slash (.reading p ls depths ('/' :: '*' :: (body ++ '*' :: '/' :: r)))
    ('*' :: (body ++ '*' :: '/' :: r)) = _
  simp only [slash]
  rw [skipComment_closed h, hplace]
  rfl

theorem finish_quoted {q : Quote} {body : List Char} (h : q.encloses body = true) :
    finish (.reading p ls depths (q.char :: (body ++ q.char :: r))) =
      finish (.reading (p.past (q.char :: (body ++ [q.char])))
        (⟨.literal (String.ofList body), p⟩ :: ls) depths r) := by
  have hplace : p.past (q.char :: (body ++ [q.char])) =
      ⟨p.offset + 1 + body.length + 1, p.line + body.count '\n'⟩ := by
    have hq : q.char ≠ '\n' := by cases q <;> decide
    unfold Place.past
    congr 1
    · simp only [List.length_cons, List.length_append, List.length_nil]
      omega
    · simp [hq]
  have hstep : step (.reading p ls depths (q.char :: (body ++ q.char :: r))) =
      quoted (.reading p ls depths (q.char :: (body ++ q.char :: r))) q.char
        (body ++ q.char :: r) := by
    cases q <;> rfl
  refine finish_of_step (List.cons_ne_nil _ _) ?_
  rw [hstep]
  unfold quoted
  dsimp only [State.reading]
  rw [readString_enclosed h, hplace]
  rfl

theorem step_word {c : Char} (h : isIdentStart c = true) :
    step (.reading p ls depths (c :: r)) =
      .ok (run (.reading p ls depths (c :: r)) isIdentPart (.ident ∘ String.ofList) c r) := by
  have hne {d : Char} (hd : isIdentStart d = false) : c ≠ d := by
    rintro rfl
    rw [h] at hd
    cases hd
  have hquote : ¬(c = '"' ∨ c = '\'') := not_or.2 ⟨hne (by decide), hne (by decide)⟩
  unfold step
  dsimp only [State.reading]
  rw [if_neg (hne (by decide)), if_neg (by simp [isBlank_of_isIdentStart h]),
    if_neg (hne (by decide)), if_neg hquote, if_neg (hne (by decide)), if_neg (hne (by decide)),
    if_neg (hne (by decide)), if_pos h]

theorem finish_word {word : List Char} (h : isWord word = true)
    (hr : ∀ c ∈ r.head?, isIdentPart c = false) :
    finish (.reading p ls depths (word ++ r)) =
      finish (.reading (p.past word) (⟨.ident (String.ofList word), p⟩ :: ls) depths r) := by
  cases word with
  | nil => cases h
  | cons c more =>
    obtain ⟨hc, hmore⟩ := Bool.and_eq_true_iff.1 h
    have hall := List.all_eq_true.1 hmore
    have hpart : isIdentPart '\n' = false := by decide
    have hline : '\n' ∉ c :: more := by
      intro hn
      rcases List.mem_cons.1 hn with rfl | hn
      · exact absurd hc (by decide)
      · rw [hall _ hn] at hpart
        cases hpart
    obtain ⟨htake, hdrop⟩ := takeWhile_exact hall hr
    refine finish_of_step (List.cons_ne_nil _ _) ?_
    rw [List.cons_append, step_word p ls depths _ hc, p.past_of_not_mem hline]
    unfold run
    rw [htake, hdrop, List.length_cons, Nat.add_comm more.length, ← Nat.add_assoc]
    rfl

/-- Characters that are tokens of their own, also where no interpolation is open. -/
def isMark (c : Char) : Bool := ['(', ')', '\x7b', '\x7d', ',', '*', ';'].contains c

theorem finish_mark {c : Char} (h : isMark c = true) :
    finish (.reading p ls [] (c :: r)) =
      finish (.reading (p.past [c]) (⟨.punct c, p⟩ :: ls) [] r) := by
  refine finish_of_step (List.cons_ne_nil c r) ?_
  have hmem : c ∈ ['(', ')', '\x7b', '\x7d', ',', '*', ';'] := List.contains_iff_mem.1 h
  simp only [List.mem_cons, List.not_mem_nil, or_false] at hmem
  rcases hmem with rfl | rfl | rfl | rfl | rfl | rfl | rfl <;> rfl

end Lexer

end Source

end PackageMap
