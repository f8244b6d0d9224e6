import Mathlib.Data.List.DropRight
import Mathlib.Data.List.Forall2
import PackageMap.Json.Literal

/-!
# Spellings

A literal may be spelled in many ways: with space around its parts, with any character of a string
written as an escape, with either mark before an exponent. `Spelled` says rule by rule which they
are, and each of them is read as the literal (`Spells.ofText?_eq`).

1. A string is read piece by piece, and the pieces join to its text if they join to any
   (`Quoted.readText`). A number is read as its parts (`Numeral.Spelled.read`).
2. `Writes cs l`: the reader comes from in front of `cs` to behind the literal `l`, with the open
   containers and the text behind `cs` as they are. Each rule is one lemma about `Writes`.
-/

namespace PackageMap

/-! ## Strings -/

namespace Json

/-- How one piece of a string may be spelled. -/
inductive Piece.Spelled : Piece → List Char → Prop
  | plain {c : Char} (h : c ≠ '"' ∧ c ≠ '\\' ∧ 0x20 ≤ c.toNat) : Spelled (.char c) [c]
  | escaped {e c : Char} (h : escaped? e = some c) : Spelled (.char c) ['\\', e]
  | unit {a b c d : Char} {n : Nat} (h : hexUnit? a b c d = some n) :
      Spelled (pieceOfUnit n) ['\\', 'u', a, b, c, d]

/-- The characters that pieces join to. A high half is joined with the low half after it. -/
inductive Joins : List Piece → List Char → Prop
  | nil : Joins [] []
  | char {ps : List Piece} {cs : List Char} (c : Char) (h : Joins ps cs) :
      Joins (.char c :: ps) (c :: cs)
  | pair {ps : List Piece} {cs : List Char} {high low : Nat} (hhigh : high < 0xDC00)
      (hlow : 0xDC00 ≤ low) (h : Joins ps cs) :
      Joins (.half high :: .half low :: ps)
        (Char.ofNat (0x10000 + 0x400 * (high - 0xD800) + (low - 0xDC00)) :: cs)

/-- How a string may be spelled. Pieces that do not join are those of a string without a text. -/
inductive Quoted : Text → List Char → Prop
  | joined {ps : List Piece} {css : List (List Char)} {cs : List Char}
      (hp : List.Forall₂ Piece.Spelled ps css) (h : Joins ps cs) :
      Quoted (some (String.ofList cs)) ('"' :: (css.flatten ++ ['"']))
  | broken {ps : List Piece} {css : List (List Char)}
      (hp : List.Forall₂ Piece.Spelled ps css) (h : ∀ cs, ¬ Joins ps cs) :
      Quoted none ('"' :: (css.flatten ++ ['"']))

theorem Piece.Spelled.readPieces {p : Piece} {cs : List Char} (h : p.Spelled cs) (r : List Char)
    (taken : List Piece) : readPieces (cs ++ r) taken = Json.readPieces r (p :: taken) := by
  cases h with
  | plain h => simp [Json.readPieces, h.1, h.2.1, Nat.not_lt.2 h.2.2]
  | @escaped e c h =>
    have hu : e ≠ 'u' := by
      rintro rfl
      cases h
    simp [Json.readPieces, h, hu]
  | unit h => simp [Json.readPieces, h]

theorem readPieces_flatten {ps : List Piece} {css : List (List Char)}
    (h : List.Forall₂ Piece.Spelled ps css) (rest : List Char) (taken : List Piece) :
    readPieces (css.flatten ++ '"' :: rest) taken = some (ps.reverse ++ taken, rest) := by
  induction h generalizing taken with
  | nil => simp [readPieces]
  | cons hp _ ih => simp [hp.readPieces, ih]

theorem joinPieces_append {qs : List Piece} {joined out : List Char}
    (h : joinPieces qs joined = some out) (ps : List Piece) :
    joinPieces (qs ++ ps) joined = joinPieces ps out := by
  fun_induction joinPieces qs joined with
  | case1 joined => cases h; rfl
  | case2 c qs joined ih => exact ih h
  | case3 low high qs joined hpair ih =>
    rw [List.cons_append, List.cons_append, joinPieces, if_pos hpair]
    exact ih h
  | case4 => cases h
  | case5 => cases h

theorem Joins.append {ps qs : List Piece} {cs ds : List Char} (h : Joins ps cs) (h' : Joins qs ds) :
    Joins (ps ++ qs) (cs ++ ds) := by
  induction h with
  | nil => exact h'
  | char c _ ih => exact .char c ih
  | pair hhigh hlow _ ih => exact .pair hhigh hlow ih

theorem Joins.joinPieces {ps : List Piece} {cs : List Char} (h : Joins ps cs) (joined : List Char) :
    joinPieces ps.reverse joined = some (cs ++ joined) := by
  induction h with
  | nil => rfl
  | char c _ ih =>
    rw [List.reverse_cons, joinPieces_append ih]
    rfl
  | pair hhigh hlow _ ih =>
    rw [List.reverse_cons, List.reverse_cons, List.append_assoc, joinPieces_append ih]
    simp [Json.joinPieces, hhigh, hlow]

theorem exists_joins_of_joinPieces {qs : List Piece} {joined out : List Char}
    (h : joinPieces qs joined = some out) : ∃ cs, Joins qs.reverse cs ∧ out = cs ++ joined := by
  fun_induction joinPieces qs joined with
  | case1 joined =>
    cases h
    exact ⟨[], .nil, rfl⟩
  | case2 c qs joined ih =>
    obtain ⟨cs, hcs, rfl⟩ := ih h
    rw [List.reverse_cons]
    exact ⟨cs ++ [c], hcs.append (.char c .nil), by simp⟩
  | case3 low high qs joined hpair ih =>
    obtain ⟨cs, hcs, rfl⟩ := ih h
    rw [List.reverse_cons, List.reverse_cons, List.append_assoc]
    exact ⟨_, hcs.append (.pair hpair.1 hpair.2 .nil), by simp⟩
  | case4 => cases h
  | case5 => cases h

/-- A string is read as its text, however it is spelled. -/
theorem Quoted.readText {t : Text} {cs : List Char} (h : Quoted t cs) :
    ∃ r, cs = '"' :: r ∧ ∀ rest, readText (r ++ rest) = some (t, rest) := by
  cases h with
  | joined hp h =>
    refine ⟨_, rfl, fun rest => ?_⟩
    unfold Json.readText
    rw [List.append_assoc, List.singleton_append, readPieces_flatten hp, List.append_nil]
    dsimp only
    rw [h.joinPieces, List.append_nil, Option.map_some]
  | @broken ps css hp h =>
    refine ⟨_, rfl, fun rest => ?_⟩
    have hnone : joinPieces ps.reverse [] = none := by
      rw [Option.eq_none_iff_forall_ne_some]
      intro out hout
      obtain ⟨cs, hcs, -⟩ := exists_joins_of_joinPieces hout
      rw [List.reverse_reverse] at hcs
      exact h cs hcs
    unfold Json.readText
    rw [List.append_assoc, List.singleton_append, readPieces_flatten hp, List.append_nil]
    dsimp only
    rw [hnone, Option.map_none]

end Json

/-! ## Numbers -/

namespace Numeral

/-- A number as the grammar has it: each part has digits where it is there, and no zero leads other
digits. -/
structure WellFormed (n : Numeral) : Prop where
  whole : n.whole ≠ [] ∧ ∀ d ∈ n.whole, d.isDigit
  leading : ∀ d ds, n.whole ≠ '0' :: d :: ds
  fraction : ∀ d ∈ n.fraction, d.isDigit
  exponent : ∀ e ∈ n.exponent, e.2 ≠ [] ∧ ∀ d ∈ e.2, d.isDigit

/-- How a fraction is spelled. -/
def fractionText (ds : List Char) : List Char := if ds = [] then [] else '.' :: ds

/-- How an exponent may be spelled. -/
inductive ExponentSpelled : Option (Bool × List Char) → List Char → Prop
  | none : ExponentSpelled none []
  | minus {mark : Char} (ds : List Char) (h : mark = 'e' ∨ mark = 'E') :
      ExponentSpelled (some (true, ds)) (mark :: '-' :: ds)
  | plus {mark : Char} (ds : List Char) (h : mark = 'e' ∨ mark = 'E') :
      ExponentSpelled (some (false, ds)) (mark :: '+' :: ds)
  | bare {mark : Char} (ds : List Char) (h : mark = 'e' ∨ mark = 'E') :
      ExponentSpelled (some (false, ds)) (mark :: ds)

/-- How a number may be spelled. -/
inductive Spelled (n : Numeral) : List Char → Prop
  | mk {es : List Char} (hn : n.WellFormed) (he : ExponentSpelled n.exponent es) :
      Spelled n ((if n.negative then ['-'] else []) ++ (n.whole ++ (fractionText n.fraction ++ es)))

/-- Nothing of the text continues a number. -/
def Ends (rest : List Char) : Prop :=
  ∀ c ∈ rest.head?, c.isDigit = false ∧ c ≠ '.' ∧ c ≠ 'e' ∧ c ≠ 'E'

variable {n : Numeral} {ds es cs rest : List Char} {e : Option (Bool × List Char)}

theorem ends_cons {c : Char} (h : c.isDigit = false ∧ c ≠ '.' ∧ c ≠ 'e' ∧ c ≠ 'E')
    (r : List Char) : Ends (c :: r) := by
  rintro _ ⟨⟩
  exact h

theorem readDigits_append (hne : ds ≠ []) (hds : ∀ d ∈ ds, d.isDigit)
    (hrest : ∀ c ∈ rest.head?, c.isDigit = false) : readDigits (ds ++ rest) = some (ds, rest) := by
  have htake : (ds ++ rest).takeWhile Char.isDigit = ds := by
    rw [List.takeWhile_append_of_pos hds]
    cases rest with
    | nil => simp
    | cons c rest => simp [hrest c (by simp)]
  have hdrop : (ds ++ rest).dropWhile Char.isDigit = rest := by
    rw [List.dropWhile_append_of_pos hds]
    cases rest with
    | nil => simp
    | cons c rest => simp [hrest c (by simp)]
  unfold readDigits
  rw [htake, hdrop]
  cases ds with
  | nil => exact absurd rfl hne
  | cons d ds => rfl

theorem readFraction_fractionText (hds : ∀ d ∈ ds, d.isDigit)
    (hrest : ∀ c ∈ rest.head?, c.isDigit = false ∧ c ≠ '.') :
    readFraction (fractionText ds ++ rest) = some (ds, rest) := by
  unfold fractionText
  split
  · next h =>
    subst h
    cases rest with
    | nil => rfl
    | cons c rest => simp [readFraction, (hrest c (by simp)).2]
  · next h => exact readDigits_append h hds fun c hc => (hrest c hc).1

theorem head_fractionText (ds : List Char) (hrest : ∀ c ∈ rest.head?, c.isDigit = false) :
    ∀ c ∈ (fractionText ds ++ rest).head?, c.isDigit = false := by
  intro c hc
  unfold fractionText at hc
  split at hc
  · exact hrest c hc
  · cases hc; decide

theorem ExponentSpelled.read (h : ExponentSpelled e es)
    (he : ∀ e' ∈ e, e'.2 ≠ [] ∧ ∀ d ∈ e'.2, d.isDigit) (hrest : Ends rest) :
    readExponent (es ++ rest) = some (e, rest) := by
  have hdigits {sign : Bool} (ds : List Char) (hds : (sign, ds) ∈ e) :
      readDigits (ds ++ rest) = some (ds, rest) :=
    readDigits_append (he _ hds).1 (he _ hds).2 fun c hc => (hrest c hc).1
  cases h with
  | none =>
    cases rest with
    | nil => rfl
    | cons c rest =>
      obtain ⟨-, -, he, hE⟩ := hrest c (by simp)
      simp [readExponent, he, hE]
  | minus ds hmark => simp [readExponent, hmark, hdigits ds rfl]
  | plus ds hmark => simp [readExponent, hmark, hdigits ds rfl]
  | bare ds hmark =>
    obtain ⟨d, ds, rfl⟩ := List.exists_cons_of_ne_nil (he _ rfl).1
    have hd := (he _ rfl).2 d (by simp)
    have hminus : d ≠ '-' := by rintro rfl; cases hd
    have hplus : d ≠ '+' := by rintro rfl; cases hd
    have hread := hdigits _ rfl
    rw [List.cons_append] at hread
    simp [readExponent, hmark, hminus, hplus, hread]

theorem ExponentSpelled.head (h : ExponentSpelled e es) (hrest : Ends rest) :
    ∀ c ∈ (es ++ rest).head?, c.isDigit = false ∧ c ≠ '.' := by
  have hmark {c : Char} (hc : c = 'e' ∨ c = 'E') : c.isDigit = false ∧ c ≠ '.' := by
    rcases hc with rfl | rfl <;> decide
  intro c hc
  cases h with
  | none => exact ⟨(hrest c hc).1, (hrest c hc).2.1⟩
  | minus _ h => cases hc; exact hmark h
  | plus _ h => cases hc; exact hmark h
  | bare _ h => cases hc; exact hmark h

theorem readUnsigned_spelled (hn : n.WellFormed) (he : ExponentSpelled n.exponent es)
    (hrest : Ends rest) :
    readUnsigned n.negative (n.whole ++ (fractionText n.fraction ++ (es ++ rest))) =
      some (n, rest) := by
  have hmark := he.head hrest
  have hwhole := readDigits_append hn.whole.1 hn.whole.2
    (head_fractionText n.fraction fun c hc => (hmark c hc).1)
  unfold readUnsigned
  rw [hwhole]
  split
  · next hnone => cases hnone
  · next hzero => exact absurd (Prod.mk.inj (Option.some.inj hzero)).1 (hn.leading _ _)
  · next hsome =>
    obtain ⟨rfl, rfl⟩ := Prod.mk.inj (Option.some.inj hsome)
    rw [readFraction_fractionText hn.fraction hmark]
    dsimp only
    rw [he.read hn.exponent hrest]

/-- A number in front of anything that does not continue it is read, however it is spelled. -/
theorem Spelled.read (h : n.Spelled cs) (hrest : Ends rest) :
    read (cs ++ rest) = some (n, rest) := by
  obtain ⟨hn, he⟩ := h
  have hunsigned := readUnsigned_spelled hn he hrest
  rw [List.append_assoc, List.append_assoc, List.append_assoc]
  cases hsign : n.negative with
  | true =>
    rw [hsign] at hunsigned
    exact hunsigned
  | false =>
    rw [hsign] at hunsigned
    rw [if_neg Bool.false_ne_true, List.nil_append]
    unfold Numeral.read
    split
    · next r hr =>
      obtain ⟨d, ds, hd⟩ := List.exists_cons_of_ne_nil hn.whole.1
      rw [hd] at hr
      cases hr
      cases hn.whole.2 '-' (by simp [hd])
    · exact hunsigned

theorem head?_toDigits {k : Nat} (h : 0 < k) : (Nat.toDigits 10 k).head? ≠ some '0' := by
  induction k using Nat.strongRecOn with
  | ind k ih =>
    rw [Nat.toDigits_eq_if (by decide)]
    split
    · next hlt =>
      have hdigit : ∀ d < 10, 0 < d → [Nat.digitChar d].head? ≠ some '0' := by decide
      exact hdigit k hlt h
    · rw [List.head?_append_of_ne_nil _ Nat.toDigits_ne_nil]
      exact ih (k / 10) (by omega) (by omega)

theorem wellFormed_ofNat (k : Nat) : (ofNat k).WellFormed where
  whole := ⟨Nat.toDigits_ne_nil, fun d hd => Nat.isDigit_of_mem_toDigits (by decide) (by decide) hd⟩
  leading d ds h := by
    have hdigits : Nat.toDigits 10 k = '0' :: d :: ds := h
    rcases Nat.eq_zero_or_pos k with rfl | hk
    · cases hdigits
    · exact head?_toDigits hk (congrArg List.head? hdigits)
  fraction := nofun
  exponent := nofun

/-- A number starts with its sign or a digit. -/
theorem Spelled.exists_eq_cons (h : n.Spelled cs) :
    ∃ c r, cs = c :: r ∧ (c = '-' ∨ c.isDigit) := by
  obtain ⟨hn, he⟩ := h
  cases n.negative with
  | true => exact ⟨'-', _, rfl, .inl rfl⟩
  | false =>
    obtain ⟨d, ds, hd⟩ := List.exists_cons_of_ne_nil hn.whole.1
    rw [hd]
    exact ⟨d, _, rfl, .inr (hn.whole.2 d (by simp [hd]))⟩

end Numeral

/-! ## Literals -/

namespace Json.Literal

variable {l : Literal} {cs ds r rest space : List Char} {c : Char} {frame : Frame}
  {frames : List Frame} {position : Position} {s s' : State}

/-! ### The reader -/

theorem finish_of_step (hresult : s.result? = none) (h : step s = some s') :
    finish s = finish s' := by
  rw [finish.eq_1 s, hresult]
  dsimp only
  split
  · next t ht => rw [h] at ht; cases ht; rfl
  · next ht => rw [h] at ht; cases ht

theorem finish_of_result (h : s.result? = some l) : finish s = some l := by
  rw [finish, h]

theorem finish_of_stuck (hresult : s.result? = none) (h : step s = none) : finish s = none := by
  rw [finish.eq_1 s, hresult]
  dsimp only
  split
  · next t ht => rw [h] at ht; cases ht
  · rfl

/-- The reader does not tell texts apart by the space in front of them. -/
theorem finish_congr (h : skipSpace cs = skipSpace ds) :
    finish ⟨position, frames, cs⟩ = finish ⟨position, frames, ds⟩ := by
  have hresult : State.result? ⟨position, frames, cs⟩ = State.result? ⟨position, frames, ds⟩ := by
    unfold State.result?
    dsimp only
    rw [h]
  have hstep : step ⟨position, frames, cs⟩ = step ⟨position, frames, ds⟩ := by
    unfold step
    dsimp only
    rw [h]
  cases hr : State.result? ⟨position, frames, ds⟩ with
  | some l => rw [finish_of_result hr, finish_of_result (hresult.trans hr)]
  | none =>
    cases hs : step ⟨position, frames, ds⟩ with
    | some s => rw [finish_of_step hr hs, finish_of_step (hresult.trans hr) (hstep.trans hs)]
    | none => rw [finish_of_stuck hr hs, finish_of_stuck (hresult.trans hr) (hstep.trans hs)]

theorem skipSpace_cons (h : isSpace c = false) (r : List Char) : skipSpace (c :: r) = c :: r :=
  List.dropWhile_cons_of_neg (by simp [h])

/-- Nothing but space. -/
def Space (cs : List Char) : Prop := ∀ c ∈ cs, isSpace c

theorem Space.skipSpace (h : Space space) (cs : List Char) :
    skipSpace (space ++ cs) = Literal.skipSpace cs :=
  List.dropWhile_append_of_pos h

theorem Space.finish (h : Space space) (cs : List Char) :
    finish ⟨position, frames, space ++ cs⟩ = Literal.finish ⟨position, frames, cs⟩ :=
  finish_congr (h.skipSpace cs)

theorem Space.ends (h : Space space) (hrest : Numeral.Ends rest) :
    Numeral.Ends (space ++ rest) := by
  cases space with
  | nil => exact hrest
  | cons c space =>
    refine Numeral.ends_cons ?_ _
    have hc := h c (by simp)
    unfold isSpace at hc
    simp only [Bool.or_eq_true, beq_iff_eq] at hc
    rcases hc with ((rfl | rfl) | rfl) | rfl <;> decide

theorem finish_before (hc : isSpace c = false) (h : stepBefore frames c r = some s) :
    finish ⟨.before, frames, c :: r⟩ = finish s := by
  refine finish_of_step rfl ?_
  unfold step
  rw [skipSpace_cons hc]
  exact h

theorem finish_behind (hc : isSpace c = false) (h : stepBehind l frame frames c r = some s) :
    finish (.behind (frame :: frames) l (c :: r)) = finish s := by
  refine finish_of_step rfl ?_
  unfold step State.behind
  dsimp only
  rw [skipSpace_cons hc]
  exact h

/-! ### Spellings -/

/-- A literal as it is spelled in a container, with the space around it. -/
structure Item where
  literal : Literal
  before : List Char
  spelled : List Char
  after : List Char

def Item.text (i : Item) : List Char := i.before ++ (i.spelled ++ i.after)

def Item.Spaced (i : Item) : Prop := Space i.before ∧ Space i.after

/-- A member as it is spelled in an object, with the space around its key. -/
structure Member where
  key : Text
  before : List Char
  spelled : List Char
  after : List Char
  value : Item

def Member.text (m : Member) : List Char :=
  m.before ++ (m.spelled ++ (m.after ++ ':' :: m.value.text))

def Member.Spaced (m : Member) : Prop := Space m.before ∧ Space m.after ∧ m.value.Spaced

/-- The literal that the member stands for. -/
def Member.entry (m : Member) : Text × Literal := (m.key, m.value.literal)

/-- The texts with commas between them. -/
def commas (texts : List (List Char)) : List Char := [','].intercalate texts

/-- How a literal may be spelled. -/
inductive Spelled : Literal → List Char → Prop
  | null : Spelled .null ['n', 'u', 'l', 'l']
  | true : Spelled (.bool true) ['t', 'r', 'u', 'e']
  | false : Spelled (.bool false) ['f', 'a', 'l', 's', 'e']
  | number {n : Numeral} {cs : List Char} (h : n.Spelled cs) : Spelled (.number n) cs
  | string {t : Text} {cs : List Char} (h : Quoted t cs) : Spelled (.string t) cs
  | noItems {space : List Char} (h : Space space) : Spelled (.array []) ('[' :: (space ++ [']']))
  | items {i : Item} {is : List Item} (hspace : ∀ j ∈ i :: is, j.Spaced)
      (h : ∀ j ∈ i :: is, Spelled j.literal j.spelled) :
      Spelled (.array ((i :: is).map Item.literal))
        ('[' :: (commas ((i :: is).map Item.text) ++ [']']))
  | noMembers {space : List Char} (h : Space space) :
      Spelled (.object []) ('\x7b' :: (space ++ ['\x7d']))
  | members {m : Member} {ms : List Member} (hspace : ∀ e ∈ m :: ms, e.Spaced)
      (hkey : ∀ e ∈ m :: ms, Quoted e.key e.spelled)
      (h : ∀ e ∈ m :: ms, Spelled e.value.literal e.value.spelled) :
      Spelled (.object ((m :: ms).map Member.entry))
        ('\x7b' :: (commas ((m :: ms).map Member.text) ++ ['\x7d']))

theorem commas_singleton (a : List Char) : commas [a] = a := List.intercalate_singleton

theorem commas_cons_cons (a b : List Char) (as : List (List Char)) :
    commas (a :: b :: as) = a ++ ',' :: commas (b :: as) := by
  unfold commas
  rw [List.intercalate_cons_cons, List.append_assoc, List.singleton_append]

theorem exists_commas_append_eq (a : List Char) (as : List (List Char)) (rest : List Char) :
    ∃ r, commas (a :: as) ++ rest = a ++ r := by
  cases as with
  | nil => exact ⟨rest, by rw [commas_singleton]⟩
  | cons b as => exact ⟨_, by rw [commas_cons_cons, List.append_assoc]⟩

/-- The text writes the literal: whatever is open, the reader comes from in front of the text to
behind the literal, unless what follows continues a number. -/
structure Writes (cs : List Char) (l : Literal) : Prop where
  starts : ∃ c r, cs = c :: r ∧ isSpace c = false ∧ c ≠ ']'
  reads : ∀ frames rest, Numeral.Ends rest →
    finish ⟨.before, frames, cs ++ rest⟩ = finish (.behind frames l rest)

theorem Writes.of_step (hc : isSpace c = false ∧ c ≠ ']') (h : ∀ frames rest, Numeral.Ends rest →
    stepBefore frames c (r ++ rest) = some (.behind frames l rest)) : Writes (c :: r) l where
  starts := ⟨c, r, rfl, hc⟩
  reads frames rest hrest := finish_before hc.1 (h frames rest hrest)

theorem writes_string {t : Text} (h : Quoted t cs) : Writes cs (.string t) := by
  obtain ⟨r, rfl, hread⟩ := h.readText
  refine .of_step (by decide) fun frames rest _ => ?_
  unfold stepBefore
  rw [if_pos rfl, hread]
  rfl

/-- What starts with a sign or a digit is read as a number. -/
theorem stepBefore_of_digit (hc : c = '-' ∨ c.isDigit) (frames : List Frame) (r : List Char) :
    stepBefore frames c r =
      (Numeral.read (c :: r)).map fun (n, rest) => .behind frames (.number n) rest := by
  have hne {d : Char} (hd : ¬ (d = '-' ∨ d.isDigit)) : c ≠ d := fun h => hd (h ▸ hc)
  unfold stepBefore
  rw [if_neg (hne (by decide)), if_neg (hne (by decide)), if_neg (hne (by decide))]
  split
  · exact absurd rfl (hne (d := 'n') (by decide))
  · exact absurd rfl (hne (d := 't') (by decide))
  · exact absurd rfl (hne (d := 'f') (by decide))
  · rfl

theorem writes_number {n : Numeral} (h : n.Spelled cs) : Writes cs (.number n) := by
  obtain ⟨c, r, rfl, hc⟩ := h.exists_eq_cons
  have hspace : isSpace c = false ∧ c ≠ ']' := by
    rcases hc with rfl | hc
    · decide
    · constructor
      · unfold isSpace
        simp only [Bool.or_eq_false_iff, beq_eq_false_iff_ne]
        refine ⟨⟨⟨?_, ?_⟩, ?_⟩, ?_⟩ <;> rintro rfl <;> cases hc
      · rintro rfl
        cases hc
  refine .of_step hspace fun frames rest hrest => ?_
  have hread := h.read hrest
  rw [List.cons_append] at hread
  rw [stepBefore_of_digit hc, hread]
  rfl

/-! ### Containers -/

theorem Item.finish {i : Item} (hi : i.Spaced) (h : Writes i.spelled i.literal)
    (hrest : Numeral.Ends rest) :
    finish ⟨.before, frames, i.text ++ rest⟩ = Literal.finish (.behind frames i.literal rest) := by
  unfold Item.text
  rw [List.append_assoc, List.append_assoc, hi.1.finish, h.reads _ _ (hi.2.ends hrest)]
  exact hi.2.finish rest

/-- The reader in an open array takes the items that are left and the end of the array. -/
theorem finish_items {i : Item} {is : List Item} (hspace : ∀ j ∈ i :: is, j.Spaced)
    (h : ∀ j ∈ i :: is, Writes j.spelled j.literal) (taken : List Literal) (frames : List Frame)
    (rest : List Char) :
    finish ⟨.before, .array taken :: frames, commas ((i :: is).map Item.text) ++ ']' :: rest⟩ =
      finish (.behind frames (.array (taken.reverse ++ (i :: is).map Item.literal)) rest) := by
  induction is generalizing i taken with
  | nil =>
    rw [List.map_singleton, commas_singleton,
      Item.finish (hspace i (by simp)) (h i (by simp)) (Numeral.ends_cons (by decide) _),
      finish_behind (by decide) rfl, List.reverse_cons]
    rfl
  | cons j is ih =>
    rw [List.map_cons, List.map_cons, commas_cons_cons, List.append_assoc, List.cons_append,
      Item.finish (hspace i (by simp)) (h i (by simp)) (Numeral.ends_cons (by decide) _),
      finish_behind (by decide) rfl, ← List.map_cons,
      ih (fun k hk => hspace k (.tail _ hk)) fun k hk => h k (.tail _ hk)]
    simp

theorem stepBefore_bracket (hr : skipSpace r = c :: ds) (hc : c ≠ ']') (frames : List Frame) :
    stepBefore frames '[' r = some ⟨.before, .array [] :: frames, skipSpace r⟩ := by
  unfold stepBefore
  rw [if_neg (by decide), if_pos rfl]
  split
  · next heq => exact absurd (List.cons.inj (hr.symm.trans heq)).1 hc
  · rfl

theorem skipSpace_skipSpace (cs : List Char) : skipSpace (skipSpace cs) = skipSpace cs :=
  List.dropWhile_idempotent _ _

theorem writes_noItems (h : Space space) : Writes ('[' :: (space ++ [']'])) (.array []) := by
  refine .of_step (by decide) fun frames rest _ => ?_
  unfold stepBefore
  rw [if_neg (by decide), if_pos rfl, List.append_assoc, h.skipSpace, List.singleton_append,
    skipSpace_cons (by decide)]
  rfl

theorem writes_items {i : Item} {is : List Item} (hspace : ∀ j ∈ i :: is, j.Spaced)
    (h : ∀ j ∈ i :: is, Writes j.spelled j.literal) :
    Writes ('[' :: (commas ((i :: is).map Item.text) ++ [']']))
      (.array ((i :: is).map Item.literal)) where
  starts := ⟨'[', _, rfl, by decide⟩
  reads frames rest _ := by
    rw [List.cons_append, List.append_assoc, List.singleton_append]
    obtain ⟨r, hr⟩ := exists_commas_append_eq i.text (is.map Item.text) (']' :: rest)
    obtain ⟨c, s, hcs, hc, hbracket⟩ := (h i (by simp)).starts
    have hskip : skipSpace (commas ((i :: is).map Item.text) ++ ']' :: rest) =
        c :: (s ++ (i.after ++ r)) := by
      rw [List.map_cons, hr, Item.text, List.append_assoc, (hspace i (by simp)).1.skipSpace, hcs,
        List.append_assoc, List.cons_append, skipSpace_cons hc]
    rw [finish_before (by decide) (stepBefore_bracket hskip hbracket frames),
      finish_congr (skipSpace_skipSpace _), finish_items hspace h]
    rfl

theorem readKey_congr (h : skipSpace cs = skipSpace ds) (members : List (Text × Literal))
    (frames : List Frame) : readKey members frames cs = readKey members frames ds := by
  unfold readKey
  rw [h]

theorem readKey_member {m : Member} (hspace : m.Spaced) (hkey : Quoted m.key m.spelled)
    (members : List (Text × Literal)) (frames : List Frame) (rest : List Char) :
    readKey members frames (m.text ++ rest) =
      some ⟨.before, .object members m.key :: frames, m.value.text ++ rest⟩ := by
  obtain ⟨r, hr, hread⟩ := hkey.readText
  have hquote : skipSpace (m.text ++ rest) =
      '"' :: (r ++ (m.after ++ ':' :: (m.value.text ++ rest))) := by
    unfold Member.text
    rw [List.append_assoc, hspace.1.skipSpace, hr, List.cons_append, List.cons_append,
      skipSpace_cons (by decide)]
    simp
  have hcolon : skipSpace (m.after ++ ':' :: (m.value.text ++ rest)) =
      ':' :: (m.value.text ++ rest) := by
    rw [hspace.2.1.skipSpace, skipSpace_cons (by decide)]
  simp only [readKey, hquote, hread, hcolon]

theorem stepBehind_comma {members : List (Text × Literal)} {key : Text} :
    stepBehind l (.object members key) frames ',' r = readKey ((key, l) :: members) frames r := rfl

/-- The reader in an open object takes the members that are left and the end of the object. -/
theorem readKey_members {m : Member} {ms : List Member} (hspace : ∀ e ∈ m :: ms, e.Spaced)
    (hkey : ∀ e ∈ m :: ms, Quoted e.key e.spelled)
    (h : ∀ e ∈ m :: ms, Writes e.value.spelled e.value.literal) (taken : List (Text × Literal))
    (frames : List Frame) (rest : List Char) :
    ∃ s, readKey taken frames (commas ((m :: ms).map Member.text) ++ '\x7d' :: rest) = some s ∧
      finish s =
        finish (.behind frames (.object (taken.reverse ++ (m :: ms).map Member.entry)) rest) := by
  induction ms generalizing m taken with
  | nil =>
    rw [List.map_singleton, commas_singleton,
      readKey_member (hspace m (by simp)) (hkey m (by simp))]
    refine ⟨_, rfl, ?_⟩
    rw [Item.finish (hspace m (by simp)).2.2 (h m (by simp)) (Numeral.ends_cons (by decide) _),
      finish_behind (by decide) rfl, List.reverse_cons]
    rfl
  | cons e ms ih =>
    obtain ⟨s, hs, hfinish⟩ := ih (fun e he => hspace e (.tail _ he))
      (fun e he => hkey e (.tail _ he)) (fun e he => h e (.tail _ he)) (m.entry :: taken)
    rw [List.map_cons, List.map_cons, commas_cons_cons, List.append_assoc, List.cons_append,
      readKey_member (hspace m (by simp)) (hkey m (by simp))]
    refine ⟨_, rfl, ?_⟩
    rw [Item.finish (hspace m (by simp)).2.2 (h m (by simp)) (Numeral.ends_cons (by decide) _),
      ← List.map_cons, finish_behind (by decide) (stepBehind_comma.trans hs), hfinish]
    simp [Member.entry]

theorem stepBefore_brace (hr : skipSpace r = c :: ds) (hc : c ≠ '\x7d') (frames : List Frame) :
    stepBefore frames '\x7b' r = readKey [] frames r := by
  unfold stepBefore
  rw [if_neg (by decide), if_neg (by decide), if_pos rfl]
  split
  · next heq => exact absurd (List.cons.inj (hr.symm.trans heq)).1 hc
  · exact readKey_congr (skipSpace_skipSpace r) [] frames

theorem writes_noMembers (h : Space space) :
    Writes ('\x7b' :: (space ++ ['\x7d'])) (.object []) := by
  refine .of_step (by decide) fun frames rest _ => ?_
  unfold stepBefore
  rw [if_neg (by decide), if_neg (by decide), if_pos rfl, List.append_assoc, h.skipSpace,
    List.singleton_append, skipSpace_cons (by decide)]
  rfl

theorem writes_members {m : Member} {ms : List Member} (hspace : ∀ e ∈ m :: ms, e.Spaced)
    (hkey : ∀ e ∈ m :: ms, Quoted e.key e.spelled)
    (h : ∀ e ∈ m :: ms, Writes e.value.spelled e.value.literal) :
    Writes ('\x7b' :: (commas ((m :: ms).map Member.text) ++ ['\x7d']))
      (.object ((m :: ms).map Member.entry)) where
  starts := ⟨'\x7b', _, rfl, by decide⟩
  reads frames rest _ := by
    rw [List.cons_append, List.append_assoc, List.singleton_append]
    obtain ⟨r, hr⟩ := exists_commas_append_eq m.text (ms.map Member.text) ('\x7d' :: rest)
    obtain ⟨q, hq, -⟩ := (hkey m (by simp)).readText
    have hskip : ∃ ds, skipSpace (commas ((m :: ms).map Member.text) ++ '\x7d' :: rest) =
        '"' :: ds := by
      rw [List.map_cons, hr, Member.text, List.append_assoc, (hspace m (by simp)).1.skipSpace, hq,
        List.append_assoc, List.cons_append, skipSpace_cons (by decide)]
      exact ⟨_, rfl⟩
    obtain ⟨ds, hds⟩ := hskip
    obtain ⟨s, hs, hfinish⟩ := readKey_members hspace hkey h [] frames rest
    exact (finish_before (by decide) ((stepBefore_brace hds (by decide) frames).trans hs)).trans
      hfinish

theorem Spelled.writes (h : Spelled l cs) : Writes cs l := by
  induction h with
  | null => exact .of_step (by decide) fun _ _ _ => rfl
  | true => exact .of_step (by decide) fun _ _ _ => rfl
  | false => exact .of_step (by decide) fun _ _ _ => rfl
  | number h => exact writes_number h
  | string h => exact writes_string h
  | noItems h => exact writes_noItems h
  | items hspace _ ih => exact writes_items hspace ih
  | noMembers h => exact writes_noMembers h
  | members hspace hkey _ ih => exact writes_members hspace hkey ih

/-- The text spells the literal, with space around it. -/
def Spells (text : String) (l : Literal) : Prop :=
  ∃ before cs after, Space before ∧ Space after ∧ Spelled l cs ∧
    text.toList = before ++ (cs ++ after)

/-- A text is read as the literal that it spells. -/
theorem Spells.ofText?_eq {text : String} (h : Spells text l) :
    Literal.ofText? text.toList = some l := by
  obtain ⟨before, cs, after, hbefore, hafter, hl, htext⟩ := h
  unfold Literal.ofText?
  have hends : Numeral.Ends after := List.append_nil after ▸ hafter.ends (nofun : Numeral.Ends [])
  rw [htext, hbefore.finish, hl.writes.reads [] after hends]
  refine finish_of_result ?_
  have hskip : skipSpace after = [] := List.dropWhile_eq_nil_iff.2 hafter
  unfold State.behind State.result?
  dsimp only
  rw [hskip, if_pos rfl]

end Json.Literal

end PackageMap
