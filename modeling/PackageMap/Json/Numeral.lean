import PackageMap.Decimal

/-!
# Numbers as written

A number is kept as its digits, so nothing is rounded. The readers below take a number or a part of
one off the start of a text.
-/

namespace PackageMap

/-- A number as written: the digits of its parts, and whether the exponent is negative. -/
structure Numeral where
  negative : Bool
  whole : List Char
  fraction : List Char
  exponent : Option (Bool × List Char)
deriving DecidableEq, Repr

namespace Numeral

def ofNat (n : Nat) : Numeral := ⟨false, Nat.toDigits 10 n, [], none⟩

/-- The number, if it is written without sign, fraction and exponent. -/
def toNat? (n : Numeral) : Option Nat :=
  if n.negative || n.fraction != [] || n.exponent.isSome then none else some (digitsValue n.whole)

/-- The text of the number. -/
def text (n : Numeral) : List Char :=
  (if n.negative then ['-'] else []) ++ n.whole ++
    (if n.fraction = [] then [] else '.' :: n.fraction) ++
    (match n.exponent with
      | none => []
      | some (negative, digits) => 'e' :: (if negative then ['-'] else []) ++ digits)

/-- The digits at the start of a text and what follows them, if there are any. -/
def readDigits (cs : List Char) : Option (List Char × List Char) :=
  match cs.takeWhile Char.isDigit with
  | [] => none
  | ds => some (ds, cs.dropWhile Char.isDigit)

theorem readDigits_length_lt {cs ds rest : List Char} (h : readDigits cs = some (ds, rest)) :
    rest.length < cs.length := by
  unfold readDigits at h
  split at h
  · cases h
  · next hne =>
    cases h
    have hlen := congrArg List.length (List.takeWhile_append_dropWhile (p := Char.isDigit) (l := cs))
    rw [List.length_append] at hlen
    have : 0 < (cs.takeWhile Char.isDigit).length := List.length_pos_iff.2 hne
    omega

/-- The fraction at the start of a text. A text that does not start with a point has none. -/
def readFraction (cs : List Char) : Option (List Char × List Char) :=
  match cs with
  | '.' :: r => readDigits r
  | cs => some ([], cs)

theorem readFraction_length_le {cs ds rest : List Char} (h : readFraction cs = some (ds, rest)) :
    rest.length ≤ cs.length := by
  unfold readFraction at h
  split at h
  · exact Nat.le_succ_of_le (Nat.le_of_lt (readDigits_length_lt h))
  · cases h; exact Nat.le_refl _

/-- The exponent at the start of a text. A text that does not start with its mark has none. -/
def readExponent (cs : List Char) : Option (Option (Bool × List Char) × List Char) :=
  match cs with
  | [] => some (none, [])
  | c :: r =>
    if c = 'e' ∨ c = 'E' then
      match r with
      | '-' :: r => (readDigits r).map fun (ds, rest) => (some (true, ds), rest)
      | '+' :: r => (readDigits r).map fun (ds, rest) => (some (false, ds), rest)
      | r => (readDigits r).map fun (ds, rest) => (some (false, ds), rest)
    else some (none, c :: r)

theorem readExponent_length_le {cs rest : List Char} {e : Option (Bool × List Char)}
    (h : readExponent cs = some (e, rest)) : rest.length ≤ cs.length := by
  unfold readExponent at h
  split at h
  · cases h; exact Nat.le_refl _
  · split at h
    · split at h <;>
      · obtain ⟨⟨ds, r⟩, hd, he⟩ := Option.map_eq_some_iff.1 h
        cases he
        have := readDigits_length_lt hd
        simp only [List.length_cons]
        omega
    · cases h; exact Nat.le_refl _

/-- The number after its sign. A zero does not lead other digits. -/
def readUnsigned (negative : Bool) (cs : List Char) : Option (Numeral × List Char) :=
  match readDigits cs with
  | none => none
  | some ('0' :: _ :: _, _) => none
  | some (whole, r) =>
    match readFraction r with
    | none => none
    | some (fraction, r) =>
      match readExponent r with
      | none => none
      | some (exponent, r) => some (⟨negative, whole, fraction, exponent⟩, r)

theorem readUnsigned_length_lt {negative : Bool} {cs rest : List Char} {n : Numeral}
    (h : readUnsigned negative cs = some (n, rest)) : rest.length < cs.length := by
  unfold readUnsigned at h
  split at h
  · cases h
  · cases h
  · next hd =>
    split at h
    · cases h
    · next hf =>
      split at h
      · cases h
      · next he =>
        cases h
        have := readDigits_length_lt hd
        have := readFraction_length_le hf
        have := readExponent_length_le he
        omega

/-- The number at the start of a text. -/
def read (cs : List Char) : Option (Numeral × List Char) :=
  match cs with
  | '-' :: r => readUnsigned true r
  | cs => readUnsigned false cs

theorem read_length_lt {cs rest : List Char} {n : Numeral} (h : read cs = some (n, rest)) :
    rest.length < cs.length := by
  unfold read at h
  split at h
  · exact Nat.lt_succ_of_lt (readUnsigned_length_lt h)
  · exact readUnsigned_length_lt h

end Numeral

end PackageMap
