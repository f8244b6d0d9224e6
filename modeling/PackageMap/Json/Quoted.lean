import PackageMap.Text.Hex

/-!
# Quoted strings

In a string a quote, a backslash and the characters below U+0020 are escaped, nothing else is. Any
character may be read from an escape; half of a surrogate pair may be written so too, and then the
string has no text.
-/

namespace PackageMap.Json

open PackageMap.Text (hexDigit hexValue?)

/-- The text of a string literal, or `none` if an escape names half of a surrogate pair. -/
abbrev Text := Option String

/-! ## Writing -/

/-- How a character is written inside a string. -/
def escape (c : Char) : List Char :=
  if c = '"' then ['\\', '"']
  else if c = '\\' then ['\\', '\\']
  else if c = '\x08' then ['\\', 'b']
  else if c = '\t' then ['\\', 't']
  else if c = '\n' then ['\\', 'n']
  else if c = '\x0c' then ['\\', 'f']
  else if c = '\r' then ['\\', 'r']
  else if c.toNat < 0x20 then
    ['\\', 'u', '0', '0', hexDigit (c.toNat / 16), hexDigit (c.toNat % 16)]
  else [c]

def quote (s : String) : List Char := '"' :: (s.toList.flatMap escape ++ ['"'])

example : quote "a\"\\\x01\n" = ['"', 'a', '\\', '"', '\\', '\\', '\\', 'u', '0', '0', '0', '1',
    '\\', 'n', '"'] := by decide

/-! ## Reading -/

/-- A character, or half of a surrogate pair. -/
inductive Piece where
  | char (c : Char)
  | half (unit : Nat)
deriving DecidableEq, Repr

def hexUnit? (a b c d : Char) : Option Nat := do
  let a ← hexValue? a
  let b ← hexValue? b
  let c ← hexValue? c
  let d ← hexValue? d
  return 4096 * a + 256 * b + 16 * c + d

def pieceOfUnit (n : Nat) : Piece :=
  if 0xD800 ≤ n ∧ n < 0xE000 then .half n else .char (Char.ofNat n)

/-- The character that stands for `c` after a backslash. -/
def escaped? : Char → Option Char
  | '"' => some '"'
  | '\\' => some '\\'
  | '/' => some '/'
  | 'b' => some '\x08'
  | 'f' => some '\x0c'
  | 'n' => some '\n'
  | 'r' => some '\r'
  | 't' => some '\t'
  | _ => none

/-- The pieces up to the closing quote, newest first, and the rest. -/
def readPieces : List Char → List Piece → Option (List Piece × List Char)
  | [], _ => none
  | '"' :: r, taken => some (taken, r)
  | '\\' :: 'u' :: a :: b :: c :: d :: r, taken =>
    match hexUnit? a b c d with
    | some n => readPieces r (pieceOfUnit n :: taken)
    | none => none
  | '\\' :: e :: r, taken =>
    match escaped? e with
    | some c => readPieces r (.char c :: taken)
    | none => none
  | c :: r, taken => if c.toNat < 0x20 then none else readPieces r (.char c :: taken)

theorem readPieces_length_lt {r rest : List Char} {taken pieces : List Piece}
    (h : readPieces r taken = some (pieces, rest)) : rest.length < r.length := by
  fun_induction readPieces r taken with
  | case1 => simp at h
  | case2 => cases h; simp
  | case3 => rename_i ih; have := ih h; simp only [List.length_cons]; omega
  | case4 => simp at h
  | case5 => rename_i ih; have := ih h; simp only [List.length_cons]; omega
  | case6 => simp at h
  | case7 => simp at h
  | case8 => rename_i ih; exact Nat.lt_succ_of_lt (ih h)

/-- The characters of pieces that are given newest first: a high half joins the low half after
it, and any other half makes the text none. -/
def joinPieces : List Piece → List Char → Option (List Char)
  | [], joined => some joined
  | .char c :: before, joined => joinPieces before (c :: joined)
  | .half low :: .half high :: before, joined =>
    if high < 0xDC00 ∧ 0xDC00 ≤ low then
      joinPieces before (Char.ofNat (0x10000 + 0x400 * (high - 0xD800) + (low - 0xDC00)) :: joined)
    else none
  | .half _ :: _, _ => none

/-- The string literal after an opening quote. -/
def readText (r : List Char) : Option (Text × List Char) :=
  match readPieces r [] with
  | some (pieces, rest) => some ((joinPieces pieces []).map String.ofList, rest)
  | none => none

theorem readText_length_lt {r rest : List Char} {t : Text} (h : readText r = some (t, rest)) :
    rest.length < r.length := by
  unfold readText at h
  split at h
  · next hp => cases h; exact readPieces_length_lt hp
  · cases h

end PackageMap.Json
