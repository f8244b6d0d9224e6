/-!
# UTF-8

Bytes are decoded one at a time by a machine that knows how many bytes of the current character it
still owes and the range of the next one. A text read leniently has U+FFFD in the place of every
longest start of a character that no byte continues; read strictly, it has none such.
-/

namespace PackageMap.Text.Utf8

/-- A character that is being decoded: the bytes owed, the range of the next one, the bits so far. -/
structure Open where
  owed : Nat
  low : UInt8
  high : UInt8
  bits : Nat
deriving DecidableEq, Repr

/-- What a first byte opens: a whole character, one that owes bytes, or nothing. -/
inductive Lead where
  | char (c : Char)
  | opens (o : Open)
  | invalid
deriving DecidableEq, Repr

/-- The first byte of a character. The range of the byte after it rules out long forms, surrogates
and what lies past U+10FFFF. -/
def lead (b : UInt8) : Lead :=
  let n := b.toNat
  if n < 0x80 then .char (Char.ofNat n)
  else if n < 0xC2 then .invalid
  else if n < 0xE0 then .opens ⟨1, 0x80, 0xBF, n - 0xC0⟩
  else if n < 0xF0 then
    .opens ⟨2, if n = 0xE0 then 0xA0 else 0x80, if n = 0xED then 0x9F else 0xBF, n - 0xE0⟩
  else if n < 0xF5 then
    .opens ⟨3, if n = 0xF0 then 0x90 else 0x80, if n = 0xF4 then 0x8F else 0xBF, n - 0xF0⟩
  else .invalid

def replacement : Char := '\ufffd'

/-- The result of feeding a byte: the open character, and the decoded ones, newest first. -/
abbrev Progress := Option Open × List Char

/-- Feed a byte between characters. -/
def feedLead (b : UInt8) (decoded : List Char) : Progress :=
  match lead b with
  | .char c => (none, c :: decoded)
  | .opens o => (some o, decoded)
  | .invalid => (none, replacement :: decoded)

/-- Feed a byte. One that does not continue the open character ends it and is looked at again. -/
def feed (b : UInt8) : Progress → Progress
  | (none, decoded) => feedLead b decoded
  | (some o, decoded) =>
    if o.low ≤ b ∧ b ≤ o.high then
      let bits := 64 * o.bits + (b.toNat - 0x80)
      if o.owed ≤ 1 then (none, Char.ofNat bits :: decoded)
      else (some ⟨o.owed - 1, 0x80, 0xBF, bits⟩, decoded)
    else feedLead b (replacement :: decoded)

/-- The characters decoded at the end of the bytes. -/
def close : Progress → List Char
  | (none, decoded) => decoded.reverse
  | (some _, decoded) => (replacement :: decoded).reverse

/-- The text of any bytes. -/
def lossy (bytes : ByteArray) : String :=
  String.ofList (close (bytes.data.foldl (fun p b => feed b p) (none, [])))

/-- The text of bytes that are well formed. -/
def strict? (bytes : ByteArray) : Option String := String.fromUTF8? bytes

theorem strict?_toUTF8 (s : String) : strict? s.toUTF8 = some s := by
  unfold strict? String.fromUTF8?
  exact dif_pos s.isValidUTF8

end PackageMap.Text.Utf8
