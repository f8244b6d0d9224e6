/-!
# UTF-16 length

The number of UTF-16 code units of a text, and the same number counted off its UTF-8 bytes: every
byte that starts a character counts one, and the first of four counts one more.
-/

namespace PackageMap.Text

/-- The code units of a character. -/
def charUnits (c : Char) : Nat := if c.toNat < 0x10000 then 1 else 2

/-- The code units of a text. -/
def units : List Char → Nat
  | [] => 0
  | c :: cs => charUnits c + units cs

/-- The code units that a byte of UTF-8 accounts for. -/
def byteUnits (b : UInt8) : Nat :=
  (if b &&& 0xC0 ≠ 0x80 then 1 else 0) + (if b ≥ 0xF0 then 1 else 0)

/-- Count a chunk of bytes on top of `n`. -/
def countUnits (n : Nat) (chunk : ByteArray) : Nat :=
  chunk.data.foldl (fun n b => n + byteUnits b) n

end PackageMap.Text
