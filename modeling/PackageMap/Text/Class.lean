import PackageMap.Text.Ranges

/-!
# Character classes

Blanks, letters and numerals of all scripts. ASCII characters are decided without the tables, so
the classes compute on ASCII text.
-/

namespace PackageMap.Text

/-- White space of every script, line ends included. -/
def isBlank (c : Char) : Bool :=
  let n := c.toNat
  if n < 0x80 then (0x09 ≤ n && n ≤ 0x0D) || n == 0x20
  else n == 0x85 || n == 0xA0 || n == 0x1680 || (0x2000 ≤ n && n ≤ 0x200A) || n == 0x2028 ||
    n == 0x2029 || n == 0x202F || n == 0x205F || n == 0x3000

/-- Whether `n` lies in one of the ranges `lo, …, hi - 1` of a table in increasing order. -/
def inRanges (table : Array (Nat × Nat)) (n lo hi : Nat) : Bool :=
  if lo < hi then
    let mid := lo + (hi - lo) / 2
    match table[mid]? with
    | none => false
    | some (first, last) =>
      if n < first then inRanges table n lo mid
      else if last < n then inRanges table n (mid + 1) hi
      else true
  else false
termination_by hi - lo

def isLetter (c : Char) : Bool :=
  if c.toNat < 0x80 then c.isAlpha else inRanges letterRanges c.toNat 0 letterRanges.size

def isNumeral (c : Char) : Bool :=
  if c.toNat < 0x80 then c.isDigit else inRanges numeralRanges c.toNat 0 numeralRanges.size

/-- A character that may start an identifier. -/
def isIdentStart (c : Char) : Bool := isLetter c || c == '_' || c == '$'

/-- A character that may stand inside an identifier. -/
def isIdentPart (c : Char) : Bool := isLetter c || isNumeral c || c == '_' || c == '$'

theorem isIdentPart_of_isIdentStart {c : Char} (h : isIdentStart c) : isIdentPart c := by
  unfold isIdentStart at h; unfold isIdentPart; grind

/-- A character that ends a line after a backslash. -/
def isLineEnd (c : Char) : Bool := c == '\n' || c == '\r' || c == '\u2028' || c == '\u2029'

end PackageMap.Text
