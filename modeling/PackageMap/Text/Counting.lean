/-!
# How many texts there are

The bytes of a text, read as the digits of a number, tell it from all other texts. So there are
fewer texts of a bounded length than such numbers.
-/

namespace PackageMap.Text

/-- The number with the given digits in base 256, the lowest first, after a leading one. -/
def byteCode : List UInt8 → Nat
  | [] => 1
  | b :: bs => 256 * byteCode bs + b.toNat

theorem byteCode_pos (bs : List UInt8) : 0 < byteCode bs := by
  cases bs with
  | nil => exact Nat.one_pos
  | cons b bs =>
    have := byteCode_pos bs
    unfold byteCode
    omega

theorem byteCode_inj {as bs : List UInt8} (h : byteCode as = byteCode bs) : as = bs := by
  induction as generalizing bs with
  | nil =>
    cases bs with
    | nil => rfl
    | cons b bs =>
      have := byteCode_pos bs
      unfold byteCode at h
      omega
  | cons a as ih =>
    cases bs with
    | nil =>
      have := byteCode_pos as
      unfold byteCode at h
      omega
    | cons b bs =>
      have ha := a.toNat_lt
      have hb := b.toNat_lt
      unfold byteCode at h
      have hab : a.toNat = b.toNat := by omega
      have hrest : byteCode as = byteCode bs := by omega
      rw [UInt8.toNat_inj.1 hab, ih hrest]

/-- A bound on the number of texts with fewer than `n` bytes. -/
@[irreducible] def textBound (n : Nat) : Nat := Nat.pow 256 n

theorem textBound_pos (n : Nat) : 0 < textBound n := by
  unfold textBound; exact Nat.pow_pos (by decide)

theorem textBound_succ (n : Nat) : textBound (n + 1) = textBound n * 256 := by
  unfold textBound; rfl

theorem byteCode_lt {bs : List UInt8} {n : Nat} (h : bs.length < n) : byteCode bs < textBound n := by
  induction n generalizing bs with
  | zero => omega
  | succ n ih =>
    rw [textBound_succ]
    cases bs with
    | nil =>
      have := textBound_pos n
      unfold byteCode
      omega
    | cons b bs =>
      have := ih (Nat.lt_of_succ_lt_succ h)
      have := b.toNat_lt
      unfold byteCode
      omega

/-- The number that stands for a text. -/
def code (s : String) : Nat := byteCode s.toByteArray.data.toList

theorem code_inj {s t : String} (h : code s = code t) : s = t :=
  String.toByteArray_inj.1 (ByteArray.ext (Array.toList_inj.1 (byteCode_inj h)))

theorem code_lt {s : String} {n : Nat} (h : s.utf8ByteSize < n) : code s < textBound n :=
  byteCode_lt h

end PackageMap.Text
