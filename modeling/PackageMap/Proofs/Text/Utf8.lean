import PackageMap.Path.Relative

/-!
# Texts as bytes

The bytes of a text are decoded to the text again: those of each character are what its first byte
opens, and the last of them closes it (`feed_utf8EncodeChar`). So nothing is replaced in bytes that
are UTF-8 (`lossy_toUTF8`), and a path whose names are UTF-8 is shown as it is written.
-/

namespace PackageMap.Text.Utf8

theorem toNat_ofNat {n : Nat} (h : n < 256) : (UInt8.ofNat n).toNat = n :=
  UInt8.toNat_ofNat_of_lt' h

/-- A byte that continues the open character. -/
theorem feed_following {owed bits n : Nat} {low high : UInt8} {decoded : List Char} (hn : n < 64)
    (hlow : low.toNat ≤ n + 128) (hhigh : n + 128 ≤ high.toNat) :
    feed (UInt8.ofNat (n + 128)) (some ⟨owed, low, high, bits⟩, decoded) =
      if owed ≤ 1 then (none, Char.ofNat (64 * bits + n) :: decoded)
      else (some ⟨owed - 1, 0x80, 0xBF, 64 * bits + n⟩, decoded) := by
  have hbyte : (UInt8.ofNat (n + 128)).toNat = n + 128 := toNat_ofNat (by omega)
  have hrange : low ≤ UInt8.ofNat (n + 128) ∧ UInt8.ofNat (n + 128) ≤ high := by
    rw [UInt8.le_iff_toNat_le, UInt8.le_iff_toNat_le, hbyte]
    exact ⟨hlow, hhigh⟩
  have hbits : n + 128 - 0x80 = n := Nat.add_sub_cancel n 128
  unfold feed
  dsimp only
  rw [if_pos hrange, hbyte, hbits]

/-- Any byte continues a character after the second one. -/
theorem feed_rest {owed bits n : Nat} {decoded : List Char} :
    feed (UInt8.ofNat (n % 64 + 128)) (some ⟨owed, 0x80, 0xBF, bits⟩, decoded) =
      if owed ≤ 1 then (none, Char.ofNat (64 * bits + n % 64) :: decoded)
      else (some ⟨owed - 1, 0x80, 0xBF, 64 * bits + n % 64⟩, decoded) := by
  have hn : n % 64 < 64 := Nat.mod_lt n (by decide)
  have hhigh : (0xBF : UInt8).toNat = 191 := rfl
  refine feed_following hn (Nat.le_add_left 128 _) ?_
  rw [hhigh]
  omega

theorem feedLead_of_opens {b : UInt8} {o : Open} {decoded : List Char} (h : lead b = .opens o) :
    feed b (none, decoded) = (some o, decoded) := by
  show feedLead b decoded = _
  unfold feedLead
  rw [h]

/-- The first byte of a character that has two. -/
theorem lead_two {v : Nat} (h1 : 0x7f < v) (h2 : v ≤ 0x7ff) :
    lead (UInt8.ofNat (v / 64 % 32 + 192)) = .opens ⟨1, 0x80, 0xBF, v / 64⟩ := by
  have hbits : v / 64 % 32 + 192 - 0xC0 = v / 64 := by omega
  unfold lead
  rw [toNat_ofNat (by omega), if_neg (by omega), if_neg (by omega), if_pos (by omega), hbits]

/-- The character that three bytes spell, once the first of them is known. -/
def openThree (bits : Nat) : Open :=
  ⟨2, if bits = 0 then 0xA0 else 0x80, if bits = 13 then 0x9F else 0xBF, bits⟩

/-- The character that four bytes spell, once the first of them is known. -/
def openFour (bits : Nat) : Open :=
  ⟨3, if bits = 0 then 0x90 else 0x80, if bits = 4 then 0x8F else 0xBF, bits⟩

theorem lead_three {v : Nat} (h2 : 0x7ff < v) (h3 : v ≤ 0xffff) :
    lead (UInt8.ofNat (v / 4096 % 16 + 224)) = .opens (openThree (v / 4096)) := by
  have hbits : v / 4096 % 16 + 224 - 0xE0 = v / 4096 := by omega
  have hlow : v / 4096 % 16 + 224 = 0xE0 ↔ v / 4096 = 0 := by omega
  have hhigh : v / 4096 % 16 + 224 = 0xED ↔ v / 4096 = 13 := by omega
  unfold lead openThree
  rw [toNat_ofNat (by omega), if_neg (by omega), if_neg (by omega), if_neg (by omega),
    if_pos (by omega)]
  simp only [hbits, hlow, hhigh]

theorem lead_four {v : Nat} (h3 : 0xffff < v) (h4 : v < 0x110000) :
    lead (UInt8.ofNat (v / 262144 % 8 + 240)) = .opens (openFour (v / 262144)) := by
  have hbits : v / 262144 % 8 + 240 - 0xF0 = v / 262144 := by omega
  have hlow : v / 262144 % 8 + 240 = 0xF0 ↔ v / 262144 = 0 := by omega
  have hhigh : v / 262144 % 8 + 240 = 0xF4 ↔ v / 262144 = 4 := by omega
  unfold lead openFour
  rw [toNat_ofNat (by omega), if_neg (by omega), if_neg (by omega), if_neg (by omega),
    if_neg (by omega), if_pos (by omega)]
  simp only [hbits, hlow, hhigh]

/-- The second of three bytes is in its range, as the character is neither short nor a surrogate. -/
theorem feed_openThree {v : Nat} {decoded : List Char} (h2 : 0x7ff < v)
    (hv : v < 0xD800 ∨ 0xDFFF < v ∧ v < 0x110000) :
    feed (UInt8.ofNat (v / 64 % 64 + 128)) (some (openThree (v / 4096)), decoded) =
      (some ⟨1, 0x80, 0xBF, v / 64⟩, decoded) := by
  have hn : v / 64 % 64 < 64 := Nat.mod_lt _ (by decide)
  have hbits : 64 * (v / 4096) + v / 64 % 64 = v / 64 := by omega
  have hlow : (if v / 4096 = 0 then 0xA0 else 0x80 : UInt8).toNat ≤ v / 64 % 64 + 128 := by
    split
    · show 160 ≤ _
      omega
    · show 128 ≤ _
      omega
  have hhigh : v / 64 % 64 + 128 ≤ (if v / 4096 = 13 then 0x9F else 0xBF : UInt8).toNat := by
    split
    · show _ ≤ 159
      omega
    · show _ ≤ 191
      omega
  unfold openThree
  rw [feed_following hn hlow hhigh, if_neg (by decide), hbits]

/-- The second of four bytes is in its range, as the character is neither short nor too far. -/
theorem feed_openFour {v : Nat} {decoded : List Char} (h3 : 0xffff < v) (h4 : v < 0x110000) :
    feed (UInt8.ofNat (v / 4096 % 64 + 128)) (some (openFour (v / 262144)), decoded) =
      (some ⟨2, 0x80, 0xBF, v / 4096⟩, decoded) := by
  have hn : v / 4096 % 64 < 64 := Nat.mod_lt _ (by decide)
  have hbits : 64 * (v / 262144) + v / 4096 % 64 = v / 4096 := by omega
  have hlow : (if v / 262144 = 0 then 0x90 else 0x80 : UInt8).toNat ≤ v / 4096 % 64 + 128 := by
    split
    · show 144 ≤ _
      omega
    · show 128 ≤ _
      omega
  have hhigh : v / 4096 % 64 + 128 ≤ (if v / 262144 = 4 then 0x8F else 0xBF : UInt8).toNat := by
    split
    · show _ ≤ 143
      omega
    · show _ ≤ 191
      omega
  unfold openFour
  rw [feed_following hn hlow hhigh, if_neg (by decide), hbits]

/-- The bytes of a character are decoded to it. -/
theorem feed_utf8EncodeChar (c : Char) (decoded : List Char) :
    (String.utf8EncodeChar c).foldl (fun p b => feed b p) (none, decoded) =
      (none, c :: decoded) := by
  have hv : c.val.toNat = c.toNat := rfl
  have hvalid : c.toNat < 0xD800 ∨ 0xDFFF < c.toNat ∧ c.toNat < 0x110000 := c.valid
  have hc : Char.ofNat c.toNat = c := Char.ofNat_toNat c
  unfold String.utf8EncodeChar
  dsimp only
  rw [hv]
  generalize c.toNat = v at *
  split
  · next h1 =>
    have hlead : lead (UInt8.ofNat v) = .char c := by
      unfold lead
      rw [toNat_ofNat (by omega), if_pos (by omega), hc]
    show feedLead (UInt8.ofNat v) decoded = _
    unfold feedLead
    rw [hlead]
  split
  · next h1 h2 =>
    have hbits : 64 * (v / 64) + v % 64 = v := by omega
    rw [List.foldl_cons, feedLead_of_opens (lead_two (by omega) h2), List.foldl_cons, feed_rest,
      if_pos (by decide), List.foldl_nil, hbits, hc]
  split
  · next h1 h2 h3 =>
    have hbits : 64 * (v / 64) + v % 64 = v := by omega
    rw [List.foldl_cons, feedLead_of_opens (lead_three (by omega) h3), List.foldl_cons,
      feed_openThree (by omega) hvalid, List.foldl_cons, feed_rest, if_pos (by decide),
      List.foldl_nil, hbits, hc]
  · next h1 h2 h3 =>
    have hbits : 64 * (64 * (v / 4096) + v / 64 % 64) + v % 64 = v := by omega
    have hfar : v < 0x110000 := by omega
    rw [List.foldl_cons, feedLead_of_opens (lead_four (by omega) hfar), List.foldl_cons,
      feed_openFour (by omega) hfar, List.foldl_cons, feed_rest, if_neg (by decide),
      List.foldl_cons, feed_rest, if_pos (by decide), List.foldl_nil, hbits, hc]

theorem feed_utf8Encode (cs decoded : List Char) :
    (cs.flatMap String.utf8EncodeChar).foldl (fun p b => feed b p) (none, decoded) =
      (none, cs.reverse ++ decoded) := by
  induction cs generalizing decoded with
  | nil => rfl
  | cons c cs ih =>
    rw [List.flatMap_cons, List.foldl_append, feed_utf8EncodeChar, ih, List.reverse_cons,
      List.append_assoc]
    rfl

/-- Bytes that are UTF-8 are read leniently as the text that they are. -/
theorem lossy_toUTF8 (s : String) : lossy s.toUTF8 = s := by
  have hbytes : s.toUTF8.data.toList = s.toList.flatMap String.utf8EncodeChar := by
    have h : s.toUTF8 = s.toList.utf8Encode := by
      rw [← String.toByteArray_ofList, String.ofList_toList]
      rfl
    rw [h]
    unfold List.utf8Encode
    rw [List.data_toByteArray]
  unfold lossy
  rw [← Array.foldl_toList, hbytes, feed_utf8Encode, List.append_nil]
  show String.ofList s.toList.reverse.reverse = s
  rw [List.reverse_reverse, String.ofList_toList]

end PackageMap.Text.Utf8

namespace PackageMap.Path

variable {bytes : Path → ByteArray} {p root : Path}

theorem lossy_of_isText (h : p.IsText bytes) : p.lossy bytes = p.text :=
  (congrArg Text.Utf8.lossy h).trans (Text.Utf8.lossy_toUTF8 p.text)

theorem relativizeAs_of_isText (hp : p.IsText bytes) (hroot : root.IsText bytes) :
    p.relativizeAs (lossy bytes) root = p.relativize root := by
  unfold relativizeAs
  rw [lossy_of_isText hp, lossy_of_isText hroot]

/-- Paths in Latin-1, which is UTF-8 in ASCII only. -/
def latin (p : Path) : ByteArray := ⟨(p.text.toList.map fun c => UInt8.ofNat c.toNat).toArray⟩

end PackageMap.Path
