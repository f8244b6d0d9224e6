import PackageMap.Proofs.InsertionOrder

/-!
# The size of a map

The bytes of a text are counted as they come, also where a character is cut, and what is counted is
its length in UTF-16 (`countUnits_chunks`). So the size of a map is the length of its JSON text, and
this length alone decides whether a map without a declared entry is dropped
(`FileMap.finalize_size`).
-/

namespace PackageMap

namespace Text

/-! ## Bytes -/

/-- A byte of its own or the first of two or three counts one, the first of four counts two, and the
others count nothing. -/
theorem byteUnits_ofNat {n : Nat} (h : n < 256) :
    byteUnits (UInt8.ofNat n) =
      if n < 128 then 1 else if n < 192 then 0 else if n < 240 then 1 else 2 := by
  have hall : ∀ n : Fin 256, byteUnits (UInt8.ofNat n) =
      if n.val < 128 then 1 else if n.val < 192 then 0 else if n.val < 240 then 1 else 2 := by
    decide +kernel
  exact hall ⟨n, h⟩

theorem byteUnits_following (n : Nat) : byteUnits (UInt8.ofNat (n % 64 + 128)) = 0 := by
  rw [byteUnits_ofNat (by omega), if_neg (by omega), if_pos (by omega)]

theorem countUnits_eq_sum (bytes : List UInt8) :
    countUnits 0 bytes.toByteArray = (bytes.map byteUnits).sum := by
  unfold countUnits
  rw [List.data_toByteArray, ← Array.foldl_toList, List.sum_eq_foldl, List.foldl_map]

/-- The bytes of a character count as many units as it has. -/
theorem sum_utf8EncodeChar (c : Char) :
    ((String.utf8EncodeChar c).map byteUnits).sum = charUnits c := by
  have hv : c.val.toNat = c.toNat := rfl
  unfold String.utf8EncodeChar charUnits
  dsimp only
  rw [hv]
  split
  · next h1 =>
    rw [if_pos (by omega)]
    simp [byteUnits_ofNat (show c.toNat < 256 by omega)]
    omega
  split
  · next h2 =>
    have hlead : byteUnits (UInt8.ofNat (c.toNat / 64 % 32 + 192)) = 1 := by
      rw [byteUnits_ofNat (by omega), if_neg (by omega), if_neg (by omega), if_pos (by omega)]
    rw [if_pos (by omega)]
    simp only [List.map_cons, List.map_nil, List.sum_cons, List.sum_nil, hlead,
      byteUnits_following, Nat.add_zero]
  split
  · next h3 =>
    have hlead : byteUnits (UInt8.ofNat (c.toNat / 4096 % 16 + 224)) = 1 := by
      rw [byteUnits_ofNat (by omega), if_neg (by omega), if_neg (by omega), if_pos (by omega)]
    rw [if_pos (by omega)]
    simp only [List.map_cons, List.map_nil, List.sum_cons, List.sum_nil, hlead,
      byteUnits_following, Nat.add_zero]
  · next h4 =>
    have hlead : byteUnits (UInt8.ofNat (c.toNat / 262144 % 8 + 240)) = 2 := by
      rw [byteUnits_ofNat (by omega), if_neg (by omega), if_neg (by omega), if_neg (by omega)]
    rw [if_neg (by omega)]
    simp only [List.map_cons, List.map_nil, List.sum_cons, List.sum_nil, hlead,
      byteUnits_following, Nat.add_zero]

theorem counted_eq_units (cs : List Char) : counted cs = units cs := by
  induction cs with
  | nil => rfl
  | cons c cs ih =>
    have hc : counted [c] = charUnits c := by
      rw [← sum_utf8EncodeChar, ← countUnits_eq_sum, ← List.utf8Encode_singleton,
        ← String.toByteArray_ofList]
      rfl
    rw [counted_cons, ih, hc, units]

theorem countUnits_toUTF8 (s : String) : countUnits 0 s.toUTF8 = units s.toList := by
  rw [← counted_eq_units, counted, String.ofList_toList]

/-- Chunk by chunk, all of the bytes are counted. -/
theorem foldl_countUnits (n : Nat) (bytes : ByteArray) (chunks : List ByteArray) :
    chunks.foldl countUnits (countUnits n bytes) =
      countUnits n (chunks.foldl (· ++ ·) bytes) := by
  induction chunks generalizing bytes with
  | nil => rfl
  | cons chunk chunks ih => rw [List.foldl_cons, List.foldl_cons, ← countUnits_append, ih]

/-- However the bytes of a text are cut, its length in UTF-16 is counted. -/
theorem countUnits_chunks {s : String} {chunks : List ByteArray}
    (h : chunks.foldl (· ++ ·) ByteArray.empty = s.toUTF8) :
    chunks.foldl countUnits 0 = units s.toList := by
  have hempty : countUnits 0 ByteArray.empty = 0 := rfl
  rw [← countUnits_toUTF8, ← h, ← foldl_countUnits, hempty]

end Text

namespace FileMap

variable {m : FileMap} {caps : Capabilities} {root : Path} {limit : Nat}

theorem size_finalize : (m.finalize caps root limit).size = m.units := by
  rw [finalize_eq]
  split <;> rfl

theorem degraded_iff : (m.finalize caps root limit).outcome = .degraded ↔
    limit < m.units ∧ caps.main = false ∧ caps.module = false ∧ caps.unpkg = false := by
  rw [finalize_eq]
  unfold Capabilities.any
  split
  · next h => simpa [and_assoc] using h
  · next h => simpa using h

theorem files_of_degraded (h : (m.finalize caps root limit).outcome = .degraded) :
    (m.finalize caps root limit).files = [] := by
  rw [finalize_eq] at *
  split
  · rfl
  · next hkept =>
    rw [if_neg hkept] at h
    cases h

/--
However the bytes of a text are cut into chunks, its length in UTF-16 is counted. So the size of a map
is the length of its JSON text, whichever order its records are in, and the map is dropped, without
any files left, if and only if it is longer than the limit and declares none of the entry fields.
-/
theorem finalize_size :
    (∀ (s : String) (chunks : List ByteArray),
      chunks.foldl (· ++ ·) ByteArray.empty = s.toUTF8 →
        chunks.foldl Text.countUnits 0 = Text.units s.toList) ∧
      ∀ (m : FileMap) (caps : Capabilities) (root : Path) (limit : Nat),
        (m.finalize caps root limit).size = Text.units m.json.compactText.toList ∧
        (∀ m' : FileMap, m.records.toList.Perm m'.records.toList →
          (m'.finalize caps root limit).size = (m.finalize caps root limit).size) ∧
        ((m.finalize caps root limit).outcome = .degraded ∧
            (m.finalize caps root limit).files = [] ↔
          limit < Text.units m.json.compactText.toList ∧
            caps.main = false ∧ caps.module = false ∧ caps.unpkg = false) ∧
        ((m.finalize caps root limit).outcome = .degraded →
          (m.finalize caps root limit).files = []) := by
  refine ⟨fun s chunks => Text.countUnits_chunks, fun m caps root limit => ?_⟩
  have hunits : m.units = Text.units m.json.compactText.toList := Text.countUnits_toUTF8 _
  refine ⟨size_finalize.trans hunits, fun m' hperm => ?_, ?_, files_of_degraded⟩
  · rw [size_finalize, size_finalize, units_perm hperm]
  · rw [← hunits, ← degraded_iff]
    exact and_iff_left_of_imp files_of_degraded

/-- Two records, and the same two the other way round. -/
def pair : FileMap := .ofList [.leaf ⟨"/a"⟩ "😀", .leaf ⟨"/b"⟩ "é"]

def pairBack : FileMap := .ofList [.leaf ⟨"/b"⟩ "é", .leaf ⟨"/a"⟩ "😀"]

/-- The bytes of two characters, both of them cut. -/
def cutChunks : List ByteArray := [⟨#[0xF0, 0x9F]⟩, ⟨#[0x98]⟩, ⟨#[0x80, 0xC3]⟩, ⟨#[]⟩, ⟨#[0xA9]⟩]

theorem finalize_size_cut :
    cutChunks.foldl (· ++ ·) ByteArray.empty = "😀é".toUTF8 ∧
      cutChunks.foldl Text.countUnits 0 = 3 ∧
      pair.records.toList.Perm pairBack.records.toList ∧
      (pairBack.finalize ⟨false, false, false⟩ ⟨"/"⟩ 10).size =
        (pair.finalize ⟨false, false, false⟩ ⟨"/"⟩ 10).size ∧
      (pair.finalize ⟨false, false, false⟩ ⟨"/"⟩ 10).outcome = .degraded ∧
      (pair.finalize ⟨false, false, false⟩ ⟨"/"⟩ 10).files = [] := by
  have hcut : cutChunks.foldl (· ++ ·) ByteArray.empty = "😀é".toUTF8 := by decide
  have hperm : pair.records.toList.Perm pairBack.records.toList := by decide
  obtain ⟨hsize, horder, hdropped, hfiles⟩ :=
    finalize_size.2 pair ⟨false, false, false⟩ ⟨"/"⟩ 10
  have hlong : 10 < Text.units pair.json.compactText.toList := by decide
  obtain ⟨hout, -⟩ := hdropped.2 ⟨hlong, rfl, rfl, rfl⟩
  exact ⟨hcut, finalize_size.1 _ _ hcut, hperm, horder _ hperm, hout, hfiles hout⟩

end FileMap

end PackageMap
