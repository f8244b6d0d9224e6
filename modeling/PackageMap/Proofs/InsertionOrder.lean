import Mathlib.Algebra.GroupWithZero.Nat
import PackageMap.Proofs.FinalMap

/-!
# The order of insertion

The order in which records were inserted into a map does not show in what becomes of the map: its
size is a sum over the records, and each key finds its own place among the others.
-/

namespace PackageMap

/-! ## Keys in order -/

/-- Values under two keys are put in either order. -/
theorem Ordered.put_comm {α : Type} {k l : String} (h : k ≠ l) (a b : α)
    (es : List (String × α)) : put k a (put l b es) = put l b (put k a es) := by
  induction es with
  | nil => grind [put]
  | cons e es ih =>
    obtain ⟨m, c⟩ := e
    grind [put]

theorem FinalMap.keyed_perm {root : Path} {rs rs' : List FileRecord} (h : rs.Perm rs')
    (hk : (rs.map fun r => r.path.relativize root).Nodup) : keyed root rs = keyed root rs' := by
  refine h.foldl_eq' (fun r hr s hs es => ?_) []
  by_cases heq : r = s
  · rw [heq]
  · refine Ordered.put_comm (fun hkey => heq ?_) s r es
    exact List.inj_on_of_nodup_map hk hr hs hkey.symm

/-! ## Code units -/

namespace Text

theorem countUnits_eq (n : Nat) (chunk : ByteArray) :
    countUnits n chunk = n + countUnits 0 chunk := by
  unfold countUnits
  rw [← Array.foldl_toList, ← Array.foldl_toList]
  generalize chunk.data.toList = bytes
  induction bytes generalizing n with
  | nil => rfl
  | cons b bytes ih =>
    rw [List.foldl_cons, List.foldl_cons, ih, ih (0 + byteUnits b)]
    omega

theorem countUnits_append (n : Nat) (chunk rest : ByteArray) :
    countUnits n (chunk ++ rest) = countUnits (countUnits n chunk) rest := by
  unfold countUnits
  rw [ByteArray.data_append, Array.foldl_append]

/-- The code units that are counted off the bytes of a text. -/
def counted (cs : List Char) : Nat := countUnits 0 (String.ofList cs).toUTF8

@[simp] theorem counted_append (cs ds : List Char) :
    counted (cs ++ ds) = counted cs + counted ds := by
  have hbytes : (String.ofList (cs ++ ds)).toUTF8 =
      (String.ofList cs).toUTF8 ++ (String.ofList ds).toUTF8 := by
    rw [String.ofList_append]
    exact String.toByteArray_append
  unfold counted
  rw [hbytes, countUnits_append, countUnits_eq]

theorem counted_cons (c : Char) (cs : List Char) : counted (c :: cs) = counted [c] + counted cs :=
  counted_append [c] cs

end Text

open Text

namespace Json

/-- The text of a member of an object. -/
def compactMember (m : String × Json) : List Char := quote m.1 ++ ':' :: compact m.2

/-- The members of an object are counted one by one, with a comma between any two of them. -/
theorem counted_compactMembers (ms : List (String × Json)) :
    counted (compactMembers ms) =
      (ms.map fun m => counted (compactMember m)).sum + (ms.length - 1) := by
  have hcomma : counted [','] = 1 := by decide
  induction ms with
  | nil => decide
  | cons m ms ih =>
    cases ms with
    | nil => simp [compactMembers, compactMember]
    | cons m' ms =>
      have hcons : compactMembers (m :: m' :: ms) =
          compactMember m ++ ',' :: compactMembers (m' :: ms) := by
        simp [compactMembers, compactMember]
      rw [hcons, counted_append, counted_cons, hcomma, ih]
      simp only [List.map_cons, List.sum_cons, List.length_cons]
      omega

theorem counted_object (ms : List (String × Json)) :
    counted (compact (.object ms)) =
      (ms.map fun m => counted (compactMember m)).sum + (ms.length - 1) + 2 := by
  have hopen : counted ['\x7b'] = 1 := by decide
  have hclose : counted ['\x7d'] = 1 := by decide
  rw [compact, counted_cons, counted_append, counted_compactMembers, hopen, hclose]
  omega

end Json

/-! ## Maps -/

variable {m m' : FileMap}

/-- The size of a map is that of its records, whichever came first. -/
theorem FileMap.units_perm (h : m.records.toList.Perm m'.records.toList) : m.units = m'.units := by
  have hunits (m : FileMap) : m.units = counted m.json.compact := rfl
  rw [hunits, hunits, FileMap.json_eq, FileMap.json_eq, Json.counted_object, Json.counted_object,
    List.map_map, List.map_map, List.length_map, List.length_map, (h.map _).sum_nat, h.length_eq]

/-- Records with keys of their own make one final map, whichever came first. -/
theorem FileMap.finalize_perm (caps : Capabilities) {root : Path} (limit : Nat)
    (h : m.records.toList.Perm m'.records.toList)
    (hk : (m.records.toList.map fun r => r.path.relativize root).Nodup) :
    m.finalize caps root limit = m'.finalize caps root limit := by
  rw [finalize_eq, finalize_eq, FileMap.units_perm h, FinalMap.keyed_perm h hk]

end PackageMap
