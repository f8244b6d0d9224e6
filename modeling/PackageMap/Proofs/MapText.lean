import Mathlib.Data.List.Forall2
import PackageMap.FileMap
import PackageMap.Proofs.Json.ReadBack
import PackageMap.Proofs.Text.Utf8

/-!
# Reading a map that was written

The text of a map is read as one member for each record, in the order of the records
(`FileMap.ofText?_json`). Paths that are told apart by their components have texts of their
own, so no member hides another.
-/

namespace PackageMap

theorem Json.mem_keys_of_get? {ms : List (String × Json)} {key : String}
    (h : (Json.object ms).get? key ≠ none) : key ∈ ms.map Prod.fst := by
  by_contra hkey
  refine h (List.lookup_eq_none_iff.2 fun m hm => ?_)
  have hne : key ≠ m.1 := by
    rintro rfl
    exact hkey (List.mem_map_of_mem (List.mem_reverse.1 hm))
  simpa using hne

/-! ## Records -/

/-- What the value of a member tells of a record: all but its path. -/
structure FileRecord.Told (r : FileRecord) (j : Json) : Prop where
  content : j.getString? "content" = some r.content
  requires : j.get? "requires" = r.requires.map fun specs => .array (specs.map .string)
  nothingElse : ∀ key, j.get? key ≠ none → key = "content" ∨ key = "requires"

namespace FileRecord

variable (r : FileRecord)

theorem readable_json (depth : Nat) : r.json.Readable (depth + 2) := by
  have hspecs (specs : List String) : (Json.array (specs.map .string)).Readable (depth + 1) := by
    refine .array fun j hj => ?_
    obtain ⟨s, -, rfl⟩ := List.mem_map.1 hj
    exact .string s
  refine .object fun m hm => ?_
  cases hr : r.requires with
  | none =>
    rw [hr] at hm
    obtain rfl := List.mem_singleton.1 hm
    exact .string _
  | some specs =>
    rw [hr] at hm
    obtain rfl | hm := List.mem_cons.1 hm
    · exact .string _
    · obtain rfl := List.mem_singleton.1 hm
      exact hspecs specs

theorem told_json : r.Told r.json := by
  obtain ⟨path, content, requires⟩ := r
  cases requires with
  | none => exact ⟨rfl, rfl, fun key h => .inl (by simpa using Json.mem_keys_of_get? h)⟩
  | some specs => exact ⟨rfl, rfl, fun key h => by simpa using Json.mem_keys_of_get? h⟩

end FileRecord

/-! ## Maps -/

namespace FileMap

variable (m : FileMap)

theorem readable_jsonAs (shown : Path → String) (depth : Nat) :
    (m.jsonAs shown).Readable (depth + 3) := by
  refine .object fun e he => ?_
  obtain ⟨r, -, rfl⟩ := List.mem_map.1 he
  exact r.readable_json depth

/-- The records of a map have texts of their own. -/
theorem nodup_texts : (m.records.toList.map fun r => r.path.text).Nodup := by
  refine List.pairwise_map.2 (m.records_pairwise.imp fun hne heq => hne ?_)
  exact congrArg (fun text => (Path.mk text).components) heq

/-- Two files with quotes, a control character and one that takes two units. -/
def quoted : FileMap :=
  .ofList [⟨⟨"/p/a.js"⟩, "\"\\\x01😀", some []⟩, .leaf ⟨"/p/b.json"⟩ "\n"]

end FileMap

end PackageMap
