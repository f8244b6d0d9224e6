import PackageMap.Json.Write
import PackageMap.Path.Table
import PackageMap.Text.Units

/-!
# File maps

A file map holds the records of files in the order of their insertion, at most one for each path.
A table from paths to places finds a record by its path.
-/

namespace PackageMap

/-- A file that a map holds. -/
structure FileRecord where
  path : Path
  content : String
  /-- The specifiers in the file, in order; leaves have none. -/
  requires : Option (List String)
deriving DecidableEq, Repr, Inhabited

namespace FileRecord

def leaf (path : Path) (content : String) : FileRecord := ⟨path, content, none⟩

/-- The record without its path. -/
def json (r : FileRecord) : Json :=
  .object (("content", .string r.content) ::
    match r.requires with
    | none => []
    | some specs => [("requires", .array (specs.map .string))])

end FileRecord

structure FileMap where
  records : Array FileRecord
  /-- The place of each record under its path. -/
  ids : PathTable Nat
  indexed : ids.toList = records.toList.zipIdx.map fun e => (e.1.path, e.2)

namespace FileMap

def empty : FileMap := ⟨#[], .empty, rfl⟩

def size (m : FileMap) : Nat := m.records.size

def contains (m : FileMap) (p : Path) : Bool := m.ids.contains p

theorem indexed_put {m : FileMap} {r : FileRecord} (h : m.contains r.path = false) :
    (m.ids.put r.path m.records.size).toList =
      (m.records.push r).toList.zipIdx.map fun e => (e.1.path, e.2) := by
  rw [PathTable.toList_put _ h, m.indexed, Array.toList_push, List.zipIdx_append, List.map_append,
    List.zipIdx_singleton, Array.length_toList, Nat.zero_add]
  rfl

/-- Add a record at the end, unless its path is taken. -/
def insert (m : FileMap) (r : FileRecord) : FileMap :=
  if h : m.contains r.path = true then m
  else
    { records := m.records.push r
      ids := m.ids.put r.path m.records.size
      indexed := indexed_put (eq_false_of_ne_true h) }

/-- The place that `insert` puts a record at, if it adds it. -/
def insertId? (m : FileMap) (r : FileRecord) : Option Nat :=
  if m.contains r.path then none else some m.records.size

def get? (m : FileMap) (id : Nat) : Option FileRecord := m.records[id]?

def getByPath? (m : FileMap) (p : Path) : Option FileRecord := (m.ids.get? p).bind m.get?

def ofList (rs : List FileRecord) : FileMap := rs.foldl insert empty

theorem insert_of_contains {m : FileMap} {r : FileRecord} (h : m.contains r.path = true) :
    m.insert r = m := by
  unfold insert; rw [dif_pos h]

theorem records_insert {m : FileMap} {r : FileRecord} (h : m.contains r.path = false) :
    (m.insert r).records = m.records.push r := by
  unfold insert; rw [dif_neg (by simp [h])]

theorem ids_insert {m : FileMap} {r : FileRecord} (h : m.contains r.path = false) :
    (m.insert r).ids = m.ids.put r.path m.records.size := by
  unfold insert; rw [dif_neg (by simp [h])]

theorem eq_or_mem_of_mem_insert {m : FileMap} {r s : FileRecord}
    (h : s ∈ (m.insert r).records.toList) : s = r ∨ s ∈ m.records.toList := by
  cases hc : m.contains r.path with
  | true =>
    rw [insert_of_contains hc] at h
    exact .inr h
  | false =>
    rw [records_insert hc, Array.toList_push] at h
    exact (List.mem_append.1 h).symm.imp_left List.mem_singleton.1

/-- The paths of a map are those of its records, in order. -/
theorem keys_ids (m : FileMap) : m.ids.keys = m.records.toList.map FileRecord.path := by
  unfold PathTable.keys
  rw [m.indexed, List.map_map,
    show Prod.fst ∘ (fun e : FileRecord × Nat => (e.1.path, e.2)) = FileRecord.path ∘ Prod.fst
      from rfl, ← List.map_map, List.zipIdx_map_fst]

theorem contains_iff (m : FileMap) (p : Path) :
    m.contains p = true ↔ ∃ r ∈ m.records.toList, r.path.Same p := by
  unfold contains
  rw [PathTable.contains_iff, keys_ids]
  constructor
  · rintro ⟨_, hq, hs⟩
    obtain ⟨r, hr, rfl⟩ := List.mem_map.1 hq
    exact ⟨r, hr, hs⟩
  · rintro ⟨r, hr, hs⟩
    exact ⟨r.path, List.mem_map_of_mem hr, hs⟩

/-- No two records of a map have the same path. -/
theorem records_pairwise (m : FileMap) :
    m.records.toList.Pairwise fun r s => ¬ r.path.Same s.path := by
  have h := m.ids.keys_pairwise
  rw [keys_ids] at h
  exact List.pairwise_map.1 h

theorem contains_insert (m : FileMap) (r : FileRecord) (p : Path) :
    (m.insert r).contains p = (m.contains p || decide (r.path.Same p)) := by
  cases h : m.contains r.path with
  | true =>
    rw [insert_of_contains h]
    by_cases hs : r.path.Same p
    · unfold contains PathTable.contains at *
      rw [← PathTable.get?_of_same _ hs, h]; rfl
    · simp [hs]
  | false =>
    unfold contains PathTable.contains
    rw [ids_insert h]
    simp only [PathTable.get?_put]
    by_cases hs : r.path.Same p <;> simp [hs]

/-- The map as an object from what is shown of the paths to the records. -/
def jsonAs (shown : Path → String) (m : FileMap) : Json :=
  .object (m.records.toList.map fun r => (shown r.path, r.json))

/-- The map as an object from paths to records. -/
def json (m : FileMap) : Json := m.jsonAs Path.text

theorem json_eq (m : FileMap) :
    m.json = .object (m.records.toList.map fun r => (r.path.text, r.json)) := rfl

/-- The length of the map's JSON text in UTF-16 code units. -/
def unitsAs (shown : Path → String) (m : FileMap) : Nat :=
  Text.countUnits 0 (m.jsonAs shown).compactText.toUTF8

def units (m : FileMap) : Nat := m.unitsAs Path.text

end FileMap

end PackageMap
