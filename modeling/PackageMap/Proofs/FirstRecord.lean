import Mathlib.Data.List.Basic
import Mathlib.Data.List.Induction
import PackageMap.FileMap

/-!
# The first record of a path

A map that records are inserted into one after another keeps the first record of each path at the
place where it was put, whatever is inserted later (`ofList_keeps_first`). The table and the records
stay in step: where the table leads is where the record of the path is.
-/

namespace PackageMap

/-- What a table gives for a path stands in its list under the same path. -/
theorem PathTable.get?_eq_find? {α : Type} (t : PathTable α) (p : Path) :
    t.get? p = (t.toList.find? fun e => decide (e.1.Same p)).map Prod.snd := by
  obtain ⟨entries, keyed, nodup⟩ := t
  unfold get? toList
  dsimp only
  clear nodup
  induction entries with
  | nil => rfl
  | cons e entries ih =>
    obtain ⟨k, q, a⟩ := e
    obtain ⟨hk, hkeyed⟩ := List.forall_mem_cons.1 keyed
    rw [lookup_cons_key, List.map_cons, show k = q.components from hk]
    by_cases hs : q.Same p
    · rw [if_pos (Eq.symm hs), List.find?_cons_of_pos (by simpa using hs)]
    · rw [if_neg fun h => hs (Eq.symm h), List.find?_cons_of_neg (by simpa using hs), ih hkeyed]

namespace FileMap

variable {m : FileMap} {rs : List FileRecord} {r : FileRecord} {p : Path} {id : Nat}

/-! ## Table and records -/

/-- The table and the records of a map are one association of paths with records. -/
structure InStep (m : FileMap) : Prop where
  /-- No two entries of the table are for the same path. -/
  distinct : m.ids.keys.Pairwise fun p q => ¬ p.Same q
  /-- An entry leads to the record that is stored under its path. -/
  stored : ∀ e ∈ m.ids.toList, ∃ r, m.get? e.2 = some r ∧ r.path.Same e.1
  /-- A record has one entry. -/
  listed : ∀ id r, m.get? id = some r → ∀ e, e ∈ m.ids.toList ∧ e.2 = id ↔ e = (r.path, id)
  /-- Where the table leads there is a record, and it has the path that was asked for. -/
  inRange : ∀ p id, m.ids.get? p = some id → ∃ r, m.get? id = some r ∧ r.path.Same p

theorem mem_toList_ids_iff {e : Path × Nat} :
    e ∈ m.ids.toList ↔ ∃ r, m.get? e.2 = some r ∧ r.path = e.1 := by
  rw [m.indexed, List.mem_map]
  constructor
  · rintro ⟨⟨r, id⟩, hr, rfl⟩
    exact ⟨r, by simpa [get?] using List.mem_zipIdx_iff_getElem?.1 hr, rfl⟩
  · rintro ⟨r, hr, hpath⟩
    exact ⟨(r, e.2), List.mem_zipIdx_iff_getElem?.2 (by simpa [get?] using hr), Prod.ext hpath rfl⟩

theorem inStep (m : FileMap) : m.InStep where
  distinct := m.ids.keys_pairwise
  stored e he := by
    obtain ⟨r, hr, hpath⟩ := mem_toList_ids_iff.1 he
    exact ⟨r, hr, congrArg Path.components hpath⟩
  listed id r hr e := by
    rw [mem_toList_ids_iff]
    constructor
    · rintro ⟨⟨s, hs, hpath⟩, rfl⟩
      obtain rfl := Option.some.inj (hr.symm.trans hs)
      exact Prod.ext hpath.symm rfl
    · rintro rfl
      exact ⟨⟨r, hr, rfl⟩, rfl⟩
  inRange p id h := by
    rw [PathTable.get?_eq_find?] at h
    obtain ⟨e, he, rfl⟩ := Option.map_eq_some_iff.1 h
    obtain ⟨r, hr, hpath⟩ := mem_toList_ids_iff.1 (List.mem_of_find?_eq_some he)
    have hsame : e.1.Same p := by simpa using List.find?_some he
    exact ⟨r, hr, hpath ▸ hsame⟩

/-- The record that is found under a path is the first one that has it. -/
theorem getByPath?_eq_find? (m : FileMap) (p : Path) :
    m.getByPath? p = m.records.toList.find? fun r => decide (r.path.Same p) := by
  have hrecords : m.records.toList = m.records.toList.zipIdx.map Prod.fst :=
    (List.zipIdx_map_fst 0 _).symm
  unfold getByPath?
  rw [PathTable.get?_eq_find?, m.indexed, List.find?_map, hrecords, List.find?_map, ← hrecords]
  show (Option.map Prod.snd (Option.map _
      (m.records.toList.zipIdx.find? fun e => decide (e.1.path.Same p)))).bind m.get? =
    (m.records.toList.zipIdx.find? fun e => decide (e.1.path.Same p)).map Prod.fst
  cases hfind : m.records.toList.zipIdx.find? fun e => decide (e.1.path.Same p) with
  | none => rfl
  | some e =>
    have hmem := List.mem_zipIdx_iff_getElem?.1 (List.mem_of_find?_eq_some hfind)
    simpa [get?] using hmem

/-! ## Inserting one after another -/

theorem ofList_concat (rs : List FileRecord) (r : FileRecord) :
    ofList (rs ++ [r]) = (ofList rs).insert r :=
  List.foldl_concat insert empty r rs

/-- A record is added at the end, if its path is not taken. -/
theorem records_insert_eq (m : FileMap) (r : FileRecord) : (m.insert r).records.toList =
    m.records.toList ++ if m.contains r.path then [] else [r] := by
  cases h : m.contains r.path with
  | true => rw [insert_of_contains h, if_pos rfl, List.append_nil]
  | false => rw [records_insert h, Array.toList_push, if_neg Bool.false_ne_true]

theorem toList_ids_insert (m : FileMap) (r : FileRecord) : (m.insert r).ids.toList =
    m.ids.toList ++ if m.contains r.path then [] else [(r.path, m.size)] := by
  cases h : m.contains r.path with
  | true => rw [insert_of_contains h, if_pos rfl, List.append_nil]
  | false => rw [ids_insert h, PathTable.toList_put _ h, if_neg Bool.false_ne_true]; rfl

/-- The paths of a map are those that records were inserted under. -/
theorem contains_ofList (rs : List FileRecord) (p : Path) :
    (ofList rs).contains p = true ↔ ∃ r ∈ rs, r.path.Same p := by
  induction rs using List.reverseRecOn with
  | nil => exact iff_of_false Bool.false_ne_true nofun
  | append_singleton rs r ih =>
    rw [ofList_concat, contains_insert, Bool.or_eq_true, ih, decide_eq_true_iff, or_comm]
    simp only [List.mem_append, List.mem_singleton, or_and_right, exists_or, exists_eq_left]
    exact or_comm

/-- Of the records that were inserted the first one of a path is found. -/
theorem find?_records_ofList (rs : List FileRecord) (p : Path) :
    ((ofList rs).records.toList.find? fun r => decide (r.path.Same p)) =
      rs.find? fun r => decide (r.path.Same p) := by
  induction rs using List.reverseRecOn with
  | nil => rfl
  | append_singleton rs r ih =>
    rw [ofList_concat, records_insert_eq, List.find?_append, List.find?_append, ih]
    split
    · next hc =>
      -- a record whose path is taken is not the first one of any path
      obtain ⟨s, hs, hsame⟩ := (contains_ofList rs r.path).1 hc
      by_cases hr : r.path.Same p
      · have hsome : (rs.find? fun r => decide (r.path.Same p)).isSome :=
          List.find?_isSome.2 ⟨s, hs, decide_eq_true (hsame.trans hr)⟩
        rw [Option.or_of_isSome hsome, Option.or_of_isSome hsome]
      · rw [List.find?_cons_of_neg (by simpa using hr)]
    · rfl

theorem records_prefix (rs rs' : List FileRecord) :
    (ofList rs).records.toList <+: (ofList (rs ++ rs')).records.toList := by
  induction rs' using List.reverseRecOn with
  | nil => simp
  | append_singleton rs' r ih =>
    rw [← List.append_assoc, ofList_concat, records_insert_eq]
    exact ih.trans (List.prefix_append _ _)

theorem toList_ids_prefix (rs rs' : List FileRecord) :
    (ofList rs).ids.toList <+: (ofList (rs ++ rs')).ids.toList := by
  induction rs' using List.reverseRecOn with
  | nil => simp
  | append_singleton rs' r ih =>
    rw [← List.append_assoc, ofList_concat, toList_ids_insert]
    exact ih.trans (List.prefix_append _ _)

/--
Whatever was inserted into an empty map, one record after another: the table and the records are in
step; another record is added at the end if none before it has its path, under the length of the
map as its place, and else changes nothing; what was added stays at its place whatever is inserted
later; and under a path the first record is found that was inserted with it.
-/
theorem ofList_keeps_first (rs rs' : List FileRecord) (r : FileRecord) (p : Path) :
    (ofList rs).InStep ∧
      ((ofList rs).insertId? r =
        if ∃ s ∈ rs, s.path.Same r.path then none else some (ofList rs).size) ∧
      ((ofList rs).insert r).records.toList = (ofList rs).records.toList ++
        (if ∃ s ∈ rs, s.path.Same r.path then [] else [r]) ∧
      ((ofList rs).insertId? r = none → (ofList rs).insert r = ofList rs) ∧
      (ofList rs).records.toList <+: (ofList (rs ++ rs')).records.toList ∧
      (ofList rs).ids.toList <+: (ofList (rs ++ rs')).ids.toList ∧
      (ofList rs).getByPath? p = rs.find? (fun s => decide (s.path.Same p)) := by
  have hcontains := contains_ofList rs r.path
  refine ⟨inStep _, ?_, ?_, ?_, records_prefix rs rs', toList_ids_prefix rs rs', ?_⟩
  · unfold insertId?
    simp only [hcontains]
    rfl
  · rw [records_insert_eq]
    simp only [hcontains]
  · unfold insertId?
    intro h
    split at h
    · next hc => exact insert_of_contains hc
    · cases h
  · rw [getByPath?_eq_find?, find?_records_ofList]

example : (ofList [.leaf ⟨"/p/a.js"⟩ "1", .leaf ⟨"/p//./a.js"⟩ "2"]).getByPath? ⟨"/p/a.js/"⟩ =
    some (.leaf ⟨"/p/a.js"⟩ "1") := by decide

end FileMap

end PackageMap
