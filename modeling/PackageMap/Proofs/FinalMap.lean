import Mathlib.Data.List.Nodup
import PackageMap.FinalMap

/-!
# What a finished map keeps

Keys below the root are shortened and all others are kept as they are, so a record below the root
may get the key of one that is not. `finalize_keeps_iff`: a map that is kept has all its records if
and only if this happens to no two of them.
-/

namespace PackageMap

namespace Path

/-- The text of `p` after the root's is the whole text of `q`, which does not lie below the root. -/
def Shadows (root p q : Path) : Prop :=
  Below root p ∧ ¬ Below root q ∧ p.text.toList = rootText root ++ q.text.toList

instance (root p q : Path) : Decidable (Shadows root p q) := by unfold Shadows; infer_instance

/-- Two paths below the root with one key are written alike. -/
theorem text_eq_of_below {root p q : Path} (hp : Below root p) (hq : Below root q)
    (h : p.relativize root = q.relativize root) : p.text = q.text := by
  obtain ⟨rest, hp, hs⟩ := hp
  obtain ⟨rest', hq, hs'⟩ := hq
  rw [relativize_of_eq_append hp hs, relativize_of_eq_append hq hs'] at h
  have hrest : rest = rest' := by simpa using congrArg String.toList h
  exact String.toList_inj.1 (by rw [hp, hq, hrest])

theorem shadows_of_below {root p q : Path} (hp : Below root p) (hq : ¬ Below root q)
    (h : p.relativize root = q.relativize root) : Shadows root p q := by
  refine ⟨hp, hq, ?_⟩
  obtain ⟨rest, hp, hs⟩ := hp
  rw [relativize_of_eq_append hp hs, relativize_of_not_below hq] at h
  rw [hp, ← h, String.toList_ofList]

theorem Shadows.relativize_eq {root p q : Path} (h : Shadows root p q) :
    p.relativize root = q.relativize root := by
  obtain ⟨⟨rest, hp, hs⟩, hq, htext⟩ := h
  have hrest : rest = q.text.toList := List.append_cancel_left (hp.symm.trans htext)
  rw [relativize_of_eq_append hp hs, relativize_of_not_below hq, hrest, String.ofList_toList]

/-- Paths that are written differently have one key only if one of them shadows the other. -/
theorem relativize_eq_iff {root p q : Path} :
    p.relativize root = q.relativize root ↔
      p.text = q.text ∨ Shadows root p q ∨ Shadows root q p := by
  constructor
  · intro h
    by_cases hp : Below root p <;> by_cases hq : Below root q
    · exact .inl (text_eq_of_below hp hq h)
    · exact .inr (.inl (shadows_of_below hp hq h))
    · exact .inr (.inr (shadows_of_below hq hp h.symm))
    · rw [relativize_of_not_below hp, relativize_of_not_below hq] at h
      exact .inl h
  · rintro (h | h | h)
    · unfold relativize; rw [h]
    · exact h.relativize_eq
    · exact h.relativize_eq.symm

end Path

namespace FinalMap

/-! ## Records under keys -/

section Put

variable {key : FileRecord → String}

theorem lookup_foldl_put_of_not_mem {k : String} {rs : List FileRecord}
    {es : List (String × FileRecord)} (h : k ∉ rs.map key) :
    (rs.foldl (fun es r => Ordered.put (key r) r es) es).lookup k = es.lookup k := by
  induction rs generalizing es with
  | nil => rfl
  | cons r rs ih =>
    rw [List.map_cons, List.mem_cons, not_or] at h
    rw [List.foldl_cons, ih h.2, Ordered.lookup_put, if_neg h.1]

theorem lookup_foldl_put {r : FileRecord} {rs : List FileRecord} {es : List (String × FileRecord)}
    (hk : (rs.map key).Nodup) (hr : r ∈ rs) :
    (rs.foldl (fun es r => Ordered.put (key r) r es) es).lookup (key r) = some r := by
  induction rs generalizing es with
  | nil => cases hr
  | cons s rs ih =>
    obtain ⟨hs, hrs⟩ := List.nodup_cons.1 hk
    rw [List.foldl_cons]
    rcases List.mem_cons.1 hr with rfl | hr
    · rw [lookup_foldl_put_of_not_mem hs, Ordered.lookup_put, if_pos rfl]
    · exact ih hrs hr

theorem length_foldl_put {rs : List FileRecord} {es : List (String × FileRecord)}
    (hk : (rs.map key).Nodup) (hes : ∀ r ∈ rs, key r ∉ es.map Prod.fst) :
    (rs.foldl (fun es r => Ordered.put (key r) r es) es).length = es.length + rs.length := by
  induction rs generalizing es with
  | nil => rfl
  | cons s rs ih =>
    obtain ⟨hs, hrs⟩ := List.nodup_cons.1 hk
    rw [List.foldl_cons, ih hrs, Ordered.length_put (hes s List.mem_cons_self), List.length_cons]
    · omega
    · intro r hr hm
      rcases Ordered.mem_keys_put.1 hm with he | hm
      · exact hs (he ▸ List.mem_map_of_mem hr)
      · exact hes r (List.mem_cons_of_mem _ hr) hm

end Put

theorem mem_of_mem_keyed {root : Path} {rs : List FileRecord} {e : String × FileRecord}
    (h : e ∈ keyed root rs) : e.2 ∈ rs := by
  have hput (es : List (String × FileRecord)) (rs : List FileRecord)
      (h : e ∈ rs.foldl (fun es r => Ordered.put (r.path.relativize root) r es) es) :
      e ∈ es ∨ e.2 ∈ rs := by
    induction rs generalizing es with
    | nil => exact .inl h
    | cons r rs ih =>
      rcases ih _ h with h | h
      · rcases Ordered.eq_or_mem_of_mem_put h with rfl | h
        · exact .inr List.mem_cons_self
        · exact .inl h
      · exact .inr (List.mem_cons_of_mem r h)
  exact (hput [] rs h).resolve_left List.not_mem_nil

/-! ## What is kept -/

/-- There are as many files as records, and each record is the file under its own key. -/
def Keeps (root : Path) (m : FileMap) (files : List (String × FileRecord)) : Prop :=
  files.length = m.size ∧
    ∀ r ∈ m.records.toList, files.lookup (r.path.relativize root) = some r

instance (root : Path) (m : FileMap) (files : List (String × FileRecord)) :
    Decidable (Keeps root m files) := by unfold Keeps; infer_instance

theorem keeps_keyed {root : Path} {m : FileMap}
    (hk : (m.records.toList.map fun r => r.path.relativize root).Nodup) :
    Keeps root m (keyed root m.records.toList) := by
  refine ⟨?_, fun r hr => lookup_foldl_put hk hr⟩
  rw [keyed_eq, length_foldl_put hk fun r _ => List.not_mem_nil, List.length_nil, Nat.zero_add]
  rfl

theorem nodup_of_keeps {root : Path} {m : FileMap} {files : List (String × FileRecord)}
    (h : Keeps root m files) : (m.records.toList.map fun r => r.path.relativize root).Nodup := by
  refine List.pairwise_map.2 (m.records_pairwise.imp_of_mem ?_)
  intro r s hr hs hne hkey
  have hrs : some r = some s := by rw [← h.2 r hr, ← h.2 s hs, hkey]
  cases hrs
  exact hne (.refl _)

theorem nodup_keys_iff {root : Path} {m : FileMap} :
    (m.records.toList.map fun r => r.path.relativize root).Nodup ↔
      ∀ r ∈ m.records.toList, ∀ s ∈ m.records.toList, ¬ Path.Shadows root r.path s.path := by
  constructor
  · intro hk r hr s hs hsh
    have hrs : r = s := List.inj_on_of_nodup_map hk hr hs hsh.relativize_eq
    subst hrs
    exact hsh.2.1 hsh.1
  · intro h
    refine List.pairwise_map.2 (m.records_pairwise.imp_of_mem ?_)
    intro r s hr hs hne hkey
    rcases Path.relativize_eq_iff.1 hkey with ht | hsh | hsh
    · exact hne (congrArg (fun t => Path.components ⟨t⟩) ht)
    · exact h r hr s hs hsh
    · exact h s hs r hr hsh

end FinalMap

/-- A map comes to the same where its paths and the root are shown as they are written. -/
theorem FileMap.finalizeAs_of_shown {shown : Path → String} {m : FileMap} {root : Path}
    (caps : Capabilities) (limit : Nat) (hroot : shown root = root.text)
    (h : ∀ r ∈ m.records.toList, shown r.path = r.path.text) :
    m.finalizeAs shown caps root limit = m.finalize caps root limit := by
  have hjson : m.jsonAs shown = m.json :=
    congrArg Json.object (List.map_congr_left fun r hr => by rw [h r hr])
  have hunits : m.unitsAs shown = m.units := by
    unfold units unitsAs
    rw [hjson]
    rfl
  have hkeyed : FinalMap.keyedAs shown root m.records.toList =
      FinalMap.keyed root m.records.toList := by
    unfold FinalMap.keyed FinalMap.keyedAs Path.relativizeAs
    exact List.foldl_ext _ _ _ fun files r hr => by rw [h r hr, hroot]
  rw [finalize_eq]
  unfold finalizeAs
  rw [hunits, hkeyed]

/-- The size does not matter to a package that declares an entry. -/
theorem FileMap.outcome_of_any {m : FileMap} {caps : Capabilities} {root : Path} {limit : Nat}
    (h : caps.any) : (m.finalize caps root limit).outcome = .kept := by
  rw [finalize_eq, if_neg fun hdrop => hdrop.2 h]

theorem FileMap.files_of_kept {m : FileMap} {caps : Capabilities} {root : Path} {limit : Nat}
    (h : (m.finalize caps root limit).outcome = .kept) :
    (m.finalize caps root limit).files = FinalMap.keyed root m.records.toList := by
  rw [finalize_eq] at *
  split
  · next hdrop => rw [if_pos hdrop] at h; cases h
  · rfl

theorem FileMap.mem_of_mem_files {m : FileMap} {caps : Capabilities} {root : Path} {limit : Nat}
    {e : String × FileRecord} (h : e ∈ (m.finalize caps root limit).files) :
    e.2 ∈ m.records.toList := by
  rw [finalize_eq] at h
  split at h
  · cases h
  · exact FinalMap.mem_of_mem_keyed h

/-- A map that is kept has each of its records under its key, and nothing else, if and only if no
record shadows another. -/
theorem FileMap.finalize_keeps_iff {m : FileMap} {caps : Capabilities} {root : Path} {limit : Nat}
    (h : (m.finalize caps root limit).outcome = .kept) :
    FinalMap.Keeps root m (m.finalize caps root limit).files ↔
      ∀ r ∈ m.records.toList, ∀ s ∈ m.records.toList, ¬ Path.Shadows root r.path s.path := by
  rw [files_of_kept h, ← FinalMap.nodup_keys_iff]
  exact ⟨FinalMap.nodup_of_keeps, FinalMap.keeps_keyed⟩

/-- A project's file, and a file at the root of the file system with the same key. -/
def FileMap.shadowing : FileMap := .ofList [.leaf ⟨"/proj/a.js"⟩ "1", .leaf ⟨"/a.js"⟩ "2"]

/-- Records inside and outside the project, one of them in a directory whose name goes on. -/
def FileMap.apart : FileMap :=
  .ofList [.leaf ⟨"/proj/a.js"⟩ "1", .leaf ⟨"/b.js"⟩ "2", .leaf ⟨"/project/a.js"⟩ "3"]

theorem FileMap.finalize_keeps_apart :
    (apart.finalize ⟨true, false, false⟩ ⟨"/proj"⟩ 8388608).outcome = .kept ∧
      FinalMap.Keeps ⟨"/proj"⟩ apart
        (apart.finalize ⟨true, false, false⟩ ⟨"/proj"⟩ 8388608).files :=
  ⟨outcome_of_any rfl, (finalize_keeps_iff (outcome_of_any rfl)).2 (by decide)⟩

/-- Of two records with one key only the later is left. -/
theorem FileMap.finalize_merges :
    (shadowing.finalize ⟨true, false, false⟩ ⟨"/proj"⟩ 8388608).outcome = .kept ∧
      ¬ FinalMap.Keeps ⟨"/proj"⟩ shadowing
        (shadowing.finalize ⟨true, false, false⟩ ⟨"/proj"⟩ 8388608).files := by
  refine ⟨outcome_of_any rfl, ?_⟩
  rw [files_of_kept (outcome_of_any rfl)]
  decide

end PackageMap
