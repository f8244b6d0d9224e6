import PackageMap.Proofs.Tree.Unlinked

/-!
# Below a directory

What a path leads to does not depend on how long its text is: the length counts only where the path
is looked up. So from a path of a directory one comes by names to all that lies below it, links on
the way to the directory or not, and there are no more names on such a way than entries in the tree.
-/

namespace PackageMap.Tree

variable {t : Tree} {p : Path} {loc : Location} {names : List Name} {n : Name} {e : Entry}

/-! ## Paths of any length -/

/-- The path leads to the location, however long its text is. -/
structure Reaches (t : Tree) (p : Path) (loc : Location) : Prop where
  empty : emptyError? p = none
  leads : Leads t .direct linkLimit (t.startOf p) (stepsOf p.text) loc

theorem textError?_eq_none_iff_size :
    textError? p = none ↔ p.text.utf8ByteSize < pathLimit ∧ emptyError? p = none := by
  unfold textError?
  cases emptyError? p with
  | some e => simp
  | none => simp

theorem locate_eq_ok_iff_reaches :
    t.locate p = .ok loc ↔ p.text.utf8ByteSize < pathLimit ∧ t.Reaches p loc := by
  rw [locate_eq_ok_iff, textError?_eq_none_iff_size, and_assoc]
  exact and_congr_right fun _ => ⟨fun ⟨hempty, hleads⟩ => ⟨hempty, hleads⟩,
    fun h => ⟨h.empty, h.leads⟩⟩

namespace Reaches

theorem canonical (h : t.Reaches p loc) :
    t.canonical p = .ok loc ∨ t.canonical p = .error .nameTooLong := by
  unfold Tree.canonical
  rw [h.empty]
  exact h.leads.written

/-- From a path of a directory one name more leads to what stands there under the name. -/
theorem child (h : t.Reaches p loc) (hd : t.entry? loc = some .directory)
    (he : t.entry? (n :: loc) = some e) (hlink : ∀ target, e ≠ .link target) :
    t.Reaches (p.child n.text) (n :: loc) := by
  constructor
  · rw [emptyError?_child h.empty (Path.isAbsolute_name n), if_neg (by simpa using nul_not_mem n)]
  · exact h.leads.child (text_ne_of_emptyError? h.empty) hd he hlink

end Reaches

theorem child_path (h : loc ≠ []) (n : Name) :
    loc.path.child n.text = Location.path (n :: loc) := by
  have hslash : Path.slashAfter loc.path.text = "/" := by
    have hends := endsInSlash_path h
    unfold endsInSlash at hends
    exact if_neg (not_or.2 ⟨text_path_ne_empty loc, fun hlast => by simp [hlast] at hends⟩)
  rw [Path.child_of_not_isAbsolute (Path.isAbsolute_name n), hslash, ← text_path_cons n h]

/-! ## Names of directories -/

/-- The names lead down from the location, each of them to a directory. -/
def Down (t : Tree) : Location → List Name → Prop
  | _, [] => True
  | loc, n :: names => t.entry? (n :: loc) = some .directory ∧ Down t (n :: loc) names

theorem Down.entry? (h : t.Down loc names) (hd : t.entry? loc = some .directory) :
    t.entry? (names.reverse ++ loc) = some .directory := by
  induction names generalizing loc with
  | nil => exact hd
  | cons n names ih =>
    rw [List.reverse_cons, List.append_assoc]
    exact ih h.2 h.1

/-- The directories on the way down are entries, each of them another one. -/
theorem Down.exists_locations (h : t.Down loc names) :
    ∃ locs : List Location, locs.length = names.length ∧ locs.Nodup ∧
      (∀ l ∈ locs, loc.length < l.length) ∧ locs ⊆ t.entries.map Prod.fst := by
  induction names generalizing loc with
  | nil => exact ⟨[], rfl, List.nodup_nil, nofun, nofun⟩
  | cons n names ih =>
    obtain ⟨he, hdown⟩ := h
    obtain ⟨locs, hlen, hnodup, hbelow, hsub⟩ := ih hdown
    refine ⟨(n :: loc) :: locs, congrArg Nat.succ hlen, ?_, ?_, ?_⟩
    · exact List.nodup_cons.2 ⟨fun hmem => Nat.lt_irrefl _ (hbelow _ hmem), hnodup⟩
    · intro l hl
      rcases List.mem_cons.1 hl with rfl | hl
      · exact Nat.lt_succ_self _
      · exact Nat.lt_trans (Nat.lt_succ_self _) (hbelow l hl)
    · have hmem := mem_entries_of_some he (List.cons_ne_nil n loc)
      exact List.cons_subset.2 ⟨List.mem_map_of_mem hmem, hsub⟩

theorem Down.length_le (h : t.Down loc names) : names.length ≤ t.entries.length := by
  obtain ⟨locs, hlen, hnodup, -, hsub⟩ := h.exists_locations
  calc names.length
      = locs.length := hlen.symm
    _ ≤ (t.entries.map Prod.fst).length := hnodup.length_le_of_subset hsub
    _ = t.entries.length := List.length_map _

end PackageMap.Tree
