import PackageMap.Proofs.FinalMap
import PackageMap.Proofs.Path.Child
import PackageMap.Proofs.Text.Utf8
import PackageMap.Proofs.Tree.Inside
import PackageMap.Proofs.Tree.Unlinked

/-!
# Paths below a directory

A path lies below a directory if the components of the directory begin its own. For canonical paths
this is as good as asking their locations, or their texts, so keys that are cut off by text alone are
right (`relativize_path`).
-/

namespace PackageMap

variable {root loc : Location}

namespace Tree

theorem isAbsolute_path (loc : Location) : loc.path.isAbsolute = true := by
  unfold Path.isAbsolute
  rw [toList_path]
  rfl

theorem segmentComponent?_name (n : Name) :
    Path.segmentComponent? n.text.toList = some (.name n.text) := by
  unfold Path.segmentComponent?
  rw [isSilent_name, if_neg Bool.false_ne_true, if_neg (name_ne_up n), String.ofList_toList]

/-- The components of a location's path are the root and the names of the location. -/
theorem components_path (loc : Location) :
    loc.path.components = .root :: loc.reverse.map fun n => .name n.text := by
  rw [Path.components_of_isAbsolute (isAbsolute_path loc), Path.trail]
  by_cases hloc : loc = []
  · subst hloc
    rfl
  · rw [segments_path hloc, List.filterMap_cons_none rfl, List.filterMap_map,
      ← List.filterMap_eq_map]
    exact congrArg (fun f => _ :: List.filterMap f loc.reverse) (funext segmentComponent?_name)

/-- The paths of locations lie one below the other by their components as the locations do. -/
theorem prefix_components_iff : root.path.components <+: loc.path.components ↔ root <:+ loc := by
  rw [components_path, components_path, List.cons_prefix_cons, eq_self_iff_true, true_and,
    List.prefix_map_iff_of_injective fun n m h => Name.text_inj.1 (Path.Component.name.inj h),
    List.reverse_prefix]

/-- By their texts, too, paths of locations lie one below the other as the locations do. -/
theorem below_path_iff : Path.Below root.path loc.path ↔ root <:+ loc := by
  refine ⟨fun ⟨rest, htext, hrest⟩ => ?_, below_path_of_suffix⟩
  by_cases hroot : root = []
  · rw [hroot]
    exact List.nil_suffix
  rw [rootText_path hroot] at htext
  rcases hrest with rfl | hrest
  · rw [List.append_nil, String.toList_inj] at htext
    obtain rfl := eq_of_same_path (congrArg (fun text => (Path.mk text).components) htext)
    exact List.suffix_rfl
  · obtain ⟨cs, rfl⟩ := List.head?_eq_some_iff.1 hrest
    rw [← prefix_components_iff, Path.components_of_isAbsolute (isAbsolute_path root),
      Path.components_of_isAbsolute (isAbsolute_path loc), List.cons_prefix_cons]
    unfold Path.trail
    rw [htext, Path.segments_append, List.filterMap_append]
    exact ⟨rfl, List.prefix_append _ _⟩

end Tree

namespace Path

/-! ## Keys -/

/-- The key of a canonical path below a canonical root is what the root's text, without slashes at its
end, is followed by in the text of the path, and it is empty or begins with a slash. -/
theorem relativize_of_suffix (h : root <:+ loc) :
    rootText root.path ++ (loc.path.relativize root.path).toList = loc.path.text.toList ∧
      (loc.path.relativize root.path = "" ∨
        (loc.path.relativize root.path).toList.head? = some '/') := by
  obtain ⟨rest, htext, hrest⟩ := Tree.below_path_iff.2 h
  rw [relativize_of_eq_append htext hrest, String.toList_ofList]
  refine ⟨htext.symm, hrest.imp_left ?_⟩
  rintro rfl
  rfl

/-- The key of a canonical path that is not below the root is its text. -/
theorem relativize_of_not_suffix (h : ¬ root <:+ loc) :
    loc.path.relativize root.path = loc.path.text :=
  relativize_of_not_below fun hbelow => h (Tree.below_path_iff.1 hbelow)

def projectDir : Location := [⟨"proj", .refl true⟩]

def projectFile : Location := ⟨"a.js", .refl true⟩ :: projectDir

/-- A file in a directory whose name begins with that of the project. -/
def siblingFile : Location := [⟨"a.js", .refl true⟩, ⟨"project", .refl true⟩]

/-- Names that are not UTF-8 may have one key. -/
example : (Path.mk "/proj/ÿ.js").relativizeAs (lossy latin) projectDir.path = "/\ufffd.js" ∧
    (Path.mk "/proj/þ.js").relativizeAs (lossy latin) projectDir.path = "/\ufffd.js" := by
  decide +kernel

/-! ## What follows a directory in a path -/

variable {p base : Path} {ss : List Segment}

theorem segmentComponent?_of_isSilent {s : Segment} (h : isSilent s = true) :
    segmentComponent? s = none := if_pos h

theorem exists_segmentComponent? {s : Segment} (h : isSilent s = false) :
    ∃ c, segmentComponent? s = some c := by
  unfold segmentComponent?
  rw [h, if_neg Bool.false_ne_true]
  split
  · exact ⟨_, rfl⟩
  · exact ⟨_, rfl⟩

theorem filterMap_dropWhile (ss : List Segment) :
    (ss.dropWhile isSilent).filterMap segmentComponent? = ss.filterMap segmentComponent? := by
  induction ss with
  | nil => rfl
  | cons s ss ih =>
    cases hs : isSilent s with
    | true =>
      rw [List.dropWhile_cons_of_pos hs, ih,
        List.filterMap_cons_none (segmentComponent?_of_isSilent hs)]
    | false => rw [List.dropWhile_cons_of_neg (by simp [hs])]

theorem isSilent_of_dropWhile {s : Segment} (h : (ss.dropWhile isSilent).head? = some s) :
    isSilent s = false := by
  have hnot := List.head?_dropWhile_not isSilent ss
  rw [h] at hnot
  exact hnot

theorem filterMap_trimmed (ss : List Segment) :
    (trimmed ss).reverse.filterMap segmentComponent? = ss.filterMap segmentComponent? := by
  unfold trimmed
  rw [List.filterMap_reverse, filterMap_dropWhile, List.filterMap_reverse, List.reverse_reverse]

theorem filterMap_dropComponents (n : Nat) (ss : List Segment) :
    (dropComponents n ss).filterMap segmentComponent? =
      (ss.filterMap segmentComponent?).drop n := by
  induction n generalizing ss with
  | zero => rfl
  | succ n ih =>
    rw [dropComponents, ih, ← filterMap_dropWhile ss]
    cases hss : ss.dropWhile isSilent with
    | nil => simp
    | cons s rest =>
      obtain ⟨c, hc⟩ := exists_segmentComponent? (isSilent_of_dropWhile (congrArg List.head? hss))
      rw [List.drop_one, List.tail_cons, List.filterMap_cons_some hc, List.drop_succ_cons]

/-- What is left of segments without the silent ones at both ends. -/
theorem isPrefix_trimmed_dropWhile (ss : List Segment) :
    (trimmed (ss.dropWhile isSilent)).reverse <+: ss.dropWhile isSilent := by
  unfold trimmed
  have := List.dropWhile_suffix (l := (ss.dropWhile isSilent).reverse) isSilent
  simpa using List.reverse_prefix.2 this

theorem dropComponents_suffix (n : Nat) (ss : List Segment) : dropComponents n ss <:+ ss := by
  induction n generalizing ss with
  | zero => exact List.suffix_rfl
  | succ n ih =>
    exact (ih _).trans ((List.drop_suffix 1 _).trans (List.dropWhile_suffix isSilent))

/-- A path that begins with a component has the components of its segments. -/
theorem components_assemble_none (hslash : ∀ s ∈ ss, '/' ∉ s)
    (hhead : ∀ s, ss.head? = some s → isSilent s = false) :
    (assemble .none ss).components = ss.filterMap segmentComponent? := by
  cases ss with
  | nil => rfl
  | cons s ss =>
    have hs := hhead s rfl
    have hsplit : (assemble .none (s :: ss)).split = (.none, s :: ss) := by
      unfold split assemble
      rw [String.toList_ofList, segments_join hslash (List.cons_ne_nil s ss)]
      split
      · next heq => cases heq; cases hs
      · next heq => cases heq; cases hs
      · rfl
    unfold components
    rw [hsplit]
    rfl

/-- A path below a directory is seen from there by the components that follow the directory's. -/
theorem exists_relativeTo? (hp : p.isAbsolute) (hbase : base.isAbsolute)
    (h : base.components <+: p.components) :
    ∃ rel, p.relativeTo? base = some rel ∧
      rel.components = p.components.drop base.components.length := by
  obtain ⟨s, ss, hss⟩ := (head?_eq_slash_iff _).1 (beq_iff_eq.1 hp)
  have hsplit : p.split = (.root, s :: ss) := split_of_segments hss (by simp)
  have hcomponents : p.components = .root :: (s :: ss).filterMap segmentComponent? := by
    unfold components
    rw [hsplit]
    rfl
  refine ⟨assemble .none (trimmed
    ((dropComponents (trail base.text).length (s :: ss)).dropWhile isSilent)).reverse, ?_, ?_⟩
  · unfold relativeTo?
    rw [if_pos (List.isPrefixOf_iff_prefix.2 h), hsplit, components_of_isAbsolute hbase]
    rfl
  · rw [components_assemble_none, filterMap_trimmed, filterMap_dropWhile, filterMap_dropComponents,
      hcomponents, components_of_isAbsolute hbase, List.length_cons, List.drop_succ_cons]
    · intro r hr
      have hmem := (List.dropWhile_suffix isSilent).subset ((isPrefix_trimmed_dropWhile _).subset hr)
      exact not_mem_of_mem_segments (hss ▸ List.mem_cons_of_mem _
        ((dropComponents_suffix _ _).subset hmem))
    · intro r hr
      obtain ⟨tail, htail⟩ := List.head?_eq_some_iff.1 hr
      obtain ⟨rest, hrest⟩ := isPrefix_trimmed_dropWhile (dropComponents (trail base.text).length (s :: ss))
      rw [htail, List.cons_append] at hrest
      exact isSilent_of_dropWhile (congrArg List.head? hrest.symm)

end Path

end PackageMap
