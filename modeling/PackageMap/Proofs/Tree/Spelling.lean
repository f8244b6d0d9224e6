import PackageMap.Tree.Basic

/-!
# How paths are written

The steps of a path are its components, but for the steps that stay where they are: a path may name
these with a `.` or a slash at its end, and its components do not show them. The path of a location
has exactly the names of the location as its steps.
-/

namespace PackageMap

namespace Path

theorem segments_eq_splitOn (cs : List Char) : segments cs = cs.splitOn '/' := by
  induction cs with
  | nil => rfl
  | cons c cs ih =>
    rw [List.splitOn_cons_eq_if_modifyHead, ← ih]
    show (if c = '/' then _ else _) = _
    by_cases hc : c = '/'
    · rw [if_pos hc, if_pos (beq_iff_eq.2 hc)]
      rfl
    · rw [if_neg hc, if_neg (mt beq_iff_eq.1 hc)]
      obtain ⟨s, ss, hs⟩ := List.exists_cons_of_ne_nil (segments_ne_nil cs)
      unfold segments at hs ⊢
      rw [hs]
      rfl

theorem segments_slash (cs : List Char) : segments ('/' :: cs) = [] :: segments cs := rfl

theorem segments_append (cs ds : List Char) :
    segments (cs ++ '/' :: ds) = segments cs ++ segments ds := by
  rw [segments_eq_splitOn, segments_eq_splitOn, segments_eq_splitOn]
  exact List.splitOn_append_cons_self cs ds

theorem segments_of_not_mem {cs : List Char} (h : '/' ∉ cs) : segments cs = [cs] := by
  rw [segments_eq_splitOn]
  exact List.splitOn_eq_singleton h

theorem not_mem_of_mem_segments {cs : List Char} {s : Segment} (h : s ∈ segments cs) : '/' ∉ s := by
  induction cs generalizing s with
  | nil =>
    rw [List.mem_singleton.1 h]
    exact List.not_mem_nil
  | cons c cs ih =>
    obtain ⟨a, as, has⟩ := List.exists_cons_of_ne_nil (segments_ne_nil cs)
    by_cases hc : c = '/'
    · subst hc
      rw [segments_slash] at h
      rcases List.mem_cons.1 h with rfl | h
      · exact List.not_mem_nil
      · exact ih h
    · have hcons : segments (c :: cs) = (c :: a) :: as := by
        unfold segments at has ⊢
        rw [List.foldr_cons, if_neg hc, has]
      rw [hcons] at h
      rw [has] at ih
      rcases List.mem_cons.1 h with rfl | h
      · rw [List.mem_cons, not_or]
        exact ⟨Ne.symm hc, ih List.mem_cons_self⟩
      · exact ih (List.mem_cons_of_mem _ h)

theorem segments_join {ss : List Segment} (h : ∀ s ∈ ss, '/' ∉ s) (hne : ss ≠ []) :
    segments (join ss) = ss := by
  rw [segments_eq_splitOn]
  exact List.splitOn_intercalate '/' h hne

theorem segments_assemble {ss : List Segment} (h : ∀ s ∈ ss, '/' ∉ s) (hne : ss ≠ []) :
    segments (assemble .root ss).text.toList = [] :: ss := by
  unfold assemble
  rw [String.toList_ofList, segments_slash, segments_join h hne]

theorem join_cons {s : Segment} {ss : List Segment} (h : ss ≠ []) :
    join (s :: ss) = s ++ '/' :: join ss := by
  rw [join, List.intercalate_cons_of_ne_nil h, List.append_assoc]
  rfl

theorem join_concat {ss : List Segment} (s : Segment) (h : ss ≠ []) :
    join (ss ++ [s]) = join ss ++ '/' :: s := by
  induction ss with
  | nil => exact (h rfl).elim
  | cons r ss ih =>
    by_cases hss : ss = []
    · subst hss
      rw [List.singleton_append, join_cons (List.cons_ne_nil s []), join, join,
        List.intercalate_singleton, List.intercalate_singleton]
    · rw [List.cons_append, join_cons (by simp), join_cons hss, ih hss, List.append_assoc]
      rfl

theorem mem_join {c : Char} {ss : List Segment} (h : c ∈ join ss) :
    c = '/' ∨ ∃ s ∈ ss, c ∈ s := by
  induction ss with
  | nil => cases h
  | cons s ss ih =>
    by_cases hss : ss = []
    · subst hss
      rw [join, List.intercalate_singleton] at h
      exact .inr ⟨s, List.mem_singleton_self s, h⟩
    · rw [join_cons hss, List.mem_append, List.mem_cons] at h
      rcases h with h | h | h
      · exact .inr ⟨s, List.mem_cons_self, h⟩
      · exact .inl h
      · exact (ih h).imp_right fun ⟨r, hr, hc⟩ => ⟨r, List.mem_cons_of_mem _ hr, hc⟩

/-- A text that ends in a slash has an empty segment at its end. -/
theorem getLast?_segments {cs : List Char} (h : cs.getLast? = some '/') :
    (segments cs).getLast? = some [] := by
  obtain ⟨xs, rfl⟩ := List.getLast?_eq_some_iff.1 h
  rw [segments_eq_splitOn, List.splitOn_append_cons_self]
  exact List.getLast?_concat

/-- A text with no character in its segments holds only slashes. -/
theorem eq_slash_of_segments {cs : List Char} (h : ∀ s ∈ segments cs, s = []) :
    ∀ c ∈ cs, c = '/' := by
  have hcs : cs = join (segments cs) := by
    rw [segments_eq_splitOn]
    exact (List.intercalate_splitOn '/').symm
  intro c hc
  rw [hcs] at hc
  rcases mem_join hc with rfl | ⟨s, hs, hcs⟩
  · rfl
  · rw [h s hs] at hcs
    cases hcs

/-- A text begins with a slash if and only if there is an empty segment before another one. -/
theorem head?_eq_slash_iff (cs : List Char) :
    cs.head? = some '/' ↔ ∃ s ss, segments cs = [] :: s :: ss := by
  constructor
  · intro h
    obtain ⟨cs, rfl⟩ := List.head?_eq_some_iff.1 h
    obtain ⟨s, ss, hs⟩ := List.exists_cons_of_ne_nil (segments_ne_nil cs)
    exact ⟨s, ss, by rw [segments_slash, hs]⟩
  · rintro ⟨s, ss, h⟩
    cases cs with
    | nil => cases h
    | cons c cs =>
      by_cases hc : c = '/'
      · rw [hc]
        rfl
      · rw [segments_eq_splitOn, List.splitOn_cons_eq_if_modifyHead, if_neg (mt beq_iff_eq.1 hc),
          ← segments_eq_splitOn] at h
        obtain ⟨a, as, ha⟩ := List.exists_cons_of_ne_nil (segments_ne_nil cs)
        rw [ha] at h
        cases h

/-! ## Last segments -/

theorem split_of_segments {p : Path} {ss : List Segment} (h : segments p.text.toList = [] :: ss)
    (hne : ss ≠ []) : p.split = (.root, ss) := by
  obtain ⟨s, ss, rfl⟩ := List.exists_cons_of_ne_nil hne
  unfold split
  rw [h]

variable {p : Path} {lead : Lead} {ss : List Segment} {s : Segment}

theorem trimmed_concat (ss : List Segment) (h : isSilent s = false) :
    trimmed (ss ++ [s]) = s :: ss.reverse := by
  unfold trimmed
  rw [List.reverse_concat, List.dropWhile_cons_of_neg (by simp [h])]

theorem fileName?_of_split (h : p.split = (lead, ss ++ [s])) (hs : isSilent s = false)
    (hup : s ≠ ['.', '.']) : p.fileName? = some (String.ofList s) := by
  unfold fileName?
  rw [h]
  dsimp only
  rw [trimmed_concat ss hs]
  exact if_neg hup

theorem parent?_of_split (h : p.split = (lead, ss ++ [s])) (hs : isSilent s = false) :
    p.parent? = (shorten lead ss.reverse).head? := by
  unfold parent? parents
  rw [h]
  dsimp only
  rw [trimmed_concat ss hs]

end Path

namespace Tree

/-! ## Steps and components -/

/-- The steps that go somewhere. -/
def moves (steps : List Step) : List Step := steps.filter (· ≠ .here)

def componentStep? : Path.Component → Option Step
  | .root => none
  | .current => none
  | .parent => some .up
  | .name text => some (.name text)

theorem bind_componentStep? (s : Path.Segment) :
    (Path.segmentComponent? s).bind componentStep? = (stepOf? s).filter (· ≠ .here) := by
  unfold Path.segmentComponent? stepOf? Path.isSilent
  by_cases hempty : s = []
  · subst hempty
    rfl
  by_cases hdot : s = ['.']
  · subst hdot
    rfl
  by_cases hup : s = ['.', '.']
  · subst hup
    rfl
  simp only [beq_false_of_ne hempty, beq_false_of_ne hdot, if_neg hempty, if_neg hdot, if_neg hup]
  rfl

theorem filterMap_components (p : Path) :
    p.components.filterMap componentStep? =
      (Path.segments p.text.toList).filterMap fun s => (stepOf? s).filter (· ≠ .here) := by
  have hlead (l : Path.Lead) : l.components.filterMap componentStep? = [] := by cases l <;> rfl
  have hrest (ss : List Path.Segment) :
      (ss.filterMap Path.segmentComponent?).filterMap componentStep? =
        ss.filterMap fun s => (stepOf? s).filter (· ≠ .here) := by
    rw [List.filterMap_filterMap]
    exact congrArg (List.filterMap · ss) (funext bind_componentStep?)
  unfold Path.components
  dsimp only
  rw [List.filterMap_append, hlead, hrest, List.nil_append]
  unfold Path.split
  split
  · next hs => rw [hs]; rfl
  · next hs => rw [hs]; rfl
  · rfl

theorem moves_stepsOf (p : Path) :
    moves (stepsOf p.text) = p.components.filterMap componentStep? := by
  have hslash (b : Bool) : moves (if b then [.here] else []) = [] := by cases b <;> rfl
  rw [filterMap_components]
  unfold stepsOf namedSteps
  rw [moves, List.filter_append, ← moves, ← moves, hslash, List.append_nil, moves,
    List.filter_filterMap]

theorem segmentComponent?_ne_root (s : Path.Segment) : Path.segmentComponent? s ≠ some .root := by
  unfold Path.segmentComponent?
  split
  · nofun
  · split <;> nofun

theorem head?_components_iff (p : Path) :
    p.components.head? = some .root ↔ p.split.1 = .root := by
  unfold Path.components
  dsimp only
  cases p.split.1 with
  | root => simp [Path.Lead.components]
  | current => simp [Path.Lead.components]
  | none =>
    simp only [Path.Lead.components, List.nil_append, List.head?_filterMap, reduceCtorEq, iff_false]
    intro h
    obtain ⟨s, -, hs⟩ := List.exists_of_findSome?_eq_some h
    exact segmentComponent?_ne_root s hs

theorem split_fst_iff (p : Path) :
    p.split.1 = .root ↔ ∃ s ss, Path.segments p.text.toList = [] :: s :: ss := by
  unfold Path.split
  split
  · next s ss hs => exact iff_of_true rfl ⟨s, ss, hs⟩
  · next ss hs =>
    rw [hs]
    exact iff_of_false nofun nofun
  · next hroot _ => exact iff_of_false nofun fun ⟨s, ss, hs⟩ => hroot s ss hs

theorem isAbsolute_iff (p : Path) : p.isAbsolute = true ↔ p.components.head? = some .root := by
  unfold Path.isAbsolute
  rw [beq_iff_eq, Path.head?_eq_slash_iff, head?_components_iff, split_fst_iff]

theorem eq_nil_of_stepOf? {s : Path.Segment} (h : stepOf? s = none) : s = [] := by
  unfold stepOf? at h
  split at h
  · next hs => exact hs
  split at h
  · cases h
  split at h
  · cases h
  · cases h

/-- Whatever is written goes at least one step. -/
theorem stepsOf_ne_nil {text : String} (h : text ≠ "") : stepsOf text ≠ [] := by
  intro hnil
  obtain ⟨hnamed, hends⟩ := List.append_eq_nil_iff.1 hnil
  have hempty : ∀ s ∈ Path.segments text.toList, s = [] := fun s hs =>
    eq_nil_of_stepOf? (List.filterMap_eq_nil_iff.1 hnamed s hs)
  have hne : text.toList ≠ [] := fun he => h (String.toList_inj.1 he)
  have hlast := Path.eq_slash_of_segments hempty _ (List.getLast_mem hne)
  have hslash : endsInSlash text = true := by
    unfold endsInSlash
    rw [List.getLast?_eq_some_getLast hne, hlast]
    rfl
  rw [hslash] at hends
  cases hends

theorem startOf_of_same (t : Tree) {p q : Path} (h : p.Same q) : t.startOf p = t.startOf q := by
  have hpq : p.isAbsolute = q.isAbsolute :=
    Bool.eq_iff_iff.2 (by
      rw [isAbsolute_iff, isAbsolute_iff, show p.components = q.components from h])
  unfold startOf
  rw [hpq]

theorem moves_of_same {p q : Path} (h : p.Same q) :
    moves (stepsOf p.text) = moves (stepsOf q.text) := by
  rw [moves_stepsOf, moves_stepsOf, show p.components = q.components from h]

/-! ## Paths of locations -/

theorem isName_iff {s : String} :
    isName s = true ↔ s ≠ "" ∧ s ≠ "." ∧ s ≠ ".." ∧ '/' ∉ s.toList ∧ '\x00' ∉ s.toList ∧
      s.utf8ByteSize ≤ nameLimit := by
  simp [isName, and_assoc]

theorem slash_not_mem (n : Name) : '/' ∉ n.text.toList := (isName_iff.1 n.valid).2.2.2.1

theorem nul_not_mem (n : Name) : '\x00' ∉ n.text.toList := (isName_iff.1 n.valid).2.2.2.2.1

theorem stepOf?_name (n : Name) : stepOf? n.text.toList = some (.name n.text) := by
  obtain ⟨hempty, hdot, hup, -⟩ := isName_iff.1 n.valid
  have hne (s : String) (h : n.text ≠ s) : n.text.toList ≠ s.toList := fun he =>
    h (String.toList_inj.1 he)
  unfold stepOf?
  rw [if_neg (show n.text.toList ≠ [] from hne "" hempty),
    if_neg (show n.text.toList ≠ ['.'] from hne "." hdot),
    if_neg (show n.text.toList ≠ ['.', '.'] from hne ".." hup), String.ofList_toList]

theorem isSilent_name (n : Name) : Path.isSilent n.text.toList = false := by
  have hstep := stepOf?_name n
  rw [← Bool.not_eq_true]
  intro h
  unfold Path.isSilent at h
  rcases Bool.or_eq_true_iff.1 h with h | h
  · rw [beq_iff_eq.1 h] at hstep
    cases hstep
  · rw [beq_iff_eq.1 h] at hstep
    cases hstep

theorem name_ne_up (n : Name) : n.text.toList ≠ ['.', '.'] := by
  intro h
  have hstep := stepOf?_name n
  rw [h] at hstep
  cases hstep

theorem endsInSlash_eq_false {text : String} {n : Name}
    (h : (Path.segments text.toList).getLast? = some n.text.toList) : endsInSlash text = false := by
  rw [← Bool.not_eq_true]
  intro hslash
  have hlast := Path.getLast?_segments (beq_iff_eq.1 hslash)
  have hstep := stepOf?_name n
  rw [← Option.some.inj (hlast.symm.trans h)] at hstep
  cases hstep

theorem toList_path (loc : Location) :
    loc.path.text.toList = '/' :: Path.join (loc.reverse.map fun n => n.text.toList) :=
  String.toList_ofList

theorem text_path_ne_empty (loc : Location) : loc.path.text ≠ "" := by
  intro h
  have htext := toList_path loc
  rw [h] at htext
  cases htext

theorem size_path_pos (loc : Location) : 0 < loc.path.text.utf8ByteSize :=
  Nat.pos_of_ne_zero (mt String.utf8ByteSize_eq_zero_iff.1 (text_path_ne_empty loc))

theorem text_path_cons (n : Name) {above : Location} (h : above ≠ []) :
    (Location.path (n :: above)).text = above.path.text ++ "/" ++ n.text := by
  rw [← String.toList_inj, String.toList_append, String.toList_append, toList_path, toList_path,
    List.reverse_cons, List.map_append, List.map_singleton, Path.join_concat _ (by simpa using h),
    ← List.cons_append, List.append_assoc]
  rfl

/-- The segments of a location's path, after the empty one before the first slash. -/
theorem segments_path {loc : Location} (h : loc ≠ []) :
    Path.segments loc.path.text.toList = [] :: loc.reverse.map fun n => n.text.toList := by
  rw [toList_path, Path.segments_slash, Path.segments_join]
  · intro s hs
    obtain ⟨n, -, rfl⟩ := List.mem_map.1 hs
    exact slash_not_mem n
  · simpa using h

theorem endsInSlash_path {loc : Location} (h : loc ≠ []) : endsInSlash loc.path.text = false := by
  obtain ⟨n, above, rfl⟩ := List.exists_cons_of_ne_nil h
  apply endsInSlash_eq_false (n := n)
  rw [segments_path h, List.reverse_cons, List.map_append, ← List.cons_append,
    List.map_singleton, List.getLast?_concat]

/-- The steps of a location's path are the names that lead to it. -/
theorem stepsOf_path {loc : Location} (h : loc ≠ []) :
    stepsOf loc.path.text = loc.reverse.map fun n => .name n.text := by
  have hnamed : namedSteps loc.path.text = loc.reverse.map fun n => .name n.text := by
    unfold namedSteps
    rw [segments_path h, List.filterMap_cons_none rfl, List.filterMap_map,
      ← List.filterMap_eq_map]
    exact congrArg (List.filterMap · loc.reverse) (funext stepOf?_name)
  unfold stepsOf
  rw [hnamed, endsInSlash_path h]
  exact List.append_nil _

theorem startOf_path (t : Tree) (loc : Location) : t.startOf loc.path = [] := by
  unfold startOf Path.isAbsolute
  rw [toList_path]
  rfl

theorem emptyError?_path (loc : Location) : emptyError? loc.path = none := by
  have hnul : '\x00' ∉ loc.path.text.toList := by
    rw [toList_path]
    intro h
    rcases List.mem_cons.1 h with h | h
    · cases h
    rcases Path.mem_join h with h | ⟨s, hs, hc⟩
    · cases h
    · obtain ⟨n, -, rfl⟩ := List.mem_map.1 hs
      exact nul_not_mem n hc
  unfold emptyError?
  rw [if_neg (by simpa using hnul), if_neg (text_path_ne_empty loc)]

end Tree

end PackageMap
