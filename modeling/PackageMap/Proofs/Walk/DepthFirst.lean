import PackageMap.Walk

/-!
# Walks as depth-first searches

The recursive walk passes over a file that is in the map; else it visits the file and then walks
from every file that its references resolve to, in order. The walk with a stack leaves out early
what the recursive walk passes over later, and both give the same walker.
-/

namespace PackageMap.Walker

/-! ## The recursive walk -/

/-- Resolve a specifier in a file: the file that it stands for, visited or not. -/
def resolveOne (t : Tree) (c : Config) (file : Path) (w : Walker) (spec : String) :
    Walker × Option Path :=
  let (r, cache) := resolve t c.conventions (some w.cache) file spec
  let w := { w with cache := cache.getD w.cache }
  match r.outcome with
  | .resolved target => (w, some target)
  | .ignored => (w.noteIgnored, none)
  | .unresolved reason => (w.noteUnresolved ⟨file, spec, reason⟩, none)

/-- Resolve all specifiers in a file: the files that they stand for, in order. -/
def resolveEach (t : Tree) (c : Config) (file : Path) (w : Walker) :
    List String → Walker × List Path
  | [] => (w, [])
  | spec :: specs =>
    let (w, target) := resolveOne t c file w spec
    let (w, targets) := resolveEach t c file w specs
    (w, target.toList ++ targets)

/-- Read a file, resolve all its specifiers and store it: the files that it refers to, in order. -/
def expand (t : Tree) (c : Config) (w : Walker) (file : Path) : Walker × List Path :=
  match t.read file with
  | .error _ => (w.noteUnreadable file, [])
  | .ok bytes =>
    let content := Text.Utf8.lossy bytes
    if c.isScript file then
      match Source.specifiers content with
      | .error _ => ((w.noteUnscanned file).add (.leaf file content), [])
      | .ok specs =>
        let (w, targets) := resolveEach t c file w specs
        (w.add ⟨file, content, some specs⟩, targets)
    else (w.add (.leaf file content), [])

/-- Whether a file that a reference in `file` resolves to is still to be visited. -/
def isPending (m : FileMap) (file target : Path) : Bool :=
  !decide (target.Same file) && !m.contains target

theorem followOne_eq (t : Tree) (c : Config) (file : Path) (w : Walker) (spec : String) :
    followOne t c file w spec =
      ((resolveOne t c file w spec).1,
        (resolveOne t c file w spec).2.filter (isPending w.map file)) := by
  unfold followOne resolveOne
  dsimp only
  cases (resolve t c.conventions (some w.cache) file spec).1.outcome with
  | resolved target =>
    refine Prod.ext rfl ?_
    show (if target.Same file ∨ w.map.contains target = true then none else some target) =
      if isPending w.map file target then some target else none
    unfold isPending
    by_cases hs : target.Same file
    · simp [hs]
    · by_cases hm : w.map.contains target <;> simp [hs, hm]
  | ignored => rfl
  | unresolved reason => rfl

theorem toList_filter {α : Type} (o : Option α) (p : α → Bool) :
    (o.filter p).toList = o.toList.filter p := by
  cases o with
  | none => rfl
  | some a => by_cases h : p a <;> simp [h]

@[simp] theorem resolveOne_map (t : Tree) (c : Config) (file : Path) (w : Walker)
    (spec : String) : (resolveOne t c file w spec).1.map = w.map := by
  have h := followOne_map t c file w spec
  rwa [followOne_eq] at h

theorem followAll_eq (t : Tree) (c : Config) (file : Path) (w : Walker) (before : List Path)
    (specs : List String) :
    followAll t c file w before specs =
      ((resolveEach t c file w specs).1,
        before.reverse ++ (resolveEach t c file w specs).2.filter (isPending w.map file)) := by
  induction specs generalizing w before with
  | nil => simp [followAll, resolveEach]
  | cons spec specs ih =>
    unfold followAll resolveEach
    rw [followOne_eq]
    dsimp only
    rw [ih, resolveOne_map, toList_filter, List.reverse_append, List.filter_append,
      List.append_assoc]
    have hone : ∀ o : Option Path, (o.toList.filter (isPending w.map file)).reverse =
        o.toList.filter (isPending w.map file) := by
      intro o
      cases o with
      | none => rfl
      | some p => by_cases hp : isPending w.map file p <;> simp [hp]
    rw [hone]

/-- A visit stores what the recursive walk stores, and gives those files that are pending. -/
theorem visit_eq (t : Tree) (c : Config) (w : Walker) (file : Path) :
    visit t c w file =
      ((expand t c w file).1, (expand t c w file).2.filter (isPending w.map file)) := by
  unfold visit expand
  cases t.read file with
  | error e => rfl
  | ok bytes =>
    dsimp only
    by_cases hs : c.isScript file
    · rw [if_pos hs, if_pos hs]
      cases Source.specifiers (Text.Utf8.lossy bytes) with
      | error e => rfl
      | ok specs =>
        dsimp only
        rw [followAll_eq]
        rfl
    · rw [if_neg hs, if_neg hs]
      rfl

/-! ## What a walk leaves -/

/-- A walker that a walk may lead to: no path is lost, and no work is added. -/
structure Extends (t : Tree) (w w' : Walker) : Prop where
  work_le : workLeft t w'.map ≤ workLeft t w.map
  contains : ∀ p, w.map.contains p = true → w'.map.contains p = true

theorem Extends.refl (t : Tree) (w : Walker) : Extends t w w := ⟨Nat.le_refl _, fun _ h => h⟩

theorem Extends.trans {t : Tree} {w w' w'' : Walker} (h : Extends t w w') (h' : Extends t w' w'') :
    Extends t w w'' :=
  ⟨Nat.le_trans h'.work_le h.work_le, fun p hp => h'.contains p (h.contains p hp)⟩

theorem expand_of_error {t : Tree} {c : Config} {w : Walker} {file : Path} {e : IoError}
    (hr : t.read file = .error e) : expand t c w file = (w.noteUnreadable file, []) := by
  unfold expand; rw [hr]

/-- What can be read is stored. -/
theorem expand_map {t : Tree} {c : Config} {w : Walker} {file : Path} {bytes : ByteArray}
    (hr : t.read file = .ok bytes) (hw : w.map.contains file = false) :
    ∃ r, r.path = file ∧ (expand t c w file).1.map = w.map.insert r := by
  have h := visit_map (c := c) hr hw
  rwa [visit_eq] at h

theorem workLeft_expand_lt {t : Tree} {c : Config} {w : Walker} {file : Path} {bytes : ByteArray}
    (hr : t.read file = .ok bytes) (hw : w.map.contains file = false) :
    workLeft t (expand t c w file).1.map < workLeft t w.map := by
  have h := workLeft_visit_lt (c := c) hr hw
  rw [visit_eq] at h
  dsimp only at h
  omega

theorem extends_expand {t : Tree} (c : Config) {w : Walker} {file : Path}
    (hw : w.map.contains file = false) : Extends t w (expand t c w file).1 := by
  cases hr : t.read file with
  | error e =>
    rw [expand_of_error hr]
    exact ⟨Nat.le_refl _, fun _ h => h⟩
  | ok bytes =>
    refine ⟨Nat.le_of_lt (workLeft_expand_lt hr hw), fun p hp => ?_⟩
    obtain ⟨r, _, hm⟩ := expand_map (c := c) hr hw
    rw [hm, FileMap.contains_insert, hp]
    rfl

/-- There are files to go on to only if the file was read, which leaves less work. -/
theorem workLeft_lt_of_mem_expand {t : Tree} {c : Config} {w : Walker} {file target : Path}
    (hw : w.map.contains file = false) (h : target ∈ (expand t c w file).2) :
    workLeft t (expand t c w file).1.map < workLeft t w.map := by
  cases hr : t.read file with
  | error e =>
    rw [expand_of_error hr] at h
    exact absurd h List.not_mem_nil
  | ok bytes => exact workLeft_expand_lt hr hw

/-- The recursive walk, together with what it leaves. -/
def explore (t : Tree) (c : Config) (w : Walker) (file : Path) : { w' // Extends t w w' } :=
  if hw : w.map.contains file = true then ⟨w, .refl t w⟩
  else
    let found := expand t c w file
    let last : { w' // Extends t found.1 w' } := found.2.attach.foldl
      (fun acc target =>
        let next := explore t c acc.1 target.1
        ⟨next.1, acc.2.trans next.2⟩)
      ⟨found.1, .refl t found.1⟩
    ⟨last.1, (extends_expand c (eq_false_of_ne_true hw)).trans last.2⟩
termination_by workLeft t w.map
decreasing_by
  exact Nat.lt_of_le_of_lt acc.2.work_le
    (workLeft_lt_of_mem_expand (eq_false_of_ne_true hw) target.2)

/-- Walk from a file by recursion. -/
def depthFirst (t : Tree) (c : Config) (w : Walker) (file : Path) : Walker := (explore t c w file).1

theorem extends_depthFirst (t : Tree) (c : Config) (w : Walker) (file : Path) :
    Extends t w (depthFirst t c w file) := (explore t c w file).2

/-- A file in the map is passed over. -/
theorem depthFirst_of_contains {t : Tree} {c : Config} {w : Walker} {file : Path}
    (h : w.map.contains file = true) : depthFirst t c w file = w := by
  unfold depthFirst explore; rw [dif_pos h]

/-- A file that is not in the map is expanded, and the files that it refers to are walked from one
after another. -/
theorem depthFirst_of_not_contains {t : Tree} {c : Config} {w : Walker} {file : Path}
    (h : w.map.contains file = false) :
    depthFirst t c w file =
      (expand t c w file).2.foldl (depthFirst t c) (expand t c w file).1 := by
  have hfold : ∀ (targets : List { p // p ∈ (expand t c w file).2 })
      (acc : { w' // Extends t (expand t c w file).1 w' }),
      (targets.foldl (fun acc target =>
        (⟨(explore t c acc.1 target.1).1, acc.2.trans (explore t c acc.1 target.1).2⟩ :
          { w' // Extends t (expand t c w file).1 w' })) acc).1 =
        (targets.map Subtype.val).foldl (depthFirst t c) acc.1 := by
    intro targets
    induction targets with
    | nil => intro acc; rfl
    | cons target targets ih => intro acc; exact ih _
  rw [depthFirst, explore, dif_neg (by simp [h])]
  refine (hfold _ _).trans ?_
  rw [List.attach_map_subtype_val]

/-! ## The stack -/

/-- Files in the map may be left out from those to walk from. -/
theorem foldl_depthFirst_filter {t : Tree} {c : Config} {keep : Path → Bool} {w : Walker}
    {files : List Path} (h : ∀ p ∈ files, keep p = false → w.map.contains p = true) :
    (files.filter keep).foldl (depthFirst t c) w = files.foldl (depthFirst t c) w := by
  induction files generalizing w with
  | nil => rfl
  | cons file files ih =>
    have hrest := fun p hp => h p (List.mem_cons_of_mem file hp)
    rw [List.foldl_cons]
    cases hk : keep file with
    | true =>
      rw [List.filter_cons_of_pos hk, List.foldl_cons]
      refine ih fun p hp hkp => ?_
      exact (extends_depthFirst t c w file).contains p (hrest p hp hkp)
    | false =>
      rw [List.filter_cons_of_neg (by simp [hk]),
        depthFirst_of_contains (h file List.mem_cons_self hk)]
      exact ih hrest

/-- What is not pending is in the map once the file is stored. -/
theorem contains_of_not_pending {t : Tree} {c : Config} {w : Walker} {file target : Path}
    (hw : w.map.contains file = false) (hm : target ∈ (expand t c w file).2)
    (hp : isPending w.map file target = false) :
    (expand t c w file).1.map.contains target = true := by
  cases hr : t.read file with
  | error e =>
    rw [expand_of_error hr] at hm
    exact absurd hm List.not_mem_nil
  | ok bytes =>
    obtain ⟨r, rfl, hmap⟩ := expand_map (c := c) hr hw
    rw [hmap, FileMap.contains_insert]
    unfold isPending at hp
    by_cases hs : target.Same r.path
    · simp [hs.symm]
    · have hc : w.map.contains target = true := by simpa [hs] using hp
      rw [hc, Bool.true_or]

/-- The stack is walked from its top: each file with all that it reaches before the next. -/
theorem walkStack_eq_foldl (t : Tree) (c : Config) (w : Walker) (stack : List Path) :
    walkStack t c w stack = stack.foldl (depthFirst t c) w := by
  fun_induction walkStack t c w stack with
  | case1 w => rfl
  | case2 w file rest hw ih => rw [ih, List.foldl_cons, depthFirst_of_contains hw]
  | case3 w file rest hw w' targets hv ih =>
    have hw' : w.map.contains file = false := eq_false_of_ne_true hw
    rw [visit_eq] at hv
    cases hv
    rw [ih, List.foldl_append, List.foldl_cons, depthFirst_of_not_contains hw',
      foldl_depthFirst_filter fun p hp hk => contains_of_not_pending hw' hp hk]

/-- Walk from a file by recursion, from its canonical path. -/
def walkDepthFirst (t : Tree) (c : Config) (w : Walker) (file : Path) : Walker :=
  match t.canonical file with
  | .error _ => w.noteUnreadable file
  | .ok loc => depthFirst t c w loc.path

/-- A walk with a stack gives the records, the report and the warnings of the recursive walk, in
the same order. -/
theorem walk_eq_walkDepthFirst (t : Tree) (c : Config) (w : Walker) (file : Path) :
    walk t c w file = walkDepthFirst t c w file := by
  unfold walk walkDepthFirst
  cases t.canonical file with
  | error e => rfl
  | ok loc => exact walkStack_eq_foldl t c w [loc.path]

end PackageMap.Walker
