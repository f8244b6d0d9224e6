import PackageMap.Installed
import PackageMap.Proofs.Tree.Below

/-!
# The installed packages of a project

In a tree without links the table of installed manifests is described by names: it has the manifest
of a package if and only if the names that lead from the project to the package are made of hops
from one package to the next, no directory below the first `node_modules` is hidden, and the
manifest can be read (`mem_installedManifests_iff`).

1. The names that the index loop accepts are those made of hops (`isPackage_iff`).
2. The descent goes down by every sequence of names that are not hidden (`mem_manifestsBelow_iff`),
   and what can be read below is what it finds there (`read_below_iff`).
3. No two manifests of the descent are the same path, so none replaces another
   (`mem_toList_foldl_addManifest`).
-/

namespace PackageMap

open Resolve (manifestName modulesName)

namespace Installed

/-! ## Hops -/

/-- The names from a project, or from a package, to a package that is installed there. -/
inductive Hop : List String → Prop
  | bare {name : String} (h : name.toList.head? ≠ some '@') : Hop [modulesName, name]
  | inScope {scope : String} (h : scope.toList.head? = some '@') (name : String) :
      Hop [modulesName, scope, name]

/-- The names from a project to a package, which may be installed in another one. -/
def IsInstalled (names : List String) : Prop :=
  ∃ hops : List (List String), hops ≠ [] ∧ (∀ hop ∈ hops, Hop hop) ∧ names = hops.flatten

theorem isPackageChain_hop {hop : List String} (h : Hop hop) (rest : List String) :
    isPackageChain (hop ++ rest) = isPackageChain rest := by
  cases h with
  | bare hname => cases rest <;> simp [isPackageChain, hname]
  | inScope hscope name => simp [isPackageChain, hscope]

theorem isPackageChain_iff {names : List String} : isPackageChain names = true ↔
    ∃ hops : List (List String), (∀ hop ∈ hops, Hop hop) ∧ names = hops.flatten := by
  constructor
  · intro h
    fun_induction isPackageChain names with
    | case1 => exact ⟨[], nofun, rfl⟩
    | case2 => cases h
    | case3 modules name rest ihscope ih =>
      obtain ⟨hmodules, h⟩ := Bool.and_eq_true_iff.1 h
      obtain rfl := beq_iff_eq.1 hmodules
      split at h
      · next hscope =>
        cases rest with
        | nil => cases h
        | cons name' rest =>
          obtain ⟨hops, hhops, rfl⟩ := ihscope h
          exact ⟨[modulesName, name, name'] :: hops,
            List.forall_mem_cons.2 ⟨.inScope hscope name', hhops⟩, rfl⟩
      · next hname =>
        obtain ⟨hops, hhops, rfl⟩ := ih h
        exact ⟨[modulesName, name] :: hops, List.forall_mem_cons.2 ⟨.bare hname, hhops⟩, rfl⟩
  · rintro ⟨hops, hhops, rfl⟩
    induction hops with
    | nil => rfl
    | cons hop hops ih =>
      obtain ⟨hhop, hhops⟩ := List.forall_mem_cons.1 hhops
      rw [List.flatten_cons, isPackageChain_hop hhop]
      exact ih hhops

theorem isPackage_iff {names : List String} : isPackage names = true ↔ IsInstalled names := by
  unfold isPackage IsInstalled
  rw [Bool.and_eq_true_iff, isPackageChain_iff]
  constructor
  · rintro ⟨hne, hops, hhops, rfl⟩
    refine ⟨hops, ?_, hhops, rfl⟩
    rintro rfl
    cases hne
  · rintro ⟨hops, hne, hhops, rfl⟩
    refine ⟨?_, hops, hhops, rfl⟩
    obtain ⟨hop, hops, rfl⟩ := List.exists_cons_of_ne_nil hne
    cases hhops hop List.mem_cons_self <;> rfl

/-! ## The descent -/

/-- The path of what lies below a project under these names. -/
def pathBelow (root : Path) (names : List Name) : Path :=
  names.foldl (fun p n => p.child n.text) root

/-- The directory that the descent comes to below a directory, under these names. -/
def Place.descend (p : Place) (names : List Name) : Place :=
  names.foldl (fun p n => p.enter n (n :: p.loc)) p

theorem Place.path_descend (p : Place) (names : List Name) :
    (p.descend names).path = pathBelow p.path names := by
  induction names generalizing p with
  | nil => rfl
  | cons n names ih => exact ih _

theorem Place.names_descend (p : Place) (names : List Name) :
    (p.descend names).names = (names.map Name.text).reverse ++ p.names := by
  induction names generalizing p with
  | nil => rfl
  | cons n names ih =>
    rw [List.map_cons, List.reverse_cons, List.append_assoc]
    exact ih _

/-- The descent goes from a directory down by these names. -/
def Opens (t : Tree) : Place → List Name → Prop
  | _, [] => True
  | p, n :: names =>
    n ∈ p.children t ∧ t.entry? (n :: p.loc) = some .directory ∧ isHidden n = false ∧
      Opens t (p.enter n (n :: p.loc)) names

theorem Opens.shown {t : Tree} {p : Place} {names : List Name} (h : Opens t p names) :
    ∀ n ∈ names, isHidden n = false := by
  induction names generalizing p with
  | nil => nofun
  | cons n names ih => exact List.forall_mem_cons.2 ⟨h.2.2.1, ih h.2.2.2⟩

/-- The descent goes down by these names and finds a file there. -/
structure Finds (t : Tree) (p : Place) (names : List Name) (file : Name) (bytes : ByteArray) :
    Prop where
  opens : Opens t p names
  child : file ∈ (p.descend names).children t
  entry : t.entry? (file :: (p.descend names).loc) = some (.file bytes)

variable {t : Tree} {root q : Path} {p : Place} {names : List Name} {file : Name}
  {bytes : ByteArray} {m : Manifest} {inside : List Location} {depth : Nat}

theorem finds_cons_iff {n : Name} : Finds t p (n :: names) file bytes ↔
    n ∈ p.children t ∧ t.entry? (n :: p.loc) = some .directory ∧ isHidden n = false ∧
      Finds t (p.enter n (n :: p.loc)) names file bytes := by
  constructor
  · rintro ⟨⟨hn, he, hhidden, hopens⟩, hchild, hentry⟩
    exact ⟨hn, he, hhidden, hopens, hchild, hentry⟩
  · rintro ⟨hn, he, hhidden, hopens, hchild, hentry⟩
    exact ⟨⟨hn, he, hhidden, hopens⟩, hchild, hentry⟩

/-- The manifests of a descent are those in the directories that it goes down to. -/
theorem mem_manifestsBelow_iff (hl : t.Unlinked) : q ∈ manifestsBelow t depth inside p ↔
    ∃ names file bytes, names.length < depth ∧ Finds t p names file bytes ∧
      isManifest (p.descend names) file ∧ q = (p.descend names).path.child file.text := by
  induction depth generalizing inside p with
  | zero => simp [manifestsBelow]
  | succ depth ih =>
    unfold manifestsBelow
    rw [List.mem_flatMap]
    constructor
    · rintro ⟨n, hn, hq⟩
      cases he : t.entry? (n :: p.loc) with
      | none => rw [he] at hq; cases hq
      | some e =>
        rw [he] at hq
        cases e with
        | file bytes =>
          dsimp only at hq
          split at hq
          · next hm =>
            exact ⟨[], n, bytes, Nat.succ_pos _, ⟨trivial, hn, he⟩, hm, List.mem_singleton.1 hq⟩
          · cases hq
        | directory =>
          dsimp only at hq
          split at hq
          · cases hq
          · next hhidden =>
            obtain ⟨names, file, bytes, hlen, hfinds, hm, rfl⟩ := ih.1 hq
            exact ⟨n :: names, file, bytes, Nat.succ_lt_succ hlen,
              finds_cons_iff.2 ⟨hn, he, by simpa using hhidden, hfinds⟩, hm, rfl⟩
        | link target => exact (hl.entry?_ne_link _ _ he).elim
    · rintro ⟨names, file, bytes, hlen, hfinds, hm, rfl⟩
      cases names with
      | nil =>
        refine ⟨file, hfinds.child, ?_⟩
        have he : t.entry? (file :: p.loc) = some (.file bytes) := hfinds.entry
        have hm : isManifest p file = true := hm
        rw [he]
        dsimp only
        rw [if_pos hm]
        exact List.mem_singleton_self _
      | cons n names =>
        obtain ⟨hn, he, hhidden, hfinds⟩ := finds_cons_iff.1 hfinds
        refine ⟨n, hn, ?_⟩
        rw [he]
        dsimp only
        rw [hhidden, if_neg Bool.false_ne_true]
        exact ih.2 ⟨names, file, bytes, Nat.lt_of_succ_lt_succ hlen, hfinds, hm, rfl⟩

theorem Opens.down (h : Opens t p names) : t.Down p.loc names := by
  induction names generalizing p with
  | nil => trivial
  | cons n names ih => exact ⟨h.2.1, ih h.2.2.2⟩

/-! ## What can be read below a directory -/

theorem pathBelow_cons (r : Path) (n : Name) (names : List Name) :
    pathBelow r (n :: names) = pathBelow (r.child n.text) names := rfl

theorem pathBelow_concat (r : Path) (names : List Name) (n : Name) :
    pathBelow r (names ++ [n]) = (pathBelow r names).child n.text :=
  List.foldl_append

theorem text_child_ne {r : Path} (hr : r.text ≠ "") (n : Name) : (r.child n.text).text ≠ "" :=
  Path.text_child_ne hr n.text

theorem textError?_of_below {r : Path} (hr : r.text ≠ "") {names : List Name}
    (h : Tree.textError? (pathBelow r names) = none) : Tree.textError? r = none := by
  induction names generalizing r with
  | nil => exact h
  | cons n names ih =>
    exact Tree.textError?_of_child hr (Path.isAbsolute_name n) (ih (text_child_ne hr n) h)

/-- What lies below a path leads to a location below that of the path. -/
theorem exists_locate_of_below (hl : t.Unlinked) {r : Path} (hr : r.text ≠ "") {loc : Location}
    (h : t.locate (pathBelow r names) = .ok loc) :
    ∃ dir, t.locate r = .ok dir ∧ loc = names.reverse ++ dir ∧
      (names ≠ [] → t.entry? dir = some .directory) := by
  induction names generalizing r with
  | nil => exact ⟨loc, h, rfl, fun hne => (hne rfl).elim⟩
  | cons n names ih =>
    obtain ⟨below, hbelow, rfl, -⟩ := ih (text_child_ne hr n) h
    obtain ⟨-, dir, hdir, hd, rfl, -⟩ := (hl.locate_child_iff hr n).1 hbelow
    exact ⟨dir, hdir, by simp, fun _ => hd⟩

theorem mem_children_iff_of_locate (hp : t.locate p.path = .ok p.loc) {n : Name} :
    n ∈ p.children t ↔ ∃ e, t.entry? (n :: p.loc) = some e := by
  unfold Place.children
  rw [(Tree.locate_eq_ok_iff.1 hp).1]
  exact Tree.mem_children_iff

/-- The files that can be read below a directory, under names that are not hidden, are those that the
descent finds there, unless their path is too long. -/
theorem read_below_iff (hl : t.Unlinked) (hp : t.locate p.path = .ok p.loc)
    (hd : t.entry? p.loc = some .directory) :
    (t.read (pathBelow p.path (names ++ [file])) = .ok bytes ∧ ∀ n ∈ names, isHidden n = false) ↔
      Finds t p names file bytes ∧
        Tree.textError? (pathBelow p.path (names ++ [file])) = none := by
  have hne : p.path.text ≠ "" := (Tree.textError?_eq_none_iff.1 (Tree.locate_eq_ok_iff.1 hp).1).2.1
  induction names generalizing p with
  | nil =>
    show (t.read (p.path.child file.text) = _ ∧ _) ↔ _ ∧ Tree.textError? (p.path.child file.text) = _
    rw [Tree.read_eq_ok_iff]
    constructor
    · rintro ⟨⟨loc, hloc, he⟩, -⟩
      obtain ⟨htext, dir, hdir, -, rfl, -⟩ := (hl.locate_child_iff hne file).1 hloc
      obtain rfl := Except.ok.inj (hdir.symm.trans hp)
      exact ⟨⟨trivial, (mem_children_iff_of_locate hp).2 ⟨_, he⟩, he⟩, htext⟩
    · rintro ⟨⟨-, -, he⟩, htext⟩
      have he : t.entry? (file :: p.loc) = some (.file bytes) := he
      have hloc := (hl.locate_child_iff hne file).2 ⟨htext, p.loc, hp, hd, rfl, _, he⟩
      exact ⟨⟨_, hloc, he⟩, nofun⟩
  | cons n names ih =>
    rw [List.cons_append, pathBelow_cons, List.forall_mem_cons, finds_cons_iff]
    constructor
    · rintro ⟨hread, hhidden, hnames⟩
      obtain ⟨loc, hloc, -⟩ := Tree.read_eq_ok_iff.1 hread
      obtain ⟨below, hbelow, -, hdir⟩ := exists_locate_of_below hl (text_child_ne hne n) hloc
      obtain ⟨-, dir, hdir', -, rfl, e, he⟩ := (hl.locate_child_iff hne n).1 hbelow
      obtain rfl := Except.ok.inj (hdir'.symm.trans hp)
      have hd' := hdir (by simp)
      obtain ⟨hfinds, htext⟩ := (ih (p := p.enter n (n :: p.loc)) hbelow hd'
        (text_child_ne hne n)).1 ⟨hread, hnames⟩
      exact ⟨⟨(mem_children_iff_of_locate hp).2 ⟨e, he⟩, hd', hhidden, hfinds⟩, htext⟩
    · rintro ⟨⟨-, hd', hhidden, hfinds⟩, htext⟩
      have htext' := textError?_of_below (text_child_ne hne n) htext
      have hbelow := (hl.locate_child_iff hne n).2 ⟨htext', p.loc, hp, hd, rfl, _, hd'⟩
      obtain ⟨hread, hnames⟩ := (ih (p := p.enter n (n :: p.loc)) hbelow hd'
        (text_child_ne hne n)).2 ⟨hfinds, htext⟩
      exact ⟨hread, hhidden, hnames⟩

/-! ## The paths of manifests -/

def modulesDirectory : Name := ⟨modulesName, .refl true⟩

def manifestFile : Name := ⟨manifestName, .refl true⟩

/-- The names that lead to a package, from the project on. -/
structure PackageNames (names : List Name) : Prop where
  installed : IsInstalled (names.map Name.text)
  shown : ∀ n ∈ names.tail, isHidden n = false

theorem PackageNames.exists_eq_cons (h : PackageNames names) :
    ∃ rest, names = modulesDirectory :: rest := by
  obtain ⟨hops, hne, hhops, hnames⟩ := h.installed
  obtain ⟨hop, hops, rfl⟩ := List.exists_cons_of_ne_nil hne
  have hhead : (names.map Name.text).head? = some modulesDirectory.text := by
    rw [hnames, List.flatten_cons]
    cases hhops hop List.mem_cons_self <;> rfl
  cases names with
  | nil => cases hhead
  | cons n rest => exact ⟨rest, by rw [Name.text_inj.1 (Option.some.inj hhead)]⟩

/-- The manifest of the package that names below a project lead to. -/
def manifestBelow (root : Path) (names : List Name) : Path :=
  (pathBelow root names).child manifestName

theorem manifestBelow_cons (root : Path) (names : List Name) :
    manifestBelow root (modulesDirectory :: names) =
      pathBelow (root.child modulesName) (names ++ [manifestFile]) :=
  (pathBelow_concat (root.child modulesName) names manifestFile).symm

theorem text_modules_ne (root : Path) : (root.child modulesName).text ≠ "" :=
  Path.text_child_ne_of_ne (by decide) root

/-- The descent finds manifests of packages only. -/
theorem exists_of_mem_manifestPaths (hl : t.Unlinked) (h : q ∈ manifestPaths t root) :
    ∃ names, PackageNames names ∧ q = manifestBelow root names := by
  unfold manifestPaths at h
  dsimp only at h
  split at h
  · cases h
  next loc _ =>
  obtain ⟨names, file, bytes, -, hfinds, hm, rfl⟩ := (mem_manifestsBelow_iff hl).1 h
  obtain ⟨hfile, hpackage⟩ := Bool.and_eq_true_iff.1 hm
  rw [Place.names_descend, List.reverse_append, List.reverse_reverse, isPackage_iff] at hpackage
  refine ⟨modulesDirectory :: names, ⟨hpackage, hfinds.opens.shown⟩, ?_⟩
  rw [Place.path_descend, beq_iff_eq.1 hfile]
  rfl

/-- The descent finds the manifest of every package that can be read. -/
theorem mem_manifestPaths_of_read (hl : t.Unlinked) (hnames : PackageNames names)
    (hread : t.read (manifestBelow root names) = .ok bytes) :
    manifestBelow root names ∈ manifestPaths t root := by
  obtain ⟨names, rfl⟩ := hnames.exists_eq_cons
  rw [manifestBelow_cons] at hread ⊢
  obtain ⟨loc, hloc, -⟩ := Tree.read_eq_ok_iff.1 hread
  obtain ⟨dir, hdir, -, hd⟩ := exists_locate_of_below hl (text_modules_ne root) hloc
  have hd := hd (by simp)
  obtain ⟨hfinds, -⟩ := (read_below_iff (p := ⟨dir, root.child modulesName, [modulesName]⟩) hl hdir
    hd).1 ⟨hread, hnames.shown⟩
  have hlen : names.length < depthBound t :=
    Nat.lt_of_lt_of_le (Nat.lt_succ_of_le hfinds.opens.down.length_le)
      (Nat.le_mul_of_pos_right _ (Nat.succ_pos _))
  unfold manifestPaths
  dsimp only
  rw [Tree.directory?_eq_some_iff.2 ⟨hdir, hd⟩]
  refine (mem_manifestsBelow_iff hl).2 ⟨names, manifestFile, bytes, hlen, hfinds, ?_, ?_⟩
  · unfold isManifest
    rw [Place.names_descend, List.reverse_append, List.reverse_reverse]
    exact Bool.and_eq_true_iff.2 ⟨rfl, isPackage_iff.2 hnames.installed⟩
  · rw [Place.path_descend, pathBelow_concat]

/-- Manifests of two packages that can be read are not the same path. -/
theorem manifestBelow_injective (hl : t.Unlinked) {names' : List Name} {bytes' : ByteArray}
    (hnames : PackageNames names) (hnames' : PackageNames names')
    (hread : t.read (manifestBelow root names) = .ok bytes)
    (hread' : t.read (manifestBelow root names') = .ok bytes')
    (h : (manifestBelow root names).Same (manifestBelow root names')) : names = names' := by
  obtain ⟨names, rfl⟩ := hnames.exists_eq_cons
  obtain ⟨names', rfl⟩ := hnames'.exists_eq_cons
  rw [manifestBelow_cons] at hread hread' h
  rw [manifestBelow_cons] at h
  obtain ⟨loc, hloc, -⟩ := Tree.read_eq_ok_iff.1 hread
  obtain ⟨loc', hloc', -⟩ := Tree.read_eq_ok_iff.1 hread'
  obtain rfl := Tree.locate_unique h hloc hloc'
  obtain ⟨dir, hdir, rfl, -⟩ := exists_locate_of_below hl (text_modules_ne root) hloc
  obtain ⟨dir', hdir', heq, -⟩ := exists_locate_of_below hl (text_modules_ne root) hloc'
  obtain rfl := Except.ok.inj (hdir.symm.trans hdir')
  have hreverse := List.reverse_inj.1 (List.append_cancel_right heq)
  rw [List.append_cancel_right hreverse]

/-! ## The table -/

theorem addManifest_of_ok {found : PathTable Manifest} (h : Manifest.read t q = .ok m) :
    addManifest t found q = found.put q m := by
  unfold addManifest
  rw [h]

theorem addManifest_of_error {found : PathTable Manifest} {e : ManifestError}
    (h : Manifest.read t q = .error e) : addManifest t found q = found := by
  unfold addManifest
  rw [h]

/-- Of paths no two of which are the same, all manifests that can be read are in the table. -/
theorem mem_toList_foldl_addManifest {S : Path → Prop}
    (hS : ∀ a b, S a → S b → a.Same b → a = b) {paths : List Path}
    (hpaths : ∀ a ∈ paths, ∀ m, Manifest.read t a = .ok m → S a) {found : PathTable Manifest}
    (hfound : ∀ d ∈ found.toList, S d.1 ∧ Manifest.read t d.1 = .ok d.2) :
    (q, m) ∈ (paths.foldl (addManifest t) found).toList ↔
      (q, m) ∈ found.toList ∨ q ∈ paths ∧ Manifest.read t q = .ok m := by
  induction paths generalizing found with
  | nil => simp
  | cons a paths ih =>
    obtain ⟨ha, hpaths⟩ := List.forall_mem_cons.1 hpaths
    rw [List.foldl_cons]
    cases hread : Manifest.read t a with
    | error e =>
      rw [addManifest_of_error hread, ih hpaths hfound, List.mem_cons]
      refine or_congr_right (and_congr_left fun hq => ?_)
      refine (or_iff_right ?_).symm
      rintro rfl
      cases hread.symm.trans hq
    | ok n =>
      have hput {d : Path × Manifest} :
          d ∈ (found.put a n).toList ↔ d = (a, n) ∨ d ∈ found.toList := by
        refine PathTable.mem_toList_put fun d hd hsame => ?_
        obtain ⟨hSd, hreadd⟩ := hfound d hd
        obtain rfl := hS _ _ hSd (ha n hread) hsame
        rw [hread] at hreadd
        rw [Except.ok.inj hreadd]
      rw [addManifest_of_ok hread, ih hpaths fun d hd => ?_, hput, List.mem_cons]
      · constructor
        · rintro ((h | h) | ⟨hq, h⟩)
          · obtain ⟨rfl, rfl⟩ := Prod.mk.inj h
            exact .inr ⟨.inl rfl, hread⟩
          · exact .inl h
          · exact .inr ⟨.inr hq, h⟩
        · rintro (h | ⟨rfl | hq, h⟩)
          · exact .inl (.inr h)
          · exact .inl (.inl (by rw [Except.ok.inj (hread.symm.trans h)]))
          · exact .inr ⟨hq, h⟩
      · rcases hput.1 hd with rfl | hd
        · exact ⟨ha n hread, hread⟩
        · exact hfound d hd

end Installed

open Installed in
/--
In a tree without links the manifests found in a project are exactly those of the packages that names
without hidden directories lead to, which are regular files whose bytes are the text of some JSON.
Each is kept under the path that spells these names, as the record of that JSON.
-/
theorem mem_installedManifests_iff {t : Tree} {root q : Path} {m : Manifest} (hl : t.Unlinked) :
    (q, m) ∈ (installedManifests t root).toList ↔
      ∃ names : List Name, PackageNames names ∧ q = manifestBelow root names ∧
        ∃ bytes text j, t.read q = .ok bytes ∧ Text.Utf8.strict? bytes = some text ∧
          Json.ofText? text = some j ∧ m = .ofJson j := by
  -- which of the paths that are found can be read
  let S (a : Path) : Prop :=
    ∃ names bytes, PackageNames names ∧ a = manifestBelow root names ∧ t.read a = .ok bytes
  have hS (a b : Path) (ha : S a) (hb : S b) (hab : a.Same b) : a = b := by
    obtain ⟨names, bytes, hnames, rfl, hread⟩ := ha
    obtain ⟨names', bytes', hnames', rfl, hread'⟩ := hb
    rw [manifestBelow_injective hl hnames hnames' hread hread' hab]
  have hpaths (a : Path) (ha : a ∈ manifestPaths t root) (m : Manifest)
      (hm : Manifest.read t a = .ok m) : S a := by
    obtain ⟨names, hnames, rfl⟩ := exists_of_mem_manifestPaths hl ha
    obtain ⟨bytes, -, -, hread, -⟩ := Manifest.read_eq_ok_iff.1 hm
    exact ⟨names, bytes, hnames, rfl, hread⟩
  have hempty (d : Path × Manifest) (hd : d ∈ (PathTable.empty : PathTable Manifest).toList) :
      S d.1 ∧ Manifest.read t d.1 = .ok d.2 := absurd hd List.not_mem_nil
  unfold installedManifests
  rw [mem_toList_foldl_addManifest hS hpaths hempty, Manifest.read_eq_ok_iff]
  constructor
  · rintro (hq | ⟨hq, hread⟩)
    · cases hq
    · obtain ⟨names, hnames, rfl⟩ := exists_of_mem_manifestPaths hl hq
      exact ⟨names, hnames, rfl, hread⟩
  · rintro ⟨names, hnames, rfl, hread⟩
    obtain ⟨bytes, -, -, hbytes, -⟩ := id hread
    exact .inr ⟨mem_manifestPaths_of_read hl hnames hbytes, hread⟩

namespace Nested

open Installed (modulesDirectory manifestFile)

def top : Location := [⟨"a", .refl true⟩, modulesDirectory]

def scope : Location := ⟨"@s", .refl true⟩ :: modulesDirectory :: top

/-- A project with a package in which another one is installed, in a scope and with the name of a
directory of packages. -/
def tree : Tree where
  entries :=
    [([modulesDirectory], .directory), (top, .directory), (modulesDirectory :: top, .directory),
      (scope, .directory), (modulesDirectory :: scope, .directory),
      (manifestFile :: modulesDirectory :: scope, .file "\x7b\"main\":\"i\"\x7d".toUTF8)]
  cwd := []

end Nested

open Installed in
theorem mem_installedManifests_nested :
    Nested.tree.Unlinked ∧ PackageNames (modulesDirectory :: Nested.scope).reverse ∧
      (⟨"/node_modules/a/node_modules/@s/node_modules/package.json"⟩, { main := some "i" }) ∈
        (installedManifests Nested.tree ⟨"/"⟩).toList := by
  have hl : Nested.tree.Unlinked := by
    simp [Tree.Unlinked, Nested.tree]
  have hnames : PackageNames (modulesDirectory :: Nested.scope).reverse := by
    refine ⟨⟨[["node_modules", "a"], ["node_modules", "@s", "node_modules"]], by simp, ?_, rfl⟩,
      by decide⟩
    simp only [List.forall_mem_cons]
    exact ⟨.bare (by decide), .inScope (by decide) _, nofun⟩
  have hread : Nested.tree.read ⟨"/node_modules/a/node_modules/@s/node_modules/package.json"⟩ =
    .ok "\x7b\"main\":\"i\"\x7d".toUTF8 := rfl
  have hjson : Json.ofText? "\x7b\"main\":\"i\"\x7d" =
    some (.object [("main", .string "i")]) := by cbv
  exact ⟨hl, hnames, (mem_installedManifests_iff hl).2
    ⟨_, hnames, by decide, _, _, _, hread, Text.Utf8.strict?_toUTF8 _, hjson, rfl⟩⟩

end PackageMap
