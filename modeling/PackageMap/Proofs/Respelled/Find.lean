import PackageMap.Proofs.EntryOrder
import PackageMap.Proofs.Respelled.Entry
import PackageMap.Proofs.Respelled.Seed
import PackageMap.Proofs.Tree.Deep
import PackageMap.Proofs.Walk.Cached

/-!
# Package maps under two paths

The map of a package does not depend on how its root is written, as long as the limits of the file
system do not: a longer path of the root may be too long for what is below it.
-/

namespace PackageMap

/-- The paths that are looked up below a root for the map of a package: by the scan for manifests,
by the seed and for the entries. -/
inductive LooksUp (t : Tree) (c : Config) (root : Path) (package : String) : Path → Prop
  | scan {p} (h : Installed.Scans t root p) : LooksUp t c root package p
  | seed {m p} (hm : (installedManifests t root).get? (packageManifest root package) = some m)
      (h : Seeder.Looks t root package p) : LooksUp t c root package p
  | entry {m e p} (hm : (installedManifests t root).get? (packageManifest root package) = some m)
      (he : some e ∈ m.entries (packageDirectory root package))
      (h : Resolve.EntryLooks t c.conventions e p) : LooksUp t c root package p

/-- The files that are found below a root for the entries of a package. -/
inductive Finds (t : Tree) (c : Config) (root : Path) (package : String) : Path → Prop
  | entry {m e p} (hm : (installedManifests t root).get? (packageManifest root package) = some m)
      (he : some e ∈ m.entries (packageDirectory root package))
      (h : Resolve.EntryTries t c.conventions e p) (hfile : t.isFile p) : Finds t c root package p

/-- The paths that are made canonical below a root: those of Reason files for the seed, and those of
the files that are found. -/
inductive WritesOut (t : Tree) (c : Config) (root : Path) (package : String) : Path → Prop
  | seed {m p} (hm : (installedManifests t root).get? (packageManifest root package) = some m)
      (happlies : Seeder.reason.applies t root package)
      (h : Seeder.Sources t (installedManifests t root) p) : WritesOut t c root package p
  | found {p} (h : Finds t c root package p) : WritesOut t c root package p

/-- The map of a package is the same from two paths of one root, unless a limit tells apart what is
looked up or made canonical below them, or a file that is found has no canonical path. -/
theorem findPackage_respelled {t : Tree} {c : Config} {r r' : Path} {dir : Location}
    {package : String} (h : t.Spell r r' dir)
    (hlooks : ∀ s, (Path.mk s).isAbsolute = false → LooksUp t c r package (r.child s) →
      t.SameLimits (r.child s) (r'.child s))
    (hwrites : ∀ s, (Path.mk s).isAbsolute = false → WritesOut t c r package (r.child s) →
      (t.canonical (r.child s) = .error .tooManyLinks ↔
        t.canonical (r'.child s) = .error .tooManyLinks))
    (hfinds : ∀ s, (Path.mk s).isAbsolute = false → Finds t c r package (r.child s) →
      ∃ loc, t.canonical (r.child s) = .ok loc) :
    findPackage t { config := c } r (installedManifests t r) package =
      findPackage t { config := c } r' (installedManifests t r') package := by
  have hagree (p p' : Path) (hp : Path.Beside r r' p p') (hlook : LooksUp t c r package p) :
      t.Agree p p' := by
    obtain ⟨s, -, rfl, rfl⟩ := hp
    exact h.agree fun hs => hlooks s hs hlook
  have hcanonical (p p' : Path) (hp : Path.Beside r r' p p') (hwrite : WritesOut t c r package p) :
      t.canonical p = t.canonical p' := by
    obtain ⟨s, -, rfl, rfl⟩ := hp
    exact h.canonical_eq fun hs => hwrites s hs hwrite
  have hself (p p' : Path) (hp : Path.Beside r r' p p') (hfind : Finds t c r package p) :
      t.canonicalOrSelf p = t.canonicalOrSelf p' := by
    obtain ⟨s, -, rfl, rfl⟩ := hp
    exact h.canonicalOrSelf_eq (fun hs => hwrites s hs (.found hfind))
      fun hs => hfinds s hs hfind
  have htables := Installed.alike_installedManifests h.left h.right
    fun p p' hp hscan => hagree p p' hp.beside (.scan hscan)
  have hget := get?_packageManifest h.left h.right htables package
  cases hm : (installedManifests t r).get? (packageManifest r package) with
  | none =>
    rw [findPackage_of_none hm, findPackage_of_none (hget.symm.trans hm)]
  | some m =>
    have hseed := Seeder.seededWalker_eq h.left h.right { config := c } rfl htables
      (fun p p' hp hlook => hagree p p' hp (.seed hm hlook))
      fun p p' hp happlies hsource => hcanonical p p' hp (.seed hm happlies hsource)
    have hdir := beside_packageDirectory h.left h.right package
    have hentry (e e' : Path) (hmem : e ∈ (m.entries (packageDirectory r package)).filterMap id)
        (he : Path.Beside r r' e e') :
        Resolve.entryOf? t c.conventions e = Resolve.entryOf? t c.conventions e' := by
      have hmem : some e ∈ m.entries (packageDirectory r package) := by simpa using hmem
      exact Resolve.entryOf?_congr h.left h.right he
        (fun q q' hq hlook => hagree q q' hq (.entry hm hmem hlook))
        fun q q' hq htries hfile => hself q q' hq (.entry hm hmem htries hfile)
    have hentries := ((List.forall₂_and_left _ _).2
      ⟨fun _ he => he, beside_entries h.left h.right hdir m⟩).imp
        fun e e' he => hentry e e' he.1 he.2
    have hfresh : (seededWalker t { config := c } r (installedManifests t r) package).Fresh t :=
      fresh_seededWalker
    have hlevel := (Walker.Level.refl hfresh.cache).walkEntries hentries
    have hroot : t.canonicalOrSelf r = t.canonicalOrSelf r' := by
      unfold Tree.canonicalOrSelf
      rw [h.canonical_left, h.canonical_right]
    unfold findPackage findPackageAs
    rw [← hget, hm]
    dsimp only
    rw [← hseed, ← hlevel.map, ← hlevel.report, ← hlevel.warnings, hroot]

/-! ## A project with one package -/

namespace Single

def home : Name := ⟨"home", .refl true⟩

def proj : Name := ⟨"proj", .refl true⟩

def above : Location := [⟨"p", .refl true⟩, ⟨"node_modules", .refl true⟩, proj, home]

/-- A project with one package, which has only an index file. -/
def tree : Tree where
  entries :=
    [([home], .directory), ([proj, home], .directory),
      ([⟨"node_modules", .refl true⟩, proj, home], .directory), (above, .directory),
      (⟨"package.json", .refl true⟩ :: above, .file "\x7b\x7d".toUTF8),
      (⟨"index.js", .refl true⟩ :: above, .file "".toUTF8)]
  cwd := []

/-- The map of the package in the project at a path. -/
def found (r : Path) : FindResult :=
  findPackage tree { config := {} } r (installedManifests tree r) "p"

theorem plain : tree.Plain where
  noLinks := by simp [tree]
  small := by decide

/-- The package has a map where its manifest is found. -/
theorem found_outcome {r : Path}
    (hpaths : Installed.manifestPaths tree r = [packageManifest r "p"])
    (hread : tree.read (packageManifest r "p") = .ok "\x7b\x7d".toUTF8) :
    (found r).outcome ≠ none := by
  have hjson : Json.ofText? "\x7b\x7d" = some (.object []) := by cbv
  have hget := get?_installedManifests hpaths (read_manifest_of_text hread hjson)
  unfold found findPackage findPackageAs
  rw [hget]
  exact Option.some_ne_none _

/-- The package has no map where its root is too long. -/
theorem found_of_long {r : Path}
    (h : pathLimit ≤ (r.child Resolve.modulesName).text.utf8ByteSize) : found r = {} := by
  have hpaths : Installed.manifestPaths tree r = [] := by
    unfold Installed.manifestPaths
    dsimp only
    rw [Tree.directory?_of_long h]
  have htable : installedManifests tree r = .empty := by
    unfold installedManifests
    rw [hpaths, List.foldl_nil]
  unfold found findPackage
  rw [htable]
  rfl

/-- A path of the project with so many dots in it that nothing in the project may be looked up. -/
def far : Path := Tree.spelled home proj 0 2037

theorem size_far : far.text.utf8ByteSize = 4084 := Tree.size_spelled home proj 0 2037

theorem isAbsolute_far : far.isAbsolute = true := by
  unfold Path.isAbsolute far
  rw [Tree.toList_spelled]
  rfl

theorem canonical_far : tree.canonical far = .ok [proj, home] := by
  have hempty : Tree.emptyError? far = none :=
    Tree.emptyError?_of_textError? (Tree.textError?_spelled home proj 0 2037 (by
      rw [Tree.size_spelled]
      decide))
  have hlast : Tree.Leads tree .direct linkLimit [home] [.name proj.text] [proj, home] :=
    .name ⟨rfl, by decide⟩ rfl (e := .directory) (by decide) nofun .done
  have hway : Tree.Leads tree .direct linkLimit [] (Tree.stepsOf far.text) [proj, home] := by
    unfold far
    rw [Tree.stepsOf_spelled]
    exact .name ⟨rfl, rfl⟩ rfl (e := .directory) (by decide) nofun
      (Tree.leads_here (by decide) hlast)
  rw [Tree.canonical_eq_ok_iff]
  unfold far at hempty hway ⊢
  rw [Tree.startOf_spelled]
  exact ⟨hempty, plain.written hway⟩

theorem found_far : found far = {} := by
  refine found_of_long ?_
  have hmodules : Resolve.modulesName.utf8ByteSize = 12 := rfl
  rw [Path.child_of_not_isAbsolute (by decide)]
  simp only [String.utf8ByteSize_append, size_far, hmodules]
  unfold pathLimit
  omega

end Single

/-- A package has the same map from both paths of its project. -/
theorem findPackage_respelled_dots :
    Single.tree.Spell ⟨"/home/proj/."⟩ ⟨"/home/./proj"⟩ [Single.proj, Single.home] ∧
      (∀ s, (Path.mk s).isAbsolute = false →
        LooksUp Single.tree {} ⟨"/home/proj/."⟩ "p" ((Path.mk "/home/proj/.").child s) →
        Single.tree.SameLimits ((Path.mk "/home/proj/.").child s)
          ((Path.mk "/home/./proj").child s)) ∧
      (∀ s, (Path.mk s).isAbsolute = false →
        WritesOut Single.tree {} ⟨"/home/proj/."⟩ "p" ((Path.mk "/home/proj/.").child s) →
        (Single.tree.canonical ((Path.mk "/home/proj/.").child s) = .error .tooManyLinks ↔
          Single.tree.canonical ((Path.mk "/home/./proj").child s) = .error .tooManyLinks)) ∧
      (∀ s, (Path.mk s).isAbsolute = false →
        Finds Single.tree {} ⟨"/home/proj/."⟩ "p" ((Path.mk "/home/proj/.").child s) →
        ∃ loc, Single.tree.canonical ((Path.mk "/home/proj/.").child s) = .ok loc) ∧
      Single.found ⟨"/home/proj/."⟩ = Single.found ⟨"/home/./proj"⟩ ∧
      (Single.found ⟨"/home/proj/."⟩).outcome ≠ none := by
  have hspell : Single.tree.Spell ⟨"/home/proj/."⟩ ⟨"/home/./proj"⟩ [Single.proj, Single.home] :=
    ⟨by decide, by decide, by decide, by decide⟩
  have hlooks (s : String) (hs : (Path.mk s).isAbsolute = false) :
      Single.tree.SameLimits ((Path.mk "/home/proj/.").child s)
        ((Path.mk "/home/./proj").child s) := by
    refine Single.plain.sameLimits ?_
    rw [Path.child_of_not_isAbsolute hs, Path.child_of_not_isAbsolute hs]
    simp only [String.utf8ByteSize_append]
    rfl
  have hwrites (p q : Path) : Single.tree.canonical p = .error .tooManyLinks ↔
      Single.tree.canonical q = .error .tooManyLinks :=
    iff_of_false (Single.plain.canonical_ne_tooManyLinks p)
      (Single.plain.canonical_ne_tooManyLinks q)
  have hfinds (p : Path) (hp : Finds Single.tree {} ⟨"/home/proj/."⟩ "p" p) :
      ∃ loc, Single.tree.canonical p = .ok loc := by
    obtain ⟨-, -, -, hfile⟩ := hp
    exact Single.plain.exists_canonical hfile
  exact ⟨hspell, fun s hs _ => hlooks s hs, fun s _ _ => hwrites _ _, fun s _ => hfinds _,
    findPackage_respelled hspell (fun s hs _ => hlooks s hs) (fun s _ _ => hwrites _ _)
      fun s _ => hfinds _, Single.found_outcome (by decide) rfl⟩

/-- A package that has a map has none where the path of its project is too long. -/
theorem findPackage_respelled_far :
    Single.tree.Spell ⟨"/home/proj"⟩ Single.far [Single.proj, Single.home] ∧
      Single.found ⟨"/home/proj"⟩ ≠ Single.found Single.far := by
  refine ⟨⟨by decide, Single.isAbsolute_far, by decide, Single.canonical_far⟩, fun heq => ?_⟩
  have hsome : (Single.found ⟨"/home/proj"⟩).outcome ≠ none := Single.found_outcome (by decide) rfl
  rw [heq, Single.found_far] at hsome
  exact hsome rfl

end PackageMap
