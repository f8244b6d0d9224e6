import PackageMap.Proofs.Path.Above
import PackageMap.Proofs.Resolve.Entry

/-!
# Enclosing packages

A directory belongs to the package in the nearest directory with a manifest, itself or above it. It
belongs to none if a directory of installed packages comes before, or if the manifest there does not
parse, whatever is further up (`enclosingPackage_eq_some_iff`).
-/

namespace PackageMap.Resolve

variable {t : Tree} {s : Search} {dir p : Path} {v : Json} {dirs : List Path}

/-- There is a file with the name of a manifest in the directory. -/
abbrev HasManifest (t : Tree) (dir : Path) : Prop := t.isFile (dir.child manifestName) = true

/-- The directory is one of installed packages, by its name. -/
abbrev HoldsPackages (dir : Path) : Prop := dir.fileName? = some modulesName

/-- The first of the directories with a manifest, where none up to it holds installed packages. -/
def FirstPackage (t : Tree) (dirs : List Path) (p : Path) : Prop :=
  ∃ below above, dirs = below ++ p :: above ∧ (∀ q ∈ below, ¬ HasManifest t q) ∧
    HasManifest t p ∧ ∀ q ∈ below ++ [p], ¬ HoldsPackages q

theorem firstPackage_cons_iff : FirstPackage t (dir :: dirs) p ↔ ¬ HoldsPackages dir ∧
    (HasManifest t dir ∧ p = dir ∨ ¬ HasManifest t dir ∧ FirstPackage t dirs p) := by
  constructor
  · rintro ⟨_ | ⟨q, below⟩, above, hdirs, hbelow, hp, hholds⟩
    · obtain ⟨rfl, rfl⟩ := List.cons.inj hdirs
      exact ⟨hholds dir List.mem_cons_self, .inl ⟨hp, rfl⟩⟩
    · obtain ⟨rfl, rfl⟩ := List.cons.inj hdirs
      obtain ⟨hdir, hbelow⟩ := List.forall_mem_cons.1 hbelow
      obtain ⟨hholds, hrest⟩ := List.forall_mem_cons.1 hholds
      exact ⟨hholds, .inr ⟨hdir, below, above, rfl, hbelow, hp, hrest⟩⟩
  · rintro ⟨hholds, ⟨hdir, rfl⟩ | ⟨hdir, below, above, rfl, hbelow, hp, hrest⟩⟩
    · exact ⟨[], dirs, rfl, nofun, hdir, by simpa using hholds⟩
    · exact ⟨dir :: below, above, rfl, List.forall_mem_cons.2 ⟨hdir, hbelow⟩, hp,
        List.forall_mem_cons.2 ⟨hholds, hrest⟩⟩

/-- In the first directory with a manifest the search ends, whether the manifest parses or not. -/
theorem enclosingOf?_of_first (h : FirstPackage t dirs p) :
    enclosingOf? t dirs = (parseManifest t (p.child manifestName)).map fun v => (p, v) := by
  induction dirs with
  | nil =>
    obtain ⟨below, above, hdirs, -⟩ := h
    cases below <;> cases hdirs
  | cons dir above ih =>
    unfold enclosingOf?
    obtain ⟨hholds, ⟨hdir, rfl⟩ | ⟨hdir, hrest⟩⟩ := firstPackage_cons_iff.1 h
    · rw [if_neg hholds, if_pos hdir]
    · rw [if_neg hholds, if_neg hdir, ih hrest]

theorem firstPackage_of_enclosingOf? (h : enclosingOf? t dirs = some (p, v)) :
    FirstPackage t dirs p := by
  induction dirs with
  | nil => cases h
  | cons dir above ih =>
    rw [firstPackage_cons_iff]
    unfold enclosingOf? at h
    split at h
    · cases h
    next hholds =>
    refine ⟨hholds, ?_⟩
    split at h
    · next hdir =>
      obtain ⟨v, -, hpair⟩ := Option.map_eq_some_iff.1 h
      exact .inl ⟨hdir, (congrArg Prod.fst hpair).symm⟩
    · next hdir => exact .inr ⟨hdir, ih h⟩

/-- The nearest directory with a manifest, at or above `dir`, where none from `dir` up to it holds
installed packages. -/
def Encloses (t : Tree) (p dir : Path) : Prop := FirstPackage t dir.ancestors p

/--
A directory has the enclosing package `p` with the manifest `v` if and only if `p` is the nearest
directory with a manifest, at or above it, none from there up to `p` holds installed packages, and
the manifest of `p` parses as `v`. In particular a nearest manifest that does not parse leaves the
directory without a package. What is at or above a directory is its path with components taken from
the end, and it makes no difference which manifests were read before.
-/
theorem enclosingPackage_eq_some_iff (h : Faithful t s.cache) (dir p : Path) (v : Json) :
    ((enclosingPackage t dir s).1 = some (p, v) ↔
        Encloses t p dir ∧ parseManifest t (p.child manifestName) = some v) ∧
      (Encloses t p dir → parseManifest t (p.child manifestName) = none →
        (enclosingPackage t dir s).1 = none) ∧
      dir.ancestors.map Path.components =
        (if dir.isAbsolute then dir.components.inits.tail else dir.components.inits).reverse := by
  have hpackage : (enclosingPackage t dir s).1 = enclosingOf? t dir.ancestors :=
    enclosingAmong_fst h dir.ancestors
  rw [hpackage]
  refine ⟨⟨fun hsome => ?_, fun ⟨hp, hv⟩ => ?_⟩, fun hp hnone => ?_, dir.components_ancestors⟩
  · have hp := firstPackage_of_enclosingOf? hsome
    rw [enclosingOf?_of_first hp] at hsome
    obtain ⟨w, hw, hpair⟩ := Option.map_eq_some_iff.1 hsome
    cases hpair
    exact ⟨hp, hw⟩
  · rw [enclosingOf?_of_first hp, hv, Option.map_some]
  · rw [enclosingOf?_of_first hp, hnone, Option.map_none]

/-- A project and an installed package in it, each with a manifest, and in the project a directory
with one that does not parse. -/
def brokenManifest : Tree where
  entries :=
    [([⟨"package.json", .refl true⟩], .file "\x7b\"name\":\"project\"\x7d".toUTF8),
      ([⟨"lib", .refl true⟩], .directory),
      ([⟨"package.json", .refl true⟩, ⟨"lib", .refl true⟩], .file "\x7b".toUTF8),
      ([⟨"node_modules", .refl true⟩], .directory),
      ([⟨"bare", .refl true⟩, ⟨"node_modules", .refl true⟩], .directory),
      ([⟨"p", .refl true⟩, ⟨"node_modules", .refl true⟩], .directory),
      ([⟨"package.json", .refl true⟩, ⟨"p", .refl true⟩, ⟨"node_modules", .refl true⟩],
        .file "\x7b\x7d".toUTF8),
      ([⟨"lib", .refl true⟩, ⟨"p", .refl true⟩, ⟨"node_modules", .refl true⟩], .directory)]
  cwd := []

/-- A directory in the installed package belongs to it, and the one with the broken manifest belongs
to no package, though the project has one. -/
theorem enclosingPackage_eq_some_iff_installed :
    Faithful brokenManifest none ∧
      (enclosingPackage brokenManifest ⟨"/node_modules/p/lib"⟩ ⟨none, [], []⟩).1 =
        some (⟨"/node_modules/p"⟩, .object []) ∧
      Encloses brokenManifest ⟨"/lib"⟩ ⟨"/lib"⟩ ∧
      parseManifest brokenManifest ⟨"/lib/package.json"⟩ = none ∧
      (enclosingPackage brokenManifest ⟨"/lib"⟩ ⟨none, [], []⟩).1 = none := by
  have hp : Encloses brokenManifest ⟨"/node_modules/p"⟩ ⟨"/node_modules/p/lib"⟩ :=
    ⟨[⟨"/node_modules/p/lib"⟩], [⟨"/node_modules"⟩, ⟨"/"⟩], by decide⟩
  have hlib : Encloses brokenManifest ⟨"/lib"⟩ ⟨"/lib"⟩ := ⟨[], [⟨"/"⟩], by decide⟩
  have hparse : parseManifest brokenManifest ⟨"/node_modules/p/package.json"⟩ =
      some (.object []) := (parseManifest_of_read rfl).trans (by cbv)
  have hbroken : parseManifest brokenManifest ⟨"/lib/package.json"⟩ = none :=
    (parseManifest_of_read rfl).trans (by cbv)
  have hnone := faithful_none brokenManifest
  refine ⟨hnone, ?_, hlib, hbroken, ?_⟩
  · exact (enclosingPackage_eq_some_iff hnone _ _ _).1.2 ⟨hp, hparse⟩
  · exact (enclosingPackage_eq_some_iff hnone _ _ .null).2.1 hlib hbroken

end PackageMap.Resolve
