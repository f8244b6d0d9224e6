import PackageMap.Proofs.Resolve.Fields

/-!
# Entries and browser maps

The file that an entry stands for depends on the tree alone, also where a browser map has another in
its place: not on the manifests that were read before, nor on what was looked at.
-/

namespace PackageMap

namespace Resolve

variable {t : Tree} {c : Conventions} {s : Search}

/-- The nearest of the directories with a manifest, and the manifest. -/
def enclosingOf? (t : Tree) : List Path → Option (Path × Json)
  | [] => none
  | dir :: above =>
    if dir.fileName? = some modulesName then none
    else if t.isFile (dir.child manifestName) then
      (parseManifest t (dir.child manifestName)).map fun j => (dir, j)
    else enclosingOf? t above

/-- The file that stands in the place of a file, unless it is dropped. -/
def aliasOf? (t : Tree) (c : Conventions) (file : Path) : Option Path :=
  match file.parent?.bind fun dir => enclosingOf? t dir.ancestors with
  | none => some file
  | some (package, manifest) =>
    match fileAlias? t c.extensions manifest package file with
    | none => some file
    | some .ignore => none
    | some (.replace target) => (pathOf? t c (package.child target)).or (some file)

/-- The file that an entry path stands for. -/
def entryOf? (t : Tree) (c : Conventions) (p : Path) : Option Path :=
  (pathOf? t c p).bind (aliasOf? t c)

theorem enclosingAmong_fst (h : Faithful t s.cache) (dirs : List Path) :
    (enclosingAmong t dirs s).1 = enclosingOf? t dirs := by
  induction dirs with
  | nil => rfl
  | cons dir above ih =>
    unfold enclosingAmong enclosingOf?
    split
    · rfl
    split
    · next hfile =>
      rw [bind_apply, (readManifest_spec hfile h).1]
      rfl
    · exact ih

theorem applyAlias_file? (h : Faithful t s.cache) (file : Path) :
    (applyAlias t c file s).1.file? = aliasOf? t c file := by
  unfold applyAlias aliasOf?
  cases file.parent? with
  | none => rfl
  | some dir =>
    have hpackage := enclosingAmong_fst h dir.ancestors
    have hcache := (steady_enclosingAmong dir.ancestors).faithful h
    dsimp only [Option.bind_some]
    rw [bind_apply, ← hpackage]
    unfold enclosingPackage
    generalize enclosingAmong t dir.ancestors s = found at hcache
    obtain ⟨_ | ⟨package, manifest⟩, s'⟩ := found
    · rfl
    · dsimp only
      cases fileAlias? t c.extensions manifest package file with
      | none => rfl
      | some a =>
        cases a with
        | ignore => rfl
        | replace target =>
          have hpath := resolvePath_file? (c := c) hcache (package.child target)
          have hget : (get : SearchM Search) s' = (s', s') := rfl
          dsimp only
          rw [bind_apply, hget, bind_apply, ← hpath]
          generalize resolvePath t c (package.child target) s' = replaced
          obtain ⟨o, s''⟩ := replaced
          cases o with
          | resolved replaced => rfl
          | ignored => rfl
          | unresolved reason => rfl

end Resolve

open Resolve

variable {t : Tree} {c : Conventions} {cache : Option ManifestCache}

/-- An entry stands for its file whatever was read before. -/
theorem resolveEntry_entryOf? (h : Faithful t cache) (p : Path) :
    (resolveEntry t c cache p).1.outcome.file? = entryOf? t c p := by
  have hpath := resolvePath_file? (c := c) (s := ⟨cache, [], []⟩) h p
  have hcache : Faithful t (resolvePath t c p ⟨cache, [], []⟩).2.cache :=
    (steady_resolvePath p).faithful h
  show ((resolvePath t c p >>= finish t c) ⟨cache, [], []⟩).1.file? = _
  unfold entryOf?
  rw [bind_apply, ← hpath]
  generalize resolvePath t c p ⟨cache, [], []⟩ = found at hcache
  obtain ⟨o, s'⟩ := found
  cases o with
  | resolved file => exact applyAlias_file? hcache file
  | ignored => rfl
  | unresolved reason => rfl

end PackageMap
