import PackageMap.Resolve.Basic

/-!
# What searches find

A search for a path finds the first of its candidates that is a file. A file in a directory of
installed packages itself, and not in one of the packages, has no browser map to follow.
-/

namespace PackageMap.Resolve

variable {t : Tree} {c : Conventions} {s : Search} {p q dir : Path} {spec : String}

theorem bind_apply {α β : Type} (m : SearchM α) (f : α → SearchM β) (s : Search) :
    (m >>= f) s = f (m s).1 (m s).2 := rfl

theorem firstFile_fst (t : Tree) (ps : List Path) (s : Search) :
    (firstFile t ps s).1 = (ps.find? t.isFile).map t.canonicalOrSelf := by
  induction ps generalizing s with
  | nil => rfl
  | cons p ps ih =>
    unfold firstFile
    rw [bind_apply, List.find?_cons]
    cases hp : t.isFile p with
    | true => rfl
    | false => exact ih _

/-! ## Paths -/

theorem resolvePath_of_find (h : (fileCandidates c p).find? t.isFile = some q) :
    (resolvePath t c p s).1 = .resolved (t.canonicalOrSelf q) := by
  unfold resolvePath
  rw [bind_apply, firstFile_fst, h]
  rfl

/-- Without entry fields a manifest names no file. -/
theorem resolveManifest_fst (hmain : c.mainFields = []) (dir : Path) (s : Search) :
    (resolveManifest t c dir s).1 = none := by
  unfold resolveManifest
  split
  · rw [bind_apply, bind_apply]
    generalize readManifest t _ _ = manifest
    obtain ⟨manifest | manifest, s'⟩ := manifest
    · rfl
    · show (resolveFields t c dir manifest c.mainFields s').1 = none
      rw [hmain]
      rfl
  · rfl

theorem resolveDirectory_of_none (hindex : (indexCandidates c dir).find? t.isFile = none)
    (hmain : c.mainFields = []) :
    ∃ reason, (resolveDirectory t c dir s).1 = .unresolved reason := by
  unfold resolveDirectory
  split
  · exact ⟨.notFound, rfl⟩
  · rw [bind_apply, resolveManifest_fst hmain]
    dsimp only
    rw [bind_apply, firstFile_fst, hindex]
    exact ⟨.isDirectory, rfl⟩

theorem resolvePath_of_none (hfile : (fileCandidates c p).find? t.isFile = none)
    (hindex : (indexCandidates c p).find? t.isFile = none) (hmain : c.mainFields = []) :
    ∃ reason, (resolvePath t c p s).1 = .unresolved reason := by
  unfold resolvePath
  rw [bind_apply, firstFile_fst, hfile]
  exact resolveDirectory_of_none hindex hmain

/-! ## Specifiers -/

/-- The path that a relative or absolute specifier names. -/
def specifierPath (dir : Path) (spec : String) : Path :=
  if isRelative spec then dir.child spec else ⟨spec⟩

theorem search_of_not_bare (hspec : spec ≠ "") (hscheme : hasScheme spec = false)
    (hbare : isBare spec = false) :
    search t c dir spec = resolvePath t c (specifierPath dir spec) >>= finish t c := by
  have hspecifier : resolveSpecifier t c dir spec = resolvePath t c (specifierPath dir spec) := by
    unfold resolveSpecifier specifierPath
    by_cases hrel : isRelative spec
    · rw [if_pos hrel, if_pos hrel]
    · have habs : isAbsolute spec = true := by simpa [isBare, hrel] using hbare
      rw [if_neg hrel, if_pos habs, if_neg hrel]
  unfold search bareAlias?
  rw [if_neg hspec, if_neg (by simp [hscheme]), if_neg (by simp [hbare]), hspecifier]
  rfl

theorem applyAlias_of_modules {file : Path}
    (h : file.parent?.bind Path.fileName? = some modulesName) :
    applyAlias t c file s = (.resolved file, s) := by
  obtain ⟨dir, hdir, hname⟩ := Option.bind_eq_some_iff.1 h
  have hnone : enclosingPackage t dir = pure none := by
    unfold enclosingPackage Path.ancestors enclosingAmong
    rw [if_pos hname]
  unfold applyAlias
  rw [hdir]
  dsimp only
  rw [hnone]
  rfl

/-- A specifier finds the first candidate of its path, if that lies in a directory of installed
packages itself. -/
theorem search_of_find (hspec : spec ≠ "") (hscheme : hasScheme spec = false)
    (hbare : isBare spec = false)
    (hfind : (fileCandidates c (specifierPath dir spec)).find? t.isFile = some q)
    (hq : (t.canonicalOrSelf q).parent?.bind Path.fileName? = some modulesName) :
    (search t c dir spec s).1 = .resolved (t.canonicalOrSelf q) := by
  rw [search_of_not_bare hspec hscheme hbare, bind_apply, resolvePath_of_find hfind]
  show (applyAlias t c (t.canonicalOrSelf q) _).1 = _
  rw [applyAlias_of_modules hq]

/-- A specifier finds nothing if no candidate of its path is a file and no manifest is asked. -/
theorem search_of_none (hspec : spec ≠ "") (hscheme : hasScheme spec = false)
    (hbare : isBare spec = false) (hmain : c.mainFields = [])
    (hfile : (fileCandidates c (specifierPath dir spec)).find? t.isFile = none)
    (hindex : (indexCandidates c (specifierPath dir spec)).find? t.isFile = none) :
    ∃ reason, (search t c dir spec s).1 = .unresolved reason := by
  obtain ⟨reason, hr⟩ := resolvePath_of_none (s := s) hfile hindex hmain
  rw [search_of_not_bare hspec hscheme hbare, bind_apply, hr]
  exact ⟨reason, rfl⟩

end PackageMap.Resolve
