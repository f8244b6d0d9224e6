import PackageMap.Manifest
import PackageMap.Proofs.Resolve.Cache
import PackageMap.Proofs.Resolve.Search

/-!
# Entry fields

The file that a path or a directory stands for depends on the tree alone: on which candidates are
files, and on what the directory's manifest names. Without browser maps nothing else is asked.
-/

namespace PackageMap.Resolve

variable {t : Tree} {c : Conventions} {s : Search} {p dir f : Path}

/-! ## What paths stand for -/

/-- The file that a path leads to, alone or with an extension. -/
def fileOf? (t : Tree) (c : Conventions) (p : Path) : Option Path :=
  ((fileCandidates c p).find? t.isFile).map t.canonicalOrSelf

/-- The index file of a directory. -/
def indexOf? (t : Tree) (c : Conventions) (dir : Path) : Option Path :=
  ((indexCandidates c dir).find? t.isFile).map t.canonicalOrSelf

/-- The file that the path of an entry field leads to. -/
def fieldOf? (t : Tree) (c : Conventions) (p : Path) : Option Path :=
  (fileOf? t c p).or (if t.isDirectory p then indexOf? t c p else none)

/-- The paths that the fields of a manifest name, as far as they are declared. -/
def fieldPaths (dir : Path) (manifest : Json) (fields : List String) : List Path :=
  fields.filterMap fun field => (Manifest.declared (manifest.getString? field)).map dir.child

/-- The file that the manifest of a directory names. -/
def manifestOf? (t : Tree) (c : Conventions) (dir : Path) : Option Path :=
  (parseManifest t (dir.child manifestName)).bind fun manifest =>
    (fieldPaths dir manifest c.mainFields).findSome? (fieldOf? t c)

/-- The file that a directory stands for. -/
def directoryOf? (t : Tree) (c : Conventions) (dir : Path) : Option Path :=
  if t.isDirectory dir then (manifestOf? t c dir).or (indexOf? t c dir) else none

/-- The file that a path stands for. -/
def pathOf? (t : Tree) (c : Conventions) (p : Path) : Option Path :=
  (fileOf? t c p).or (directoryOf? t c p)

/-! ## Searches -/

theorem resolveField_fst (t : Tree) (c : Conventions) (p : Path) (s : Search) :
    (resolveField t c p s).1 = fieldOf? t c p := by
  have hfile : (firstFile t (fileCandidates c p) s).1 = fileOf? t c p := firstFile_fst _ _ _
  unfold resolveField fieldOf?
  rw [bind_apply, hfile]
  cases fileOf? t c p with
  | some file => rfl
  | none =>
    dsimp only
    split
    · exact firstFile_fst _ _ _
    · rfl

theorem resolveFields_fst (t : Tree) (c : Conventions) (dir : Path) (manifest : Json)
    (fields : List String) (s : Search) : (resolveFields t c dir manifest fields s).1 =
      (fieldPaths dir manifest fields).findSome? (fieldOf? t c) := by
  induction fields generalizing s with
  | nil => rfl
  | cons field fields ih =>
    unfold resolveFields fieldPaths
    rw [List.filterMap_cons]
    cases hentry : manifest.getString? field with
    | none => exact ih s
    | some entry =>
      by_cases hempty : entry = ""
      · subst hempty
        exact ih s
      · have hdeclared : Manifest.declared (some entry) = some entry := by
          simp [Manifest.declared, hempty]
        rw [hdeclared]
        dsimp only [Option.map_some]
        rw [if_neg hempty, bind_apply, resolveField_fst, List.findSome?_cons]
        cases fieldOf? t c (dir.child entry) with
        | some file => rfl
        | none => exact ih _

theorem faithful_note (h : Faithful t s.cache) (p : Path) : Faithful t (note p s).2.cache :=
  (steady_note p).faithful h

theorem resolveManifest_eq (h : Faithful t s.cache) (dir : Path) :
    (resolveManifest t c dir s).1 = manifestOf? t c dir := by
  unfold resolveManifest manifestOf?
  split
  · next hfile =>
    have hread := (readManifest_spec hfile (faithful_note h (dir.child manifestName))).1
    rw [bind_apply, bind_apply, hread]
    cases parseManifest t (dir.child manifestName) with
    | none => rfl
    | some manifest => exact resolveFields_fst _ _ _ _ _ _
  · next hfile =>
    have hnone : parseManifest t (dir.child manifestName) = none := by
      rw [Option.eq_none_iff_forall_not_mem]
      intro j hj
      exact hfile (isFile_of_parseManifest hj)
    rw [hnone]
    rfl

/-- The file that is resolved, if one is. -/
def Outcome.file? : Outcome → Option Path
  | .resolved file => some file
  | .ignored => none
  | .unresolved _ => none

theorem Outcome.file?_eq_some_iff {o : Outcome} : o.file? = some f ↔ o = .resolved f := by
  cases o <;> simp [file?]

/-- The file is resolved, or nothing is for the reason. -/
def Outcome.ofFile? (file : Option Path) (reason : Reason) : Outcome :=
  match file with
  | some f => .resolved f
  | none => .unresolved reason

theorem Outcome.file?_ofFile? (file : Option Path) (reason : Reason) :
    (Outcome.ofFile? file reason).file? = file := by
  cases file <;> rfl

/-- Why a path stands for no file. -/
def missing (t : Tree) (p : Path) : Reason := if t.isDirectory p then .isDirectory else .notFound

theorem resolveDirectory_fst (h : Faithful t s.cache) (dir : Path) :
    (resolveDirectory t c dir s).1 = .ofFile? (directoryOf? t c dir) (missing t dir) := by
  unfold resolveDirectory directoryOf? missing
  cases t.isDirectory dir with
  | false => rfl
  | true =>
    have hindex : (firstFile t (indexCandidates c dir) (resolveManifest t c dir s).2).1 =
        indexOf? t c dir := firstFile_fst _ _ _
    rw [if_neg (by decide), if_pos rfl, bind_apply, resolveManifest_eq h]
    cases manifestOf? t c dir with
    | some file => rfl
    | none =>
      dsimp only
      rw [bind_apply, hindex]
      cases indexOf? t c dir with
      | some file => rfl
      | none => rfl

theorem resolvePath_fst (h : Faithful t s.cache) (p : Path) :
    (resolvePath t c p s).1 = .ofFile? (pathOf? t c p) (missing t p) := by
  have hfile : (firstFile t (fileCandidates c p) s).1 = fileOf? t c p := firstFile_fst _ _ _
  have hcache : Faithful t (firstFile t (fileCandidates c p) s).2.cache :=
    (steady_firstFile (fileCandidates c p)).faithful h
  unfold resolvePath pathOf?
  rw [bind_apply, hfile]
  cases fileOf? t c p with
  | some file => rfl
  | none => exact resolveDirectory_fst hcache p

theorem resolveDirectory_file? (h : Faithful t s.cache) (dir : Path) :
    (resolveDirectory t c dir s).1.file? = directoryOf? t c dir := by
  rw [resolveDirectory_fst h, Outcome.file?_ofFile?]

theorem resolvePath_file? (h : Faithful t s.cache) (p : Path) :
    (resolvePath t c p s).1.file? = pathOf? t c p := by
  rw [resolvePath_fst h, Outcome.file?_ofFile?]

/-- A manifest is read from the text of a file. -/
theorem exists_text_of_parseManifest {texts : List String} {j : Json}
    (hfiles : ∀ loc bytes, (loc, Entry.file bytes) ∈ t.entries → ∃ s ∈ texts, bytes = s.toUTF8)
    (h : parseManifest t p = some j) : ∃ s ∈ texts, Json.ofText? s = some j := by
  cases hread : t.read p with
  | error e =>
    unfold parseManifest at h
    rw [hread] at h
    cases h
  | ok bytes =>
    obtain ⟨loc, hloc⟩ := t.mem_entries_of_read hread
    obtain ⟨s, hs, rfl⟩ := hfiles loc bytes hloc
    exact ⟨s, hs, (parseManifest_of_read hread).symm.trans h⟩

/-! ## Trees without browser maps -/

/-- No manifest has an object under `browser`. -/
def NoBrowserMaps (t : Tree) : Prop :=
  ∀ (dir : Path) (manifest : Json), parseManifest t (dir.child manifestName) = some manifest →
    browserMap? manifest = none

theorem fileAlias?_of_no_map {extensions : List String} {manifest : Json}
    (h : browserMap? manifest = none) (dir file : Path) :
    fileAlias? t extensions manifest dir file = none := by
  unfold fileAlias?
  rw [h]

theorem applyAlias_of_no_maps (hmaps : NoBrowserMaps t) (h : Faithful t s.cache) (file : Path) :
    (applyAlias t c file s).1 = .resolved file := by
  unfold applyAlias
  cases file.parent? with
  | none => rfl
  | some dir =>
    have hpackage := (steady_enclosingAmong dir.ancestors).holds h
    dsimp only
    rw [bind_apply]
    unfold enclosingPackage
    generalize enclosingAmong t dir.ancestors s = found at hpackage
    obtain ⟨_ | ⟨package, manifest⟩, s'⟩ := found
    · rfl
    · have hmap : browserMap? manifest = none :=
        hmaps package manifest (hpackage (package, manifest) (Option.mem_some_self _))
      dsimp only
      rw [fileAlias?_of_no_map hmap]
      rfl

/-- Without browser maps a path stands for what its candidates and manifests say. -/
theorem finish_file? (hmaps : NoBrowserMaps t) (p : Path) :
    ((resolvePath t c p >>= finish t c) ⟨none, [], []⟩).1.file? = pathOf? t c p := by
  have hpath : (resolvePath t c p ⟨none, [], []⟩).1.file? = pathOf? t c p :=
    resolvePath_file? (faithful_none t) p
  have hcache : Faithful t (resolvePath t c p ⟨none, [], []⟩).2.cache :=
    (steady_resolvePath p).faithful (faithful_none t)
  rw [bind_apply]
  generalize resolvePath t c p ⟨none, [], []⟩ = found at hpath hcache
  obtain ⟨o, s'⟩ := found
  cases o with
  | resolved file =>
    show (applyAlias t c file s').1.file? = _
    rw [applyAlias_of_no_maps hmaps hcache]
    exact hpath
  | ignored => exact hpath
  | unresolved reason => exact hpath

theorem resolveEntry_file? (hmaps : NoBrowserMaps t) (p : Path) :
    (resolveEntry t c none p).1.outcome.file? = pathOf? t c p :=
  finish_file? hmaps p

theorem resolve_file? (hmaps : NoBrowserMaps t) (file : Path) {spec : String} (hspec : spec ≠ "")
    (hscheme : hasScheme spec = false) (hbare : isBare spec = false) :
    (resolve t c none file spec).1.outcome.file? =
      pathOf? t c (specifierPath (Resolution.directoryOf file) spec) := by
  show (search t c (Resolution.directoryOf file) spec ⟨none, [], []⟩).1.file? = _
  rw [search_of_not_bare hspec hscheme hbare]
  exact finish_file? hmaps _

end PackageMap.Resolve
