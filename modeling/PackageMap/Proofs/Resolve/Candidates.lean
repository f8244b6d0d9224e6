import PackageMap.Proofs.Walk.Entries

/-!
# Candidates

A path stands for the first regular file in one list of candidates, and for nothing if the list
holds none (`resolvePath_first`). The order of the list is that of the search: the path alone and
with each extension, and for a directory what its manifest names and then the index file.
-/

namespace PackageMap.Resolve

variable {t : Tree} {c : Conventions} {s : Search} {p : Path}

/-! ## Lists of candidates -/

/-- The paths that a manifest's entry field may lead to, if it names the path `p`. -/
def fieldCandidates (t : Tree) (c : Conventions) (p : Path) : List Path :=
  fileCandidates c p ++ if t.isDirectory p then indexCandidates c p else []

/-- The paths that the manifest of a directory names, if there is one that parses. -/
def namedPaths (t : Tree) (c : Conventions) (dir : Path) : List Path :=
  match parseManifest t (dir.child manifestName) with
  | some manifest => fieldPaths dir manifest c.mainFields
  | none => []

/-- The paths that a directory may stand for. -/
def directoryCandidates (t : Tree) (c : Conventions) (dir : Path) : List Path :=
  (namedPaths t c dir).flatMap (fieldCandidates t c) ++ indexCandidates c dir

/-- The paths that a path may stand for. -/
def candidates (t : Tree) (c : Conventions) (p : Path) : List Path :=
  fileCandidates c p ++ if t.isDirectory p then directoryCandidates t c p else []

/-- The first of the paths that leads to a regular file, made canonical. -/
def firstFile? (t : Tree) (ps : List Path) : Option Path :=
  (ps.find? t.isFile).map t.canonicalOrSelf

theorem firstFile?_append (ps qs : List Path) :
    firstFile? t (ps ++ qs) = (firstFile? t ps).or (firstFile? t qs) := by
  unfold firstFile?
  rw [List.find?_append, Option.map_or]

theorem firstFile?_flatMap (ps : List Path) (f : Path → List Path) :
    firstFile? t (ps.flatMap f) = ps.findSome? fun p => firstFile? t (f p) := by
  induction ps with
  | nil => rfl
  | cons p ps ih =>
    rw [List.flatMap_cons, firstFile?_append, ih, List.findSome?_cons]
    cases firstFile? t (f p) with
    | some file => rfl
    | none => rfl

theorem firstFile?_ite (d : Bool) (ps : List Path) :
    firstFile? t (if d then ps else []) = if d then firstFile? t ps else none := by
  cases d <;> rfl

/-! ## What they are the candidates for -/

theorem firstFile?_fieldCandidates (p : Path) :
    firstFile? t (fieldCandidates t c p) = fieldOf? t c p := by
  unfold fieldCandidates
  rw [firstFile?_append, firstFile?_ite]
  rfl

theorem firstFile?_namedPaths (dir : Path) :
    firstFile? t ((namedPaths t c dir).flatMap (fieldCandidates t c)) = manifestOf? t c dir := by
  rw [firstFile?_flatMap]
  simp only [firstFile?_fieldCandidates]
  unfold namedPaths manifestOf?
  cases parseManifest t (dir.child manifestName) with
  | some manifest => rfl
  | none => rfl

theorem firstFile?_candidates (p : Path) : firstFile? t (candidates t c p) = pathOf? t c p := by
  unfold candidates directoryCandidates
  rw [firstFile?_append, firstFile?_ite, firstFile?_append, firstFile?_namedPaths]
  rfl

/--
A path is resolved to the first of its candidates that is a regular file, in its canonical form, or
as it is if a location on the way to it is too long to be written out. Without such a candidate the
path is unresolved, for the reason that it is a directory or that it is not.
-/
theorem resolvePath_first (h : Faithful t s.cache) (base : Path) :
    match (candidates t c base).find? t.isFile with
    | some q => ∃ loc, t.file? q = some loc ∧
        (t.canonical q = .ok loc ∧ (resolvePath t c base s).1 = .resolved loc.path ∨
          t.canonical q = .error .nameTooLong ∧ (resolvePath t c base s).1 = .resolved q)
    | none => (resolvePath t c base s).1 =
        .unresolved (if t.isDirectory base then .isDirectory else .notFound) := by
  have hfile : (resolvePath t c base s).1 =
      .ofFile? (firstFile? t (candidates t c base)) (missing t base) := by
    rw [firstFile?_candidates, resolvePath_fst h]
  rw [hfile]
  unfold firstFile?
  cases hfind : (candidates t c base).find? t.isFile with
  | none => rfl
  | some q =>
    obtain ⟨loc, hq, hc⟩ := Tree.canonicalOrSelf_of_isFile (List.find?_some hfind)
    have hresolved {f : Path} : t.canonicalOrSelf q = f →
        Outcome.resolved (t.canonicalOrSelf q) = .resolved f := congrArg Outcome.resolved
    exact ⟨loc, hq, hc.imp (And.imp_right hresolved) (And.imp_right hresolved)⟩

/-- A package whose first entry field leads nowhere and whose second names a directory, in which the
index file is a link to a file outside of the package. -/
def linkedIndex : Tree where
  entries :=
    [([⟨"z.js", by decide⟩], .file "".toUTF8),
      ([⟨"k", by decide⟩], .directory),
      ([Remote.manifestFile, ⟨"k", by decide⟩],
        .file "\x7b\"browser\":\"gone.js\",\"main\":\"s\"\x7d".toUTF8),
      ([⟨"s", by decide⟩, ⟨"k", by decide⟩], .directory),
      ([Remote.indexFile, ⟨"s", by decide⟩, ⟨"k", by decide⟩], .link "../../z.js")]
  cwd := []

/-- The package is resolved to where the link leads. -/
theorem resolvePath_first_linked :
    Faithful linkedIndex (some .empty) ∧
      (candidates linkedIndex {} ⟨"/k"⟩).find? linkedIndex.isFile = some ⟨"/k/s/index.js"⟩ ∧
      (resolvePath linkedIndex {} ⟨"/k"⟩ ⟨some .empty, [], []⟩).1 = .resolved ⟨"/z.js"⟩ := by
  have hmanifest : parseManifest linkedIndex ((Path.mk "/k").child manifestName) =
      some (.object [("browser", .string "gone.js"), ("main", .string "s")]) :=
    (parseManifest_of_read rfl).trans (by cbv)
  have hfind : (candidates linkedIndex {} ⟨"/k"⟩).find? linkedIndex.isFile =
      some ⟨"/k/s/index.js"⟩ := by
    unfold candidates directoryCandidates namedPaths
    rw [hmanifest]
    decide
  have hcanonical : linkedIndex.canonical ⟨"/k/s/index.js"⟩ = .ok [⟨"z.js", by decide⟩] := by
    decide
  have hfirst := resolvePath_first (c := {}) (s := ⟨some .empty, [], []⟩) (faithful_empty linkedIndex)
    ⟨"/k"⟩
  rw [hfind] at hfirst
  obtain ⟨loc, -, ⟨hloc, hresolved⟩ | ⟨hlong, -⟩⟩ := hfirst
  · obtain rfl := Except.ok.inj (hcanonical.symm.trans hloc)
    exact ⟨faithful_empty _, hfind, hresolved⟩
  · cases hcanonical.symm.trans hlong

/-- A file beyond the limit is resolved to the path that it was looked up with. It has no canonical
path, and the location that this path leads to is named otherwise. -/
theorem resolvePath_keeps_remote :
    (candidates (Remote.tree Twofold.deep) {} ⟨"/p/index.js"⟩).find?
        (Remote.tree Twofold.deep).isFile = some ⟨"/p/index.js"⟩ ∧
      (Remote.tree Twofold.deep).file? ⟨"/p/index.js"⟩ =
        some (Remote.indexFile :: Twofold.deep) ∧
      Location.path (Remote.indexFile :: Twofold.deep) ≠ ⟨"/p/index.js"⟩ ∧
      (Remote.tree Twofold.deep).canonical ⟨"/p/index.js"⟩ = .error .nameTooLong ∧
      (resolvePath (Remote.tree Twofold.deep) {} ⟨"/p/index.js"⟩ ⟨none, [], []⟩).1 =
        .resolved ⟨"/p/index.js"⟩ := by
  have hbeyond := Remote.beyond_deep
  have hl := Remote.locate_index hbeyond
  have hfile := Tree.isFile_iff.2 ⟨_, _, hl, Remote.entry?_index hbeyond⟩
  have hlong := hbeyond.long Remote.indexFile
  refine ⟨List.find?_cons_of_pos hfile, ?_, ?_, ?_, ?_⟩
  · exact Tree.file?_eq_some_iff.2 ⟨hl, _, Remote.entry?_index hbeyond⟩
  · intro hpath
    rw [hpath] at hlong
    exact absurd hlong (by decide)
  · exact (Tree.canonical_of_locate hl).resolve_left (Remote.canonical_index_ne hbeyond _)
  · rw [resolvePath_of_find (List.find?_cons_of_pos hfile), Remote.canonicalOrSelf_index hbeyond]

end PackageMap.Resolve
