import PackageMap.Proofs.Path.Child
import PackageMap.Proofs.Resolve.Fields
import PackageMap.Proofs.Walk.Worklist

/-!
# Entries of packages

The file that a package's directory stands for is found by one rule, and the walk of the package
starts from the entries of its manifest. Where the two agree, the walk adds the file.
-/

namespace PackageMap

open Resolve

variable {t : Tree} {c : Config} {m : Manifest} {manifest : Json} {p dir f : Path}

/-- The walk of the package in a directory, from the entries of its manifest. -/
def walkPackage (t : Tree) (c : Config) (m : Manifest) (dir : Path) : Walker :=
  ((m.entries dir).filterMap id).foldl (Walker.walkEntry t c) { map := .empty }

theorem walkPackage_eq_runAll : walkPackage t c m dir =
    runAll t c .empty (((m.entries dir).filterMap id).map Start.entry) := by
  unfold walkPackage runAll
  rw [List.foldl_map]
  rfl

/-- An entry leads the walk to what it stands for, if that has a canonical path. -/
theorem path?_entry_iff (hg : t.Grounded) (hmaps : NoBrowserMaps t) :
    (Start.entry p).path? t c = some f ↔
      pathOf? t c.conventions p = some f ∧ ∃ loc, t.canonical f = .ok loc := by
  have hfound := (resolveEntry_of_faithful (c := c.conventions) (faithful_none t) p).2.2
  have hself {q : Path} {loc : Location}
      (ho : (resolveEntry t c.conventions none p).1.outcome = .resolved q)
      (hc : t.canonical q = .ok loc) : q = loc.path := by
    obtain ⟨o, hfile, rfl⟩ := hfound q ho
    exact Tree.canonicalOrSelf_eq_path hg hfile hc
  rw [← resolveEntry_file? hmaps, Outcome.file?_eq_some_iff]
  simp only [Start.path?]
  constructor
  · intro h
    split at h
    · next q ho =>
      cases hc : t.canonical q with
      | error e =>
        rw [hc] at h
        cases h
      | ok loc =>
        rw [hc] at h
        obtain rfl : loc.path = f := Option.some.inj h
        rw [← hself ho hc]
        exact ⟨ho, loc, hc⟩
    · cases h
  · rintro ⟨ho, loc, hc⟩
    rw [ho]
    dsimp only
    rw [hc]
    exact congrArg some (hself ho hc).symm

/-- The walk adds what one of the entries stands for, if it has a canonical path. -/
theorem walkPackage_contains_of_entry (hg : t.Grounded) (hmaps : NoBrowserMaps t)
    (hp : some p ∈ m.entries dir) (hf : pathOf? t c.conventions p = some f)
    (hcanonical : ∃ loc, t.canonical f = .ok loc) :
    (walkPackage t c m dir).map.contains f = true := by
  have hpath : (Start.entry p).path? t c = some f := (path?_entry_iff hg hmaps).2 ⟨hf, hcanonical⟩
  have ho : (resolveEntry t c.conventions none p).1.outcome = .resolved f :=
    Outcome.file?_eq_some_iff.1 ((resolveEntry_file? hmaps p).trans hf)
  have hread : (recordOf? t c f).isSome :=
    isSome_of_found hg ((resolveEntry_of_faithful (faithful_none t) p).2.2 f ho)
  have hstart : Start.entry p ∈ ((m.entries dir).filterMap id).map Start.entry :=
    List.mem_map_of_mem (List.mem_filterMap.2 ⟨some p, hp, rfl⟩)
  have hreaches := Walker.reaches_runAll hg (closed_reachable t c .empty
    (((m.entries dir).filterMap id).map Start.entry))
  rw [walkPackage_eq_runAll]
  exact (hreaches.start _ (by simpa using hstart) f hpath hread).resolve_right nofun

/-! ## Which entry it is -/

/-- The fields that the directory rule asks name entries of the walk. -/
theorem mem_entries_of_mem_fieldPaths (h : p ∈ fieldPaths dir manifest ["browser", "main"]) :
    some p ∈ (Manifest.ofJson manifest).entries dir := by
  obtain ⟨field, hfield, hp⟩ := List.mem_filterMap.1 h
  simp only [List.mem_cons, List.not_mem_nil, or_false] at hfield
  unfold Manifest.entries Manifest.ofJson
  rcases hfield with rfl | rfl
  · dsimp only
    rw [hp]
    simp
  · dsimp only
    rw [hp]
    simp

/-- Without another file of just that name, `index` stands for the index file. -/
theorem fileOf?_index (hf : indexOf? t {} dir = some f)
    (h : t.isFile (dir.child "index") = true → t.canonicalOrSelf (dir.child "index") = f) :
    fileOf? t {} (dir.child "index") = some f := by
  have hcandidates : fileCandidates {} (dir.child "index") =
      dir.child "index" :: indexCandidates {} dir := by
    unfold fileCandidates indexCandidates
    rw [funext (dir.append_child (by decide))]
  unfold indexOf? at hf
  unfold fileOf?
  rw [hcandidates, List.find?_cons]
  cases hfile : t.isFile (dir.child "index") with
  | true => exact congrArg some (h hfile)
  | false => exact hf

/-- The path of the first entry field that leads to a file. -/
def leadingPath? (t : Tree) (c : Conventions) (dir : Path) (manifest : Json) : Option Path :=
  (fieldPaths dir manifest c.mainFields).find? fun p => (fieldOf? t c p).isSome

theorem findSome?_eq_bind_find? {α β : Type} (g : α → Option β) (xs : List α) :
    xs.findSome? g = (xs.find? fun x => (g x).isSome).bind g := by
  induction xs with
  | nil => rfl
  | cons x xs ih =>
    rw [List.findSome?_cons, List.find?_cons]
    cases hx : g x with
    | none => exact ih
    | some y => exact hx.symm

theorem manifestOf?_eq {c : Conventions}
    (hmanifest : parseManifest t (dir.child manifestName) = some manifest) :
    manifestOf? t c dir = (leadingPath? t c dir manifest).bind (fieldOf? t c) := by
  unfold manifestOf? leadingPath?
  rw [hmanifest]
  exact findSome?_eq_bind_find? _ _

theorem directoryOf?_eq {c : Conventions}
    (hmanifest : parseManifest t (dir.child manifestName) = some manifest) :
    directoryOf? t c dir = if t.isDirectory dir then
      ((fieldPaths dir manifest c.mainFields).findSome? (fieldOf? t c)).or (indexOf? t c dir)
    else none := by
  unfold directoryOf? manifestOf?
  rw [hmanifest]
  rfl

/-- What sets the directory rule and the entries apart does not hold of the package. -/
structure EntryAgrees (t : Tree) (dir f : Path) (manifest : Json) : Prop where
  /-- A field that names a directory leads to its index file, and the directory's own manifest to
  no other. -/
  field : ∀ p, leadingPath? t {} dir manifest = some p → fileOf? t {} p = none →
    ∀ g, manifestOf? t {} p = some g → g = f
  /-- The index file stands for a missing `main`, not for one that leads nowhere, and not if there
  is another file `index`. -/
  index : leadingPath? t {} dir manifest = none →
    Manifest.declared (manifest.getString? "main") = none ∧
      (t.isFile (dir.child "index") = true → t.canonicalOrSelf (dir.child "index") = f)

/-- A field's path stands as an entry for what it leads to as a field, unless it names a directory
whose manifest names another file. -/
theorem pathOf?_of_fieldOf? {c : Conventions} (hf : fieldOf? t c p = some f)
    (hmanifest : fileOf? t c p = none → ∀ g, manifestOf? t c p = some g → g = f) :
    pathOf? t c p = some f := by
  unfold fieldOf? at hf
  unfold pathOf?
  cases hfile : fileOf? t c p with
  | some g =>
    rw [hfile] at hf
    exact hf
  | none =>
    rw [hfile, Option.none_or] at hf
    unfold directoryOf?
    split at hf
    · next hdir =>
      rw [if_pos hdir, hf, Option.none_or]
      cases hnamed : manifestOf? t c p with
      | none => rfl
      | some g => exact congrArg some (hmanifest hfile g hnamed)
    · cases hf

/-- Some entry of the walk stands for the file that the directory does. -/
theorem exists_entry (hmanifest : parseManifest t (dir.child manifestName) = some manifest)
    (hf : directoryOf? t {} dir = some f) (hagrees : EntryAgrees t dir f manifest) :
    ∃ p, some p ∈ (Manifest.ofJson manifest).entries dir ∧ pathOf? t {} p = some f := by
  unfold directoryOf? at hf
  split at hf
  · rw [manifestOf?_eq hmanifest] at hf
    cases hp : leadingPath? t {} dir manifest with
    | some p =>
      have hsome : (fieldOf? t {} p).isSome :=
        List.find?_some (p := fun p => (fieldOf? t {} p).isSome) hp
      rw [hp, Option.bind_some, Option.or_of_isSome hsome] at hf
      exact ⟨p, mem_entries_of_mem_fieldPaths (List.mem_of_find?_eq_some hp),
        pathOf?_of_fieldOf? hf (hagrees.field p hp)⟩
    | none =>
      obtain ⟨hmain, hindex⟩ := hagrees.index hp
      rw [hp, Option.bind_none, Option.none_or] at hf
      refine ⟨dir.child "index", ?_, ?_⟩
      · unfold Manifest.entries Manifest.ofJson
        dsimp only
        rw [hmain]
        exact List.mem_cons_self
      · unfold pathOf?
        rw [fileOf?_index hf hindex]
        rfl
  · cases hf

/-! ## Trees of texts -/

/-- Without a text that has an object under `browser` there are no browser maps. -/
theorem noBrowserMaps_of_texts (texts : List String)
    (hfiles : ∀ loc bytes, (loc, Entry.file bytes) ∈ t.entries → ∃ s ∈ texts, bytes = s.toUTF8)
    (hmaps : texts.all (fun s => ((Json.ofText? s).bind browserMap?).isNone) = true) :
    NoBrowserMaps t := by
  intro dir manifest h
  obtain ⟨s, hs, hj⟩ := exists_text_of_parseManifest hfiles h
  have hmap := List.all_eq_true.1 hmaps s hs
  rw [hj] at hmap
  exact Option.isNone_iff_eq_none.1 hmap

theorem read_manifest_of_text {text : String} {j : Json} (h : t.read p = .ok text.toUTF8)
    (hj : Json.ofText? text = some j) : Manifest.read t p = .ok (.ofJson j) :=
  Manifest.read_eq_ok_iff.2 ⟨_, text, j, h, Text.Utf8.strict?_toUTF8 text, hj, rfl⟩

/-- An empty file refers to nothing. -/
theorem not_refers_of_empty {q : Path} (h : t.read p = .ok "".toUTF8) : ¬ Refers t c p q := by
  have hnone : Source.specifiers (Text.Utf8.lossy "".toUTF8) = .ok [] := by cbv
  rintro ⟨r, specs, hr, hspecs, spec, hspec, -⟩
  unfold recordOf? at hr
  rw [h] at hr
  cases hr
  unfold requiresOf at hspecs
  dsimp only at hspecs
  rw [hnone] at hspecs
  split at hspecs
  · cases hspecs
    cases hspec
  · cases hspecs

/-! ## Where they do not agree -/

/-- The directory stands for a file that the walk of the package does not add. -/
def Misses (t : Tree) (dir f : Path) : Prop :=
  ∃ manifest, parseManifest t (dir.child manifestName) = some manifest ∧
    (resolveDirectory t {} dir ⟨none, [], []⟩).1 = .resolved f ∧
    (walkPackage t {} (Manifest.ofJson manifest) dir).map.contains f = false

/-- A file is missed if the only entry stands for another file, and that is empty, or for one
without canonical path. -/
theorem misses_of_entry (hg : t.Grounded) (hmaps : NoBrowserMaps t)
    (hmanifest : parseManifest t (dir.child manifestName) = some manifest)
    (hf : directoryOf? t {} dir = some f)
    (hentries : (Manifest.ofJson manifest).entries dir = [some p, none, none, none])
    (hother : ∀ q loc, pathOf? t {} p = some q → t.canonical q = .ok loc →
      t.read q = .ok "".toUTF8 ∧ ¬ q.Same f) : Misses t dir f := by
  refine ⟨manifest, hmanifest, ?_, ?_⟩
  · exact Outcome.file?_eq_some_iff.1 ((resolveDirectory_file? (faithful_none t) dir).trans hf)
  have hclosed : Closed t {} .empty [.entry p]
      fun q => pathOf? t {} p = some q ∧ ∃ loc, t.canonical q = .ok loc := by
    constructor
    case start =>
      intro s hs q hq _ _
      obtain rfl := List.mem_singleton.1 hs
      exact (path?_entry_iff hg hmaps).1 hq
    case target =>
      rintro q q' ⟨hq, loc, hc⟩ hrefers _ _
      exact (not_refers_of_empty (hother q loc hq hc).1 hrefers).elim
  rw [walkPackage_eq_runAll, hentries, ← Bool.not_eq_true, FileMap.contains_iff]
  rintro ⟨r, hr, hs⟩
  obtain ⟨hq, loc, hc⟩ := mem_of_closed hg hclosed hr nofun
  exact (hother _ loc hq hc).2 hs

/-- Four packages: `main` leads nowhere, to a directory with a manifest, and to one without, and
there is a file `index`. -/
def packages : Tree where
  entries :=
    [([⟨"a", by decide⟩], .directory),
      ([⟨"package.json", by decide⟩, ⟨"a", by decide⟩],
        .file "\x7b\"main\":\"gone.js\"\x7d".toUTF8),
      ([⟨"index.js", by decide⟩, ⟨"a", by decide⟩], .file "".toUTF8),
      ([⟨"b", by decide⟩], .directory),
      ([⟨"package.json", by decide⟩, ⟨"b", by decide⟩],
        .file "\x7b\"main\":\"lib\"\x7d".toUTF8),
      ([⟨"lib", by decide⟩, ⟨"b", by decide⟩], .directory),
      ([⟨"package.json", by decide⟩, ⟨"lib", by decide⟩, ⟨"b", by decide⟩],
        .file "\x7b\"main\":\"other.js\"\x7d".toUTF8),
      ([⟨"index.js", by decide⟩, ⟨"lib", by decide⟩, ⟨"b", by decide⟩], .file "".toUTF8),
      ([⟨"other.js", by decide⟩, ⟨"lib", by decide⟩, ⟨"b", by decide⟩], .file "".toUTF8),
      ([⟨"c", by decide⟩], .directory),
      ([⟨"package.json", by decide⟩, ⟨"c", by decide⟩], .file "\x7b\x7d".toUTF8),
      ([⟨"index", by decide⟩, ⟨"c", by decide⟩], .file "".toUTF8),
      ([⟨"index.js", by decide⟩, ⟨"c", by decide⟩], .file "".toUTF8),
      ([⟨"e", by decide⟩], .directory),
      ([⟨"package.json", by decide⟩, ⟨"e", by decide⟩],
        .file "\x7b\"browser\":\"gone.js\",\"main\":\"lib\"\x7d".toUTF8),
      ([⟨"lib", by decide⟩, ⟨"e", by decide⟩], .directory),
      ([⟨"index.js", by decide⟩, ⟨"lib", by decide⟩, ⟨"e", by decide⟩], .file "".toUTF8)]
  cwd := []

theorem grounded_packages : packages.Grounded := fun _ => trivial

theorem noBrowserMaps_packages : NoBrowserMaps packages := by
  refine noBrowserMaps_of_texts ["", "\x7b\x7d", "\x7b\"main\":\"gone.js\"\x7d",
    "\x7b\"main\":\"lib\"\x7d", "\x7b\"main\":\"other.js\"\x7d",
    "\x7b\"browser\":\"gone.js\",\"main\":\"lib\"\x7d"] ?_ (by cbv)
  intro loc bytes h
  simp only [packages, List.mem_cons, Prod.mk.injEq, List.not_mem_nil, or_false, reduceCtorEq,
    and_false, false_or, Entry.file.injEq] at h
  rcases h with ⟨-, rfl⟩ | ⟨-, rfl⟩ | ⟨-, rfl⟩ | ⟨-, rfl⟩ | ⟨-, rfl⟩ | ⟨-, rfl⟩ | ⟨-, rfl⟩ |
    ⟨-, rfl⟩ | ⟨-, rfl⟩ | ⟨-, rfl⟩ | ⟨-, rfl⟩ <;> exact ⟨_, by decide, rfl⟩

/-- The index file stands for the package, but not for a declared `main` as an entry. -/
theorem misses_declared_main : Misses packages ⟨"/a"⟩ ⟨"/a/index.js"⟩ := by
  have hmanifest : parseManifest packages ((Path.mk "/a").child manifestName) =
      some (.object [("main", .string "gone.js")]) := (parseManifest_of_read rfl).trans (by cbv)
  have hf : directoryOf? packages {} ⟨"/a"⟩ = some ⟨"/a/index.js"⟩ :=
    (directoryOf?_eq hmanifest).trans (by decide)
  have hgone : pathOf? packages {} ⟨"/a/gone.js"⟩ = none := by decide
  refine misses_of_entry grounded_packages noBrowserMaps_packages hmanifest hf rfl
    fun q loc hq _ => ?_
  cases hgone.symm.trans hq

/-- A field's directory has an index file, but its own manifest names another file. -/
theorem misses_own_manifest : Misses packages ⟨"/b"⟩ ⟨"/b/lib/index.js"⟩ := by
  have hmanifest : parseManifest packages ((Path.mk "/b").child manifestName) =
      some (.object [("main", .string "lib")]) := (parseManifest_of_read rfl).trans (by cbv)
  have hlib : parseManifest packages ((Path.mk "/b/lib").child manifestName) =
      some (.object [("main", .string "other.js")]) := (parseManifest_of_read rfl).trans (by cbv)
  have hf : directoryOf? packages {} ⟨"/b"⟩ = some ⟨"/b/lib/index.js"⟩ :=
    (directoryOf?_eq hmanifest).trans (by decide)
  have hother : pathOf? packages {} ⟨"/b/lib"⟩ = some ⟨"/b/lib/other.js"⟩ := by
    unfold pathOf?
    rw [directoryOf?_eq hlib]
    decide
  refine misses_of_entry grounded_packages noBrowserMaps_packages hmanifest hf rfl
    fun q loc hq _ => ?_
  obtain rfl := Option.some.inj (hother.symm.trans hq)
  exact ⟨rfl, by decide⟩

/-- A file of the name that stands for a missing `main` comes before the index file. -/
theorem misses_index_file : Misses packages ⟨"/c"⟩ ⟨"/c/index.js"⟩ := by
  have hmanifest : parseManifest packages ((Path.mk "/c").child manifestName) =
      some (.object []) := (parseManifest_of_read rfl).trans (by cbv)
  have hf : directoryOf? packages {} ⟨"/c"⟩ = some ⟨"/c/index.js"⟩ :=
    (directoryOf?_eq hmanifest).trans (by decide)
  have hindex : pathOf? packages {} ⟨"/c/index"⟩ = some ⟨"/c/index"⟩ := by decide
  refine misses_of_entry grounded_packages noBrowserMaps_packages hmanifest hf rfl
    fun q loc hq _ => ?_
  obtain rfl := Option.some.inj (hindex.symm.trans hq)
  exact ⟨rfl, by decide⟩

namespace Remote

open PackageMap.Tree

def link : Name := ⟨"p", by decide⟩

def manifestFile : Name := ⟨manifestName, by decide⟩

def indexFile : Name := ⟨"index.js", by decide⟩

def files (dir : Location) : List (Location × ByteArray) :=
  [(manifestFile :: dir, "\x7b\"main\":\"index.js\"\x7d".toUTF8),
    (indexFile :: dir, "".toUTF8)]

/-- A package in a directory, and a link to it in the root. -/
def tree (dir : Location) : Tree := linked dir link (files dir)

/-- The directory is beyond the limit. -/
structure Beyond (dir : Location) : Prop where
  ne_nil : dir ≠ []
  notLink : ¬ [link] <:+ dir
  long : ∀ n : Name, pathLimit ≤ (Location.path (n :: dir)).text.utf8ByteSize

variable {dir : Location}

theorem entry?_manifest (h : Beyond dir) : entry? (tree dir) (manifestFile :: dir) =
    some (.file "\x7b\"main\":\"index.js\"\x7d".toUTF8) := by
  refine entry?_linked_file h.ne_nil ?_
  unfold files
  rw [List.lookup_cons, beq_self_eq_true]

theorem entry?_index (h : Beyond dir) : entry? (tree dir) (indexFile :: dir) =
    some (.file "".toUTF8) := by
  have hne : indexFile :: dir ≠ manifestFile :: dir :=
    fun he => absurd (List.cons.inj he).1 (by decide)
  refine entry?_linked_file h.ne_nil ?_
  unfold files
  rw [List.lookup_cons, beq_false_of_ne hne, List.lookup_cons, beq_self_eq_true]

theorem locate_manifest (h : Beyond dir) :
    (tree dir).locate ⟨"/p/package.json"⟩ = .ok (manifestFile :: dir) :=
  locate_spelled (i := 0) (k := 0) h.notLink h.ne_nil (entry?_manifest h) nofun (by decide)

theorem locate_index (h : Beyond dir) :
    (tree dir).locate ⟨"/p/index.js"⟩ = .ok (indexFile :: dir) :=
  locate_spelled (i := 0) (k := 0) h.notLink h.ne_nil (entry?_index h) nofun (by decide)

theorem canonicalOrSelf_index (h : Beyond dir) :
    (tree dir).canonicalOrSelf ⟨"/p/index.js"⟩ = ⟨"/p/index.js"⟩ :=
  canonicalOrSelf_spelled (i := 0) (k := 0) h.notLink h.ne_nil (entry?_index h) nofun (by decide)
    (h.long indexFile)

theorem isDirectory_package (h : Beyond dir) : (tree dir).isDirectory ⟨"/p"⟩ = true := by
  have hd : entry? (tree dir) dir = some .directory := entry?_linked_of_suffix List.suffix_rfl
  have hl : (tree dir).locate ⟨"/p"⟩ = .ok dir := by
    refine locate_eq_ok_iff.2 ⟨by decide, ?_⟩
    have hsteps : stepsOf "/p" = [.name link.text] := by decide
    have hroot : (tree dir).startOf ⟨"/p"⟩ = [] := if_pos (by decide)
    rw [hroot, hsteps]
    exact leads_linked h.notLink h.ne_nil .done
  unfold isDirectory directory?
  rw [hl]
  dsimp only
  rw [hd]
  rfl

theorem canonical_index_ne (h : Beyond dir) (loc : Location) :
    (tree dir).canonical ⟨"/p/index.js"⟩ ≠ .ok loc := by
  intro hc
  have hself := canonicalOrSelf_index h
  obtain rfl := canonical_unique (locate_index h) hc
  unfold canonicalOrSelf at hself
  rw [hc] at hself
  have hpath : Location.path (indexFile :: dir) = ⟨"/p/index.js"⟩ := hself
  have hlong := h.long indexFile
  rw [hpath] at hlong
  exact absurd hlong (by decide)

theorem fileOf?_index (h : Beyond dir) : fileOf? (tree dir) {} ⟨"/p/index.js"⟩ =
    some ⟨"/p/index.js"⟩ := by
  have hfile : (tree dir).isFile ⟨"/p/index.js"⟩ = true :=
    isFile_iff.2 ⟨_, _, locate_index h, entry?_index h⟩
  unfold fileOf? fileCandidates
  rw [List.find?_cons_of_pos hfile, Option.map_some, canonicalOrSelf_index h]

theorem noBrowserMaps (dir : Location) : NoBrowserMaps (tree dir) := by
  refine noBrowserMaps_of_texts ["\x7b\"main\":\"index.js\"\x7d", ""] ?_ (by cbv)
  intro loc bytes h
  rcases List.mem_append.1 h with h | h
  · obtain ⟨d, -, hd⟩ := List.mem_map.1 h
    cases hd
  rcases List.mem_cons.1 h with h | h
  · cases h
  obtain ⟨file, hfile, he⟩ := List.mem_map.1 h
  simp only [files, List.mem_cons, List.not_mem_nil, or_false] at hfile
  rcases hfile with rfl | rfl
  · cases he
    exact ⟨_, List.mem_cons_self, rfl⟩
  · cases he
    exact ⟨"", by decide, rfl⟩

/-- A file beyond the limit stands for the package, but the walk finds no canonical path for it. -/
theorem misses (h : Beyond dir) : Misses (tree dir) ⟨"/p"⟩ ⟨"/p/index.js"⟩ := by
  have hmanifest : parseManifest (tree dir) ((Path.mk "/p").child manifestName) =
      some (.object [("main", .string "index.js")]) :=
    (parseManifest_of_read (read_eq_ok_iff.2 ⟨_, locate_manifest h, entry?_manifest h⟩)).trans
      (by cbv)
  have hf : directoryOf? (tree dir) {} ⟨"/p"⟩ = some ⟨"/p/index.js"⟩ := by
    have hpaths : fieldPaths ⟨"/p"⟩ (.object [("main", .string "index.js")]) ["browser", "main"] =
        [⟨"/p/index.js"⟩] := by decide
    rw [directoryOf?_eq hmanifest, if_pos (isDirectory_package h), hpaths, List.findSome?_cons,
      fieldOf?, fileOf?_index h]
    rfl
  refine misses_of_entry (p := ⟨"/p/index.js"⟩) (fun _ => trivial) (noBrowserMaps dir) hmanifest hf
    rfl fun q loc hq hc => ?_
  unfold pathOf? at hq
  rw [fileOf?_index h] at hq
  obtain rfl := Option.some.inj hq
  exact (canonical_index_ne h loc hc).elim

theorem beyond_deep : Beyond Twofold.deep where
  ne_nil := Twofold.deep_ne_nil
  notLink := by
    intro hs
    have hmem := hs.subset (List.mem_singleton_self _)
    exact absurd (List.eq_of_mem_replicate hmem) (by decide)
  long := Twofold.fits_deep.long

end Remote

/-! ## What the walk adds -/

/--
The walk of a package adds the file that its directory stands for. In a tree without browser maps it
does, with the default configuration, if the file has a canonical path and the directory rule and
the entries agree.
-/
theorem walkPackage_contains (hg : t.Grounded) (hmaps : NoBrowserMaps t)
    (hmanifest : parseManifest t (dir.child manifestName) = some manifest)
    (hf : (resolveDirectory t {} dir ⟨none, [], []⟩).1 = .resolved f)
    (hcanonical : ∃ loc, t.canonical f = .ok loc) (hagrees : EntryAgrees t dir f manifest) :
    (walkPackage t {} (Manifest.ofJson manifest) dir).map.contains f = true := by
  have hdir : directoryOf? t {} dir = some f :=
    (resolveDirectory_file? (faithful_none t) dir).symm.trans (Outcome.file?_eq_some_iff.2 hf)
  obtain ⟨p, hp, hpath⟩ := exists_entry hmanifest hdir hagrees
  exact walkPackage_contains_of_entry hg hmaps hp hpath hcanonical

/-- A field that leads nowhere, and one that names a directory without manifest. -/
theorem walkPackage_contains_lib :
    EntryAgrees packages ⟨"/e"⟩ ⟨"/e/lib/index.js"⟩
        (.object [("browser", .string "gone.js"), ("main", .string "lib")]) ∧
      (walkPackage packages {} (Manifest.ofJson
        (.object [("browser", .string "gone.js"), ("main", .string "lib")])) ⟨"/e"⟩).map.contains
          ⟨"/e/lib/index.js"⟩ = true := by
  have hmanifest : parseManifest packages ((Path.mk "/e").child manifestName) =
      some (.object [("browser", .string "gone.js"), ("main", .string "lib")]) :=
    (parseManifest_of_read rfl).trans (by cbv)
  have hdir : directoryOf? packages {} ⟨"/e"⟩ = some ⟨"/e/lib/index.js"⟩ :=
    (directoryOf?_eq hmanifest).trans (by decide)
  have hf : (resolveDirectory packages {} ⟨"/e"⟩ ⟨none, [], []⟩).1 = .resolved ⟨"/e/lib/index.js"⟩ :=
    Outcome.file?_eq_some_iff.1 ((resolveDirectory_file? (faithful_none _) _).trans hdir)
  have hleading : leadingPath? packages {} ⟨"/e"⟩
      (.object [("browser", .string "gone.js"), ("main", .string "lib")]) = some ⟨"/e/lib"⟩ := by
    decide
  have hlib : manifestOf? packages {} ⟨"/e/lib"⟩ = none := by decide
  have hagrees : EntryAgrees packages ⟨"/e"⟩ ⟨"/e/lib/index.js"⟩
      (.object [("browser", .string "gone.js"), ("main", .string "lib")]) := by
    constructor
    case field =>
      intro p hp _ g hg
      obtain rfl := Option.some.inj (hleading.symm.trans hp)
      cases hlib.symm.trans hg
    case index =>
      intro hnone
      cases hleading.symm.trans hnone
  exact ⟨hagrees, walkPackage_contains grounded_packages noBrowserMaps_packages hmanifest hf
    ⟨[⟨"index.js", by decide⟩, ⟨"lib", by decide⟩, ⟨"e", by decide⟩], by decide⟩ hagrees⟩

/-- The walk does not add every file that a directory stands for. -/
theorem walkPackage_misses :
    packages.Grounded ∧ NoBrowserMaps packages ∧
      Misses packages ⟨"/a"⟩ ⟨"/a/index.js"⟩ ∧
      Misses packages ⟨"/b"⟩ ⟨"/b/lib/index.js"⟩ ∧
      Misses packages ⟨"/c"⟩ ⟨"/c/index.js"⟩ ∧
      (Remote.tree Twofold.deep).Grounded ∧ NoBrowserMaps (Remote.tree Twofold.deep) ∧
      Misses (Remote.tree Twofold.deep) ⟨"/p"⟩ ⟨"/p/index.js"⟩ :=
  ⟨grounded_packages, noBrowserMaps_packages, misses_declared_main, misses_own_manifest,
    misses_index_file, fun _ => trivial, Remote.noBrowserMaps _, Remote.misses Remote.beyond_deep⟩

end PackageMap
