import PackageMap.Proofs.Path.Order
import PackageMap.Proofs.Seed.Below
import PackageMap.Proofs.Tree.Deep
import PackageMap.Proofs.Tree.Descent
import PackageMap.Proofs.Tree.Inside

/-!
# The Reason sources of a project

A seed has the Reason files in the directories of packages, each under its canonical path and once,
and there is one unless something is beyond a limit (`reason_seed`).

1. The directories of packages come in one order whatever order their manifests come in
   (`reasonDirectories_same`), and what is in them does not depend on how they are written
   (`sources_of_same`).
2. The leaves of all files are put into one map, which has all of them (`FileMap.mem_ofList_iff`),
   since no two files have the same path.
-/

namespace PackageMap

/-! ## Lists and maps -/

theorem flatMap_eq_of_forall₂ {α β : Type} {R : α → α → Prop} {g : α → List β} {as bs : List α}
    (h : List.Forall₂ R as bs) (hg : ∀ a ∈ as, ∀ b ∈ bs, R a b → g a = g b) :
    as.flatMap g = bs.flatMap g := by
  induction h with
  | nil => rfl
  | cons hab _ ih =>
    rw [List.flatMap_cons, List.flatMap_cons, hg _ List.mem_cons_self _ List.mem_cons_self hab,
      ih fun a ha b hb => hg a (List.mem_cons_of_mem _ ha) b (List.mem_cons_of_mem _ hb)]

/-- What is put into a map is in it, unless another record has its path. -/
theorem FileMap.mem_insert_iff {map : FileMap} {r s : FileRecord}
    (h : ∀ s ∈ map.records.toList, s.path.Same r.path → s = r) :
    s ∈ (map.insert r).records.toList ↔ s ∈ map.records.toList ∨ s = r := by
  cases hc : map.contains r.path with
  | true =>
    obtain ⟨r', hr', hsame⟩ := (contains_iff map r.path).1 hc
    obtain rfl := h r' hr' hsame
    rw [insert_of_contains hc]
    exact ⟨.inl, fun hs => hs.elim id fun hs => hs ▸ hr'⟩
  | false => rw [records_insert hc, Array.toList_push, List.mem_append, List.mem_singleton]

theorem FileMap.mem_ofList_iff {rs : List FileRecord} {r : FileRecord}
    (h : ∀ r ∈ rs, ∀ s ∈ rs, r.path.Same s.path → r = s) :
    r ∈ (FileMap.ofList rs).records.toList ↔ r ∈ rs := by
  induction rs using List.reverseRecOn generalizing r with
  | nil => rfl
  | append_singleton rs s ih =>
    have hs := List.mem_append_right rs (List.mem_singleton_self s)
    have ih {r : FileRecord} : r ∈ (FileMap.ofList rs).records.toList ↔ r ∈ rs :=
      ih fun r hr r' hr' => h r (List.mem_append_left _ hr) r' (List.mem_append_left _ hr')
    unfold ofList at ih ⊢
    rw [List.foldl_concat, mem_insert_iff, ih, List.mem_append, List.mem_singleton]
    exact fun r hr => h r (List.mem_append_left _ (ih.1 hr)) s hs

namespace Seeder

open Installed (pathBelow)
open Resolve (modulesName)

variable {t : Tree} {m m' : PathTable Manifest} {dir dir' : Path} {loc base base' : Location}
  {names : List Name} {bytes : ByteArray}

/-! ## Packages -/

/-- The directory of a manifest, if a build configuration is in it. -/
def IsPackage (t : Tree) (m : PathTable Manifest) (dir : Path) : Prop :=
  ∃ key ∈ m.keys, key.parent? = some dir ∧ t.isFile (dir.child buildName) = true

theorem mem_reasonDirectories_iff : dir ∈ reasonDirectories t m ↔ IsPackage t m dir := by
  unfold reasonDirectories IsPackage
  rw [(Ordered.sort_perm _ _).mem_iff, List.mem_filter, List.mem_filterMap]
  constructor
  · rintro ⟨⟨key, hkey, hdir⟩, hbuild⟩
    exact ⟨key, hkey, hdir, hbuild⟩
  · rintro ⟨key, hkey, hdir, hbuild⟩
    exact ⟨⟨key, hkey, hdir⟩, hbuild⟩

theorem exists_directory? (hdir : dir.text ≠ "") (h : t.isFile (dir.child buildName) = true) :
    ∃ base, t.directory? dir = some base := by
  obtain ⟨loc, bytes, hl, -⟩ := Tree.isFile_iff.1 h
  obtain ⟨j, base, hbase, -⟩ := Tree.exists_leads_of_child hdir (by decide) hl
  exact ⟨base, hbase⟩

/-- The package in a directory can be searched to the end. -/
structure Fits (t : Tree) (dir : Path) : Prop where
  named : dir.text ≠ ""
  below : ∀ base, t.directory? dir = some base → FitsBelow t dir base

/-- The locations of the Reason files of the package in a directory. -/
def sources (t : Tree) (dir : Path) : List Location :=
  match t.directory? dir with
  | some base => sourcesBelow t (t.entries.length + 1) base
  | .none => []

theorem reasonFiles_eq_ok_iff (h : t.isFile (dir.child buildName) = true) {locs : List Location} :
    reasonFiles t dir = .ok locs ↔ Fits t dir ∧ locs = sources t dir := by
  by_cases hdir : dir.text = ""
  · refine iff_of_false (fun hlocs => ?_) fun hfits => hfits.1.named hdir
    unfold reasonFiles reasonFilesBelow at hlocs
    cases hl : t.locate dir with
    | error e =>
      rw [hl] at hlocs
      cases hlocs
    | ok loc => exact Tree.text_ne_of_emptyError? (Tree.locate_eq_ok_iff_reaches.1 hl).2.empty hdir
  · obtain ⟨base, hbase⟩ := exists_directory? hdir h
    obtain ⟨hl, hd⟩ := Tree.directory?_eq_some_iff.1 hbase
    have hfits : Fits t dir ↔ FitsBelow t dir base := by
      constructor
      · exact fun hfits => hfits.below base hbase
      · refine fun hfits => ⟨hdir, fun base' hbase' => ?_⟩
        obtain rfl := Option.some.inj (hbase.symm.trans hbase')
        exact hfits
    unfold reasonFiles sources
    rw [hbase, hfits]
    exact reasonFilesBelow_eq_ok_iff (Tree.locate_eq_ok_iff_reaches.1 hl).2 hd
      fun names hnames => Nat.lt_succ_of_le hnames.length_le

theorem sources_of_same (h : dir.Same dir') (hbase : t.directory? dir = some base)
    (hbase' : t.directory? dir' = some base') : sources t dir = sources t dir' := by
  obtain rfl := Tree.locate_unique h (Tree.directory?_eq_some_iff.1 hbase).1
    (Tree.directory?_eq_some_iff.1 hbase').1
  unfold sources
  rw [hbase, hbase']

/-! ## Leaves -/

/-- The leaf for the file at a location. -/
def leafAt (t : Tree) (loc : Location) : FileRecord :=
  .leaf loc.path
    (match t.readAt loc with
    | .ok bytes => Text.Utf8.lossy bytes
    | .error _ => "")

theorem leafAt_of_entry? (h : t.entry? loc = some (.file bytes)) :
    leafAt t loc = .leaf loc.path (Text.Utf8.lossy bytes) := by
  unfold leafAt Tree.readAt
  rw [h]

theorem addLeaves_eq {locs : List Location} (map : FileMap)
    (h : ∀ loc ∈ locs, ∃ bytes, t.entry? loc = some (.file bytes)) :
    addLeaves t map locs = .ok ((locs.map (leafAt t)).foldl FileMap.insert map) := by
  induction locs generalizing map with
  | nil => rfl
  | cons loc locs ih =>
    obtain ⟨⟨bytes, he⟩, hlocs⟩ := List.forall_mem_cons.1 h
    have hread : t.readAt loc = .ok bytes := by
      unfold Tree.readAt
      rw [he]
    unfold addLeaves
    rw [hread, List.map_cons, List.foldl_cons, leafAt_of_entry? he]
    exact ih _ hlocs

theorem exists_entry?_of_mem_sources (h : loc ∈ sources t dir) :
    ∃ bytes, t.entry? loc = some (.file bytes) := by
  unfold sources at h
  split at h
  · obtain ⟨names, n, bytes, -, hholds, rfl⟩ := mem_sourcesBelow_iff.1 h
    exact ⟨bytes, hholds.entry⟩
  · cases h

theorem addPackages_eq_ok_iff {dirs : List Path} {map map' : FileMap}
    (h : ∀ dir ∈ dirs, t.isFile (dir.child buildName) = true) :
    addPackages t map dirs = .ok map' ↔ (∀ dir ∈ dirs, Fits t dir) ∧
      map' = ((dirs.flatMap (sources t)).map (leafAt t)).foldl FileMap.insert map := by
  induction dirs generalizing map with
  | nil => simp [addPackages, eq_comm]
  | cons dir dirs ih =>
    obtain ⟨hbuild, hdirs⟩ := List.forall_mem_cons.1 h
    have hfiles {locs : List Location} := @reasonFiles_eq_ok_iff t dir hbuild locs
    rw [List.forall_mem_cons, List.flatMap_cons, List.map_append, List.foldl_append]
    unfold addPackages
    cases hlocs : reasonFiles t dir with
    | error e =>
      refine iff_of_false nofun fun hfits => ?_
      cases hlocs.symm.trans (hfiles.2 ⟨hfits.1.1, rfl⟩)
    | ok locs =>
      obtain ⟨hfits, rfl⟩ := hfiles.1 hlocs
      dsimp only
      rw [addLeaves_eq map fun loc hloc => exists_entry?_of_mem_sources hloc, and_iff_right hfits]
      exact ih hdirs

/-! ## Seeds -/

theorem seed_eq_ok_iff {map : FileMap} : reason.seed t m = .ok map ↔
    (∀ dir, IsPackage t m dir → Fits t dir) ∧
      map = .ofList (((reasonDirectories t m).flatMap (sources t)).map (leafAt t)) := by
  unfold reason
  dsimp only
  rw [addPackages_eq_ok_iff]
  · simp only [mem_reasonDirectories_iff]
    rfl
  · intro dir hdir
    obtain ⟨-, -, -, hbuild⟩ := mem_reasonDirectories_iff.1 hdir
    exact hbuild

theorem exists_seed_iff :
    (∃ map, reason.seed t m = .ok map) ↔ ∀ dir, IsPackage t m dir → Fits t dir := by
  simp only [seed_eq_ok_iff]
  exact ⟨fun ⟨_, hfits, _⟩ => hfits, fun hfits => ⟨_, hfits, rfl⟩⟩

theorem IsPackage.of_perm (h : m'.keys.Perm m.keys) (hdir : IsPackage t m' dir) :
    IsPackage t m dir := by
  obtain ⟨key, hkey, hparent, hbuild⟩ := hdir
  exact ⟨key, h.mem_iff.1 hkey, hparent, hbuild⟩

theorem reasonDirectories_same (h : m'.keys.Perm m.keys) :
    List.Forall₂ Path.Same (reasonDirectories t m') (reasonDirectories t m) :=
  Path.forall₂_same_sort ((h.filterMap _).filter _)

/-- The files come in one order whatever order the manifests come in. -/
theorem flatMap_sources_of_perm (h : m'.keys.Perm m.keys)
    (hfits : ∀ dir, IsPackage t m dir → Fits t dir) :
    (reasonDirectories t m').flatMap (sources t) = (reasonDirectories t m).flatMap (sources t) := by
  have hbase (dir : Path) (hdir : IsPackage t m dir) : ∃ base, t.directory? dir = some base := by
    obtain ⟨-, -, -, hbuild⟩ := id hdir
    exact exists_directory? (hfits dir hdir).named hbuild
  refine flatMap_eq_of_forall₂ (reasonDirectories_same h) fun dir hdir dir' hdir' hsame => ?_
  obtain ⟨base, hdir⟩ := hbase dir ((mem_reasonDirectories_iff.1 hdir).of_perm h)
  obtain ⟨base', hdir'⟩ := hbase dir' (mem_reasonDirectories_iff.1 hdir')
  exact sources_of_same hsame hdir hdir'

theorem seed_of_perm (h : m'.keys.Perm m.keys) {map : FileMap} :
    reason.seed t m' = .ok map ↔ reason.seed t m = .ok map := by
  have hpackages (dir : Path) : IsPackage t m' dir ↔ IsPackage t m dir :=
    ⟨.of_perm h, .of_perm h.symm⟩
  rw [seed_eq_ok_iff, seed_eq_ok_iff]
  simp only [hpackages]
  refine and_congr_right fun hfits => ?_
  rw [flatMap_sources_of_perm h hfits]

/-- A Reason file of a package, where it is and what is in it. -/
def IsSource (t : Tree) (m : PathTable Manifest) (loc : Location) (bytes : ByteArray) : Prop :=
  ∃ dir base names n, IsPackage t m dir ∧ t.directory? dir = some base ∧
    Holds t base names n bytes ∧ loc = n :: (names.reverse ++ base)

theorem IsSource.entry (h : IsSource t m loc bytes) : t.entry? loc = some (.file bytes) := by
  obtain ⟨dir, base, names, n, -, -, hholds, rfl⟩ := h
  exact hholds.entry

theorem mem_flatMap_sources_iff :
    loc ∈ (reasonDirectories t m).flatMap (sources t) ↔ ∃ bytes, IsSource t m loc bytes := by
  rw [List.mem_flatMap]
  constructor
  · rintro ⟨dir, hdir, hloc⟩
    unfold sources at hloc
    split at hloc
    · next base hbase =>
      obtain ⟨names, n, bytes, -, hholds, rfl⟩ := mem_sourcesBelow_iff.1 hloc
      exact ⟨bytes, dir, base, names, n, mem_reasonDirectories_iff.1 hdir, hbase, hholds, rfl⟩
    · cases hloc
  · rintro ⟨bytes, dir, base, names, n, hdir, hbase, hholds, rfl⟩
    refine ⟨dir, mem_reasonDirectories_iff.2 hdir, ?_⟩
    unfold sources
    rw [hbase]
    exact mem_sourcesBelow_iff.2
      ⟨names, n, bytes, Nat.lt_succ_of_le hholds.descends.down.length_le, hholds, rfl⟩

/-- The records of a seed are the leaves of the Reason files. -/
theorem mem_seed_iff {map : FileMap} (h : reason.seed t m = .ok map) {r : FileRecord} :
    r ∈ map.records.toList ↔
      ∃ loc bytes, IsSource t m loc bytes ∧ r = .leaf loc.path (Text.Utf8.lossy bytes) := by
  obtain ⟨-, rfl⟩ := seed_eq_ok_iff.1 h
  rw [FileMap.mem_ofList_iff, List.mem_map]
  · simp only [mem_flatMap_sources_iff]
    constructor
    · rintro ⟨loc, ⟨bytes, hsource⟩, rfl⟩
      exact ⟨loc, bytes, hsource, leafAt_of_entry? hsource.entry⟩
    · rintro ⟨loc, bytes, hsource, rfl⟩
      exact ⟨loc, ⟨bytes, hsource⟩, leafAt_of_entry? hsource.entry⟩
  · simp only [List.forall_mem_map]
    intro loc _ loc' _ hsame
    rw [Tree.eq_of_same_path hsame]

/-- The enumeration comes to a Reason file by a path that has the canonical path of the file. -/
theorem IsSource.canonical (h : IsSource t m loc bytes)
    (hfits : ∀ dir, IsPackage t m dir → Fits t dir) : ∃ q, t.canonical q = .ok loc := by
  obtain ⟨dir, base, names, n, hdir, hbase, hholds, rfl⟩ := h
  obtain ⟨hl, hd⟩ := Tree.directory?_eq_some_iff.1 hbase
  have hdown := hholds.descends.down
  have hreaches := (reaches_below (Tree.locate_eq_ok_iff_reaches.1 hl).2 hd hdown).child
    (hdown.entry? hd) hholds.entry nofun
  refine ⟨_, hreaches.canonical.resolve_right ?_⟩
  exact ((hfits dir hdir).below base hbase).written names n bytes hholds

/-- Packages that can all be searched to the end have one seed, whatever order their manifests come
in: a leaf under the canonical path of each of their Reason files, and nothing else. -/
theorem reason_seed (t : Tree) (m : PathTable Manifest) :
    (∀ m' : PathTable Manifest, m'.keys.Perm m.keys →
      ∀ map, reason.seed t m' = .ok map ↔ reason.seed t m = .ok map) ∧
    ((∃ map, reason.seed t m = .ok map) ↔ ∀ dir, IsPackage t m dir → Fits t dir) ∧
    ∀ map, reason.seed t m = .ok map →
      (∀ r, r ∈ map.records.toList ↔
        ∃ loc bytes, IsSource t m loc bytes ∧ r = .leaf loc.path (Text.Utf8.lossy bytes)) ∧
      (map.records.toList.map FileRecord.path).Nodup ∧
      ∀ loc bytes, IsSource t m loc bytes →
        (∃ q, t.canonical q = .ok loc) ∧ (t.Grounded → t.canonical loc.path = .ok loc) := by
  refine ⟨fun m' h map => seed_of_perm h, exists_seed_iff, fun map hmap => ⟨?_, ?_, ?_⟩⟩
  · exact fun r => mem_seed_iff hmap
  · refine List.pairwise_map.2 (map.records_pairwise.imp fun hsame hpath => hsame ?_)
    exact congrArg Path.components hpath
  · intro loc bytes hsource
    obtain ⟨q, hq⟩ := hsource.canonical (seed_eq_ok_iff.1 hmap).1
    exact ⟨⟨q, hq⟩, fun hg => Tree.canonical_canonical hg hq⟩

namespace Linked

def package : Location := [⟨"r", .refl true⟩, ⟨"p", .refl true⟩]

def source : Location := ⟨"a.re", .refl true⟩ :: package

def build : Location := ⟨"bsconfig.json", .refl true⟩ :: package

/-- A package that is also found under a link, with another one inside. -/
def tree : Tree where
  entries :=
    [([⟨"p", .refl true⟩], .directory), ([⟨"s", .refl true⟩, ⟨"p", .refl true⟩], .link "r"),
      (package, .directory), (build, .file "\x7b\x7d".toUTF8),
      (source, .file "let x = 1;".toUTF8), (⟨"node_modules", .refl true⟩ :: package, .directory),
      (⟨"b.re", .refl true⟩ :: ⟨"node_modules", .refl true⟩ :: package, .file "let y = 2;".toUTF8)]
  cwd := []

def manifests : PathTable Manifest :=
  .ofList [(⟨"/p/s/package.json"⟩, {}), (⟨"/p/r/package.json"⟩, {})]

def manifestsBack : PathTable Manifest :=
  .ofList [(⟨"/p/r/package.json"⟩, {}), (⟨"/p/s/package.json"⟩, {})]

theorem eq_or_eq_of_isPackage (h : IsPackage tree manifests dir) :
    dir = ⟨"/p/r"⟩ ∨ dir = ⟨"/p/s"⟩ := by
  obtain ⟨key, hkey, hdir, -⟩ := h
  have hkeys : manifests.keys = [⟨"/p/s/package.json"⟩, ⟨"/p/r/package.json"⟩] := rfl
  have hs : (Path.mk "/p/s/package.json").parent? = some ⟨"/p/s"⟩ := by decide
  have hr : (Path.mk "/p/r/package.json").parent? = some ⟨"/p/r"⟩ := by decide
  rw [hkeys, List.mem_pair] at hkey
  rcases hkey with rfl | rfl
  · exact .inr (Option.some.inj (hdir.symm.trans hs))
  · exact .inl (Option.some.inj (hdir.symm.trans hr))

theorem canonical_child (h : dir = ⟨"/p/r"⟩ ∨ dir = ⟨"/p/s"⟩) :
    tree.canonical (dir.child "a.re") = .ok source ∧
      tree.canonical (dir.child buildName) = .ok build := by
  rcases h with rfl | rfl
  · have hsource : (Path.mk "/p/r").child "a.re" = ⟨"/p/r/a.re"⟩ := by decide
    have hbuild : (Path.mk "/p/r").child buildName = ⟨"/p/r/bsconfig.json"⟩ := by decide
    rw [hsource, hbuild]
    decide +kernel
  · have hsource : (Path.mk "/p/s").child "a.re" = ⟨"/p/s/a.re"⟩ := by decide
    have hbuild : (Path.mk "/p/s").child buildName = ⟨"/p/s/bsconfig.json"⟩ := by decide
    rw [hsource, hbuild]
    decide +kernel

theorem fits (h : dir = ⟨"/p/r"⟩ ∨ dir = ⟨"/p/s"⟩) : Fits tree dir := by
  have hbase : tree.directory? dir = some package := by rcases h with rfl | rfl <;> rfl
  have hchildren : tree.children package =
      [⟨"a.re", .refl true⟩, ⟨"bsconfig.json", .refl true⟩, ⟨"node_modules", .refl true⟩] := by
    decide
  refine ⟨by rcases h with rfl | rfl <;> decide, fun base h' => ?_⟩
  obtain rfl := Option.some.inj (hbase.symm.trans h')
  refine fitsBelow_iff.2 ⟨by rcases h with rfl | rfl <;> decide, ?_⟩
  rw [hchildren]
  simp only [List.forall_mem_cons]
  refine ⟨fun _ _ hlong => ?_, fun _ _ hlong => ?_, fun hn => (hn rfl).elim,
    fun n hn => (List.not_mem_nil hn).elim⟩
  · cases (canonical_child h).1.symm.trans hlong
  · cases (canonical_child h).2.symm.trans hlong

theorem isSource : IsSource tree manifests source "let x = 1;".toUTF8 := by
  have hbuild : (Path.mk "/p/r").child buildName = ⟨"/p/r/bsconfig.json"⟩ := by decide
  refine ⟨⟨"/p/r"⟩, package, [], ⟨"a.re", .refl true⟩, ?_, rfl, ?_, rfl⟩
  · refine ⟨⟨"/p/r/package.json"⟩, .tail _ List.mem_cons_self, by decide, ?_⟩
    rw [hbuild]
    rfl
  · exact ⟨descends_nil, .inr (.inr ⟨"a", by decide, "re", by decide, by decide⟩), rfl⟩

end Linked

theorem reason_seed_linked :
    Linked.manifestsBack.keys.Perm Linked.manifests.keys ∧ Linked.tree.Grounded ∧
      IsSource Linked.tree Linked.manifests Linked.source "let x = 1;".toUTF8 ∧
      ∃ map, reason.seed Linked.tree Linked.manifests = .ok map ∧
        reason.seed Linked.tree Linked.manifestsBack = .ok map ∧
        .leaf ⟨"/p/r/a.re"⟩ "let x = 1;" ∈ map.records.toList ∧
        (map.records.toList.map FileRecord.path).Nodup ∧
        Linked.tree.canonical Linked.source.path = .ok Linked.source := by
  have hperm : Linked.manifestsBack.keys.Perm Linked.manifests.keys := .swap _ _ []
  have hgrounded : Linked.tree.Grounded := by decide
  have hleaf : FileRecord.leaf ⟨"/p/r/a.re"⟩ "let x = 1;" =
      .leaf Linked.source.path (Text.Utf8.lossy "let x = 1;".toUTF8) := rfl
  obtain ⟨hback, hexists, hall⟩ := reason_seed Linked.tree Linked.manifests
  obtain ⟨map, hmap⟩ := hexists.2 fun dir hdir => Linked.fits (Linked.eq_or_eq_of_isPackage hdir)
  obtain ⟨hrecords, hnodup, hcanonical⟩ := hall map hmap
  exact ⟨hperm, hgrounded, Linked.isSource, map, hmap, (hback _ hperm map).2 hmap,
    (hrecords _).2 ⟨_, _, Linked.isSource, hleaf⟩, hnodup,
    (hcanonical _ _ Linked.isSource).2 hgrounded⟩

namespace Deep

def d : Name := ⟨"d", .refl true⟩

/-- The path of a directory that cannot be opened under it. -/
def floor : Location := List.replicate 2048 d

def build : Location := [⟨"bsconfig.json", .refl true⟩, d]

def tree : Tree where
  entries := (floor.tails.map fun dir => (dir, .directory)) ++
    [(build, .file "\x7b\x7d".toUTF8)]
  cwd := []

def manifests : PathTable Manifest := .ofList [(⟨"/d/package.json"⟩, {})]

theorem entry?_replicate {i : Nat} (h : i ≤ 2048) :
    tree.entry? (List.replicate i d) = some .directory := by
  have hsuffix : List.replicate i d <:+ floor :=
    List.suffix_replicate_iff.2 ⟨by rwa [List.length_replicate], by rw [List.length_replicate]⟩
  unfold Tree.entry? tree
  dsimp only
  rw [List.lookup_append, Tree.lookup_directories, if_pos ((List.mem_tails _ _).2 hsuffix)]
  split <;> rfl

theorem entry?_build : tree.entry? build = some (.file "\x7b\x7d".toUTF8) := by
  have hsuffix : ¬ build <:+ floor := fun h =>
    absurd (List.eq_of_mem_replicate (h.subset List.mem_cons_self)) (by decide)
  unfold Tree.entry? tree
  dsimp only
  rw [if_neg (by decide), List.lookup_append, Tree.lookup_directories,
    if_neg (mt (List.mem_tails _ _).1 hsuffix), List.lookup_cons_self]
  rfl

theorem down {i j : Nat} (h : i + j ≤ 2048) : tree.Down (List.replicate i d) (List.replicate j d) := by
  induction j generalizing i with
  | zero => trivial
  | succ j ih => exact ⟨entry?_replicate (i := i + 1) (by omega), ih (i := i + 1) (by omega)⟩

theorem isFile_build : tree.isFile ((Path.mk "/d").child buildName) = true := by
  have hpath : (Path.mk "/d").child buildName = build.path := by decide
  have hstands : tree.Stands build :=
    ⟨entry?_replicate (i := 1) (by decide), entry?_replicate (i := 0) (by decide), trivial⟩
  rw [hpath]
  refine Tree.isFile_iff.2 ⟨build, _, ?_, entry?_build⟩
  exact Tree.locate_path hstands ⟨_, entry?_build, nofun⟩ (by decide)

theorem directory?_eq : tree.directory? ⟨"/d"⟩ = some [d] := by
  have he : tree.entry? [d] = some .directory := entry?_replicate (i := 1) (by decide)
  have hl : tree.locate (Location.path [d]) = .ok [d] :=
    Tree.locate_path ⟨entry?_replicate (i := 0) (by decide), trivial⟩ (Tree.lands_of_directory he)
      (by decide)
  exact Tree.directory?_eq_some_iff.2 ⟨hl, he⟩

theorem isPackage : IsPackage tree manifests ⟨"/d"⟩ :=
  ⟨⟨"/d/package.json"⟩, List.mem_singleton_self _, by decide, isFile_build⟩

theorem not_fits : ¬ Fits tree ⟨"/d"⟩ := by
  intro hfits
  have hown : ∀ n ∈ List.replicate 2047 d, n.text ≠ modulesName := by
    intro n hn
    rw [List.eq_of_mem_replicate hn]
    decide
  have hopened := (hfits.below [d] directory?_eq).opened (List.replicate 2047 d)
    ⟨down (i := 1) (by decide), hown⟩
  have hpath : pathBelow (Location.path [d]) (List.replicate 2047 d) = floor.path := by
    rw [pathBelow_path (List.cons_ne_nil d []), List.reverse_replicate, ← List.replicate_succ']
    rfl
  have hsize : floor.path.text.utf8ByteSize = 2048 * (1 + d.text.utf8ByteSize) :=
    Tree.size_path_replicate d 2047
  change (pathBelow (Location.path [d]) _).text.utf8ByteSize < pathLimit at hopened
  rw [hpath, hsize] at hopened
  exact absurd hopened (by decide)

end Deep

/-- The limits matter: below a package there can be directories that are not opened. -/
theorem reason_seed_deep :
    IsSource Deep.tree Deep.manifests Deep.build "\x7b\x7d".toUTF8 ∧
      ∀ map, reason.seed Deep.tree Deep.manifests ≠ .ok map := by
  constructor
  · exact ⟨⟨"/d"⟩, [Deep.d], [], ⟨"bsconfig.json", .refl true⟩, Deep.isPackage, Deep.directory?_eq,
      ⟨descends_nil, .inl rfl, Deep.entry?_build⟩, rfl⟩
  · intro map hmap
    exact Deep.not_fits (exists_seed_iff.1 ⟨map, hmap⟩ _ Deep.isPackage)

end Seeder

end PackageMap
