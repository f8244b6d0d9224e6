import PackageMap.Find
import PackageMap.Proofs.InsertionOrder
import PackageMap.Proofs.Text.Utf8
import PackageMap.Proofs.Tree.Inside
import PackageMap.Proofs.Walk.Entries
import PackageMap.Proofs.Walk.Report

/-!
# The order of entries

Which file is added first depends on the order of the entries, but which files are added does not,
nor what each of them is reported for. So the entries may come in any order, as long as no two
records share a key.
-/

namespace PackageMap

open Resolve Walker

variable {t : Tree} {c : Config} {seed : FileMap} {starts starts' : List Start} {root p : Path}

/-! ## Reachable files inside a root -/

/-- Only which starts there are counts, not in which order. -/
theorem Reachable.mono (h : starts ⊆ starts') (hp : Reachable t c seed starts p) :
    Reachable t c seed starts' p := by
  induction hp with
  | start hs hp hr hseed => exact .start (h hs) hp hr hseed
  | target _ hq hseed ih => exact .target ih hq hseed

theorem isSome_of_found_of_inside (hp : Found t p) (h : t.Inside root p) :
    (recordOf? t c p).isSome := by
  obtain ⟨q, hq, rfl⟩ := hp
  obtain ⟨loc, hloc, hpath⟩ := h.canonical
  have hfile := Tree.isFile_canonicalOrSelf_of_canonical hq hloc hpath
  rw [hpath]
  obtain ⟨l, bytes, hl, he⟩ := Tree.isFile_iff.1 hfile
  exact recordOf?_isSome_iff.2 ⟨bytes, Tree.read_eq_ok_iff.2 ⟨l, hl, he⟩⟩

theorem readable_of_inside (h : ∀ p, Reachable t c seed starts p → t.Inside root p) :
    Readable t c seed (Reachable t c seed starts) :=
  fun _ _ hp hq hseed => isSome_of_found_of_inside hq.found (h _ (.target hp hq hseed))

/-! ## What walks add, as a set -/

namespace Walker

variable {w : Walker}

/-- A walker that has visited nothing yet. -/
structure Fresh (t : Tree) (w : Walker) : Prop where
  cache : Faithful t (some w.cache)
  warns : w.Warns
  report : w.report = {}

theorem Fresh.reaches (h : w.Fresh t) {S : Path → Prop} : Reaches t c w.map S [] w [] where
  cache := h.cache
  grown := List.prefix_refl _
  record := fun _ hr hs => (hs hr).elim
  target := fun _ hr hs => (hs hr).elim
  start := nofun
  todo := nofun

theorem Fresh.reports (h : w.Fresh t) : Reports t c w.map w [] := by
  refine ⟨h.cache, h.warns, (List.append_nil _).symm, nofun, ?_, ?_, ?_, ?_⟩ <;> rw [h.report] <;>
    rfl

/-- Walks inside a root add the record of each file that they reach, and nothing else. -/
theorem Fresh.exists_reports_mem_iff (h : w.Fresh t)
    (hin : ∀ p, Reachable t c w.map starts p → t.Inside root p) :
    ∃ added, Reports t c w.map (starts.foldl (Start.run t c) w) added ∧ added.Nodup ∧
      ∀ r, r ∈ added ↔ Reachable t c w.map starts r.path ∧ recordOf? t c r.path = some r := by
  have hreaches := (h.reaches (c := c)).runEach (readable_of_inside hin)
    (closed_reachable t c w.map starts) fun _ hs => hs
  obtain ⟨added, hadded⟩ := h.reports.runEach (c := c) starts
  rw [List.nil_append] at hadded
  have hrecords := hadded.records
  have honce := (starts.foldl (Start.run t c) w).map.records_pairwise
  rw [hrecords, List.pairwise_append] at honce
  have hmem {r : FileRecord} (hr : r ∈ added) :
      r ∈ (starts.foldl (Start.run t c) w).map.records.toList ∧ r ∉ w.map.records.toList :=
    ⟨hrecords ▸ List.mem_append_right _ hr, fun hs => honce.2.2 r hs r hr (.refl _)⟩
  have hreach {r : FileRecord} (hr : r ∈ added) : Reachable t c w.map starts r.path :=
    (hreaches.record r (hmem hr).1 (hmem hr).2).1
  have hnodup : added.Nodup := by
    refine honce.2.1.imp ?_
    rintro r _ hne rfl
    exact hne (.refl _)
  refine ⟨added, hadded, hnodup, fun r => ?_⟩
  constructor
  · exact fun hr => ⟨hreach hr, hadded.record r hr⟩
  · rintro ⟨hp, hr⟩
    obtain ⟨s, hs, hpath⟩ := exists_path_of_reachable
      (fun s hs p hp hread hseed => exists_added hrecords
        ((hreaches.start s (by simpa using hs) p hp hread).resolve_right nofun) hseed)
      (fun r hr p hp hseed => exists_added hrecords
        ((hreaches.target r (hmem hr).1 (hmem hr).2 p hp).resolve_right nofun) hseed)
      (fun r hr q hq hs => (hin _ (hreach hr)).eq_of_same (hin q hq) hs) hp
    have hrecord := hadded.record s hs
    rw [hpath] at hrecord
    obtain rfl := Option.some.inj (hr.symm.trans hrecord)
    exact hs

end Walker

/-! ## Maps of packages -/

/-- Results that differ at most in the order of what their reports list. -/
structure FindResult.Alike (a b : FindResult) : Prop where
  files : a.files = b.files
  outcome : a.outcome = b.outcome
  size : a.size = b.size
  filesAdded : a.report.filesAdded = b.report.filesAdded
  ignored : a.report.ignored = b.report.ignored
  unresolved : a.report.unresolved.toList.Perm b.report.unresolved.toList
  extractionFailures :
    a.report.extractionFailures.toList.Perm b.report.extractionFailures.toList

theorem FindResult.Alike.refl (a : FindResult) : a.Alike a :=
  ⟨rfl, rfl, rfl, rfl, rfl, .refl _, .refl _⟩

/-- The walks of a package with this manifest. -/
def entryStarts (o : FindOptions) (root : Path) (package : String) (m : Manifest) : List Start :=
  ((o.entries (packageDirectory root package) m).filterMap id).map .entry

/-- The path is in the seed of a package's map, or the entries of the package reach it. -/
def IsMapPath (t : Tree) (o : FindOptions) (root : Path) (manifests : PathTable Manifest)
    (package : String) (p : Path) : Prop :=
  ∃ m, manifests.get? (packageManifest root package) = some m ∧
    ((∃ r ∈ (seededWalker t o root manifests package).map.records.toList, r.path = p) ∨
      Reachable t o.config (seededWalker t o root manifests package).map
        (entryStarts o root package m) p)

variable {o : FindOptions} {manifests : PathTable Manifest} {package : String} {m : Manifest}

theorem get?_installedManifests (hpaths : Installed.manifestPaths t root = [p])
    (hm : Manifest.read t p = .ok m) : (installedManifests t root).get? p = some m := by
  unfold installedManifests
  rw [hpaths, List.foldl_cons, List.foldl_nil]
  unfold Installed.addManifest
  rw [hm]
  dsimp only
  rw [PathTable.get?_put, if_pos (.refl _)]

theorem fresh_seededWalker : (seededWalker t o root manifests package).Fresh t := by
  unfold seededWalker
  split
  · split
    · exact ⟨faithful_empty t, warns_of_nil rfl rfl rfl, rfl⟩
    · exact ⟨faithful_empty t, warns_of_nil rfl rfl rfl, rfl⟩
  · exact ⟨faithful_empty t, warns_of_nil rfl rfl rfl, rfl⟩

/-- What a walker comes to under the size limit, where paths are shown as texts. -/
def Walker.resultAs (shown : Path → String) (t : Tree) (o : FindOptions) (root : Path) (m : Manifest)
    (w : Walker) : FindResult :=
  let final :=
    w.map.finalizeAs shown m.capabilities (t.canonicalOrSelf root) o.config.sizeLimit
  ⟨final.files, some final.outcome, final.size, w.report, w.warnings⟩

def Walker.result (t : Tree) (o : FindOptions) (root : Path) (m : Manifest) (w : Walker) :
    FindResult :=
  w.resultAs Path.text t o root m

/-- The walker after the entries of a package. -/
abbrev packageWalker (t : Tree) (o : FindOptions) (root : Path) (manifests : PathTable Manifest)
    (package : String) (m : Manifest) : Walker :=
  (entryStarts o root package m).foldl (Start.run t o.config)
    (seededWalker t o root manifests package)

theorem findPackageAs_eq (shown : Path → String)
    (h : manifests.get? (packageManifest root package) = some m) :
    findPackageAs shown t o root manifests package =
      (packageWalker t o root manifests package m).resultAs shown t o root m := by
  unfold findPackageAs packageWalker entryStarts
  rw [h, List.foldl_map]
  rfl

theorem findPackage_eq (h : manifests.get? (packageManifest root package) = some m) :
    findPackage t o root manifests package =
      (packageWalker t o root manifests package m).result t o root m :=
  findPackageAs_eq Path.text h

theorem findPackage_files (h : manifests.get? (packageManifest root package) = some m) :
    (findPackage t o root manifests package).files =
      ((packageWalker t o root manifests package m).map.finalize m.capabilities
        (t.canonicalOrSelf root) o.config.sizeLimit).files := by
  rw [findPackage_eq h]
  rfl

/-- No two records inside a root have the same key. -/
theorem FileMap.nodup_keys_of_inside {m : FileMap}
    (hin : ∀ r ∈ m.records.toList, t.Inside root r.path) :
    (m.records.toList.map fun r => r.path.relativize (t.canonicalOrSelf root)).Nodup :=
  FinalMap.nodup_keys_iff.2 fun _ _ s hs hshadow => hshadow.2.1 (hin s hs).below

/-- Walkers that added the same records to a seed come to the same. -/
theorem Walker.Reports.alike {w w' : Walker} {added added' : List FileRecord}
    (h : Reports t o.config seed w added) (h' : Reports t o.config seed w' added')
    (hperm : added.Perm added') (hin : ∀ r ∈ w.map.records.toList, t.Inside root r.path) :
    (w.result t o root m).Alike (w'.result t o root m) := by
  have hrecords : w.map.records.toList.Perm w'.map.records.toList := by
    rw [h.records, h'.records]
    exact hperm.append_left _
  have hfinal := FileMap.finalize_perm m.capabilities o.config.sizeLimit hrecords
    (FileMap.nodup_keys_of_inside hin)
  unfold Walker.result Walker.resultAs
  constructor
  case files => exact congrArg FinalMap.files hfinal
  case outcome => exact congrArg (fun final : FinalMap => some final.outcome) hfinal
  case size => exact congrArg FinalMap.size hfinal
  case filesAdded => exact (h.filesAdded.trans hperm.length_eq).trans h'.filesAdded.symm
  case ignored => exact (h.ignored.trans (hperm.map _).sum_nat).trans h'.ignored.symm
  case unresolved =>
    dsimp only
    rw [h.unresolved, h'.unresolved]
    exact hperm.flatMap_right _
  case extractionFailures =>
    dsimp only
    rw [h.extractionFailures, h'.extractionFailures]
    exact (hperm.filter _).map _

/-- What the walks of a package inside a root leave has a record for each path of its map only. -/
theorem isMapPath_of_mem (hm : manifests.get? (packageManifest root package) = some m)
    (hin : ∀ p, IsMapPath t o root manifests package p → t.Inside root p) {r : FileRecord}
    (hr : r ∈ (packageWalker t o root manifests package m).map.records.toList) :
    IsMapPath t o root manifests package r.path := by
  obtain ⟨added, hadded, -, hmem⟩ :=
    (fresh_seededWalker (t := t) (o := o)).exists_reports_mem_iff fun p hp => hin p ⟨m, hm, .inr hp⟩
  rw [hadded.records] at hr
  rcases List.mem_append.1 hr with hr | hr
  · exact ⟨m, hm, .inl ⟨r, hr, rfl⟩⟩
  · exact ⟨m, hm, .inr ((hmem r).1 hr).1⟩

section Entries

variable {entries : Path → Manifest → List (Option Path)}
  (hperm : ∀ dir m, (o.entries dir m).Perm (entries dir m))

include hperm

theorem entryStarts_perm (m : Manifest) : (entryStarts o root package m).Perm
    (entryStarts { o with entries := entries } root package m) :=
  ((hperm _ m).filterMap id).map _

theorem IsMapPath.of_perm
    (h : IsMapPath t { o with entries := entries } root manifests package p) :
    IsMapPath t o root manifests package p := by
  obtain ⟨m, hm, h⟩ := h
  exact ⟨m, hm, h.imp_right (Reachable.mono (entryStarts_perm hperm m).symm.subset)⟩

/-- The entries of a package may be walked in any order, if all paths of its map lie inside the
root. -/
theorem findPackage_alike (hin : ∀ p, IsMapPath t o root manifests package p → t.Inside root p) :
    (findPackage t o root manifests package).Alike
      (findPackage t { o with entries := entries } root manifests package) := by
  cases hm : manifests.get? (packageManifest root package) with
  | none =>
    rw [findPackage_of_none hm, findPackage_of_none hm]
    exact .refl _
  | some m =>
    have hstarts : (entryStarts o root package m).Perm
        (entryStarts { o with entries := entries } root package m) := entryStarts_perm hperm m
    have hreach (p : Path) := fun hp => hin p ⟨m, hm, .inr hp⟩
    obtain ⟨added, hadded, hnodup, hmem⟩ :=
      (fresh_seededWalker (t := t) (o := o)).exists_reports_mem_iff hreach
    obtain ⟨added', hadded', hnodup', hmem'⟩ :=
      (fresh_seededWalker (t := t) (o := o)).exists_reports_mem_iff fun p hp =>
        hreach p (Reachable.mono hstarts.symm.subset hp)
    rw [findPackage_eq hm, findPackage_eq hm]
    refine hadded.alike hadded' ((List.perm_ext_iff_of_nodup hnodup hnodup').2 fun r => ?_)
      fun r hr => hin _ (isMapPath_of_mem hm hin hr)
    rw [hmem, hmem']
    exact and_congr_left fun _ =>
      ⟨Reachable.mono hstarts.subset, Reachable.mono hstarts.symm.subset⟩

end Entries

/-- The map of a package is made of paths as they are written, where their names are UTF-8. -/
theorem findPackageAs_of_isText {bytes : Path → ByteArray}
    (hroot : (t.canonicalOrSelf root).IsText bytes)
    (hin : ∀ p, IsMapPath t o root manifests package p → t.Inside root p ∧ p.IsText bytes) :
    findPackageAs (Path.lossy bytes) t o root manifests package =
      findPackage t o root manifests package := by
  cases hm : manifests.get? (packageManifest root package) with
  | none =>
    rw [findPackage_of_none hm]
    unfold findPackageAs
    rw [hm]
  | some m =>
    have hshown : ∀ r ∈ (packageWalker t o root manifests package m).map.records.toList,
        r.path.lossy bytes = r.path.text := fun r hr =>
      Path.lossy_of_isText (hin _ (isMapPath_of_mem hm (fun p hp => (hin p hp).1) hr)).2
    rw [findPackageAs_eq _ hm, findPackage_eq hm]
    unfold Walker.result Walker.resultAs
    rw [FileMap.finalizeAs_of_shown _ _ (Path.lossy_of_isText hroot) hshown]
    rfl

/-- What a package that declares an entry reaches is in its map, if all paths of the map lie inside
the root. -/
theorem mem_files_of_reachable {r : FileRecord}
    (hm : manifests.get? (packageManifest root package) = some m) (hany : m.capabilities.any)
    (hin : ∀ p, IsMapPath t o root manifests package p → t.Inside root p)
    (hp : Reachable t o.config (seededWalker t o root manifests package).map
      (entryStarts o root package m) r.path) (hr : recordOf? t o.config r.path = some r) :
    (r.path.relativize (t.canonicalOrSelf root), r) ∈
      (findPackage t o root manifests package).files := by
  obtain ⟨added, hadded, -, hmem⟩ :=
    (fresh_seededWalker (t := t) (o := o)).exists_reports_mem_iff fun p hp => hin p ⟨m, hm, .inr hp⟩
  have hinside : ∀ s ∈ (packageWalker t o root manifests package m).map.records.toList,
      t.Inside root s.path := fun s hs => hin _ (isMapPath_of_mem hm hin hs)
  have hrecord : r ∈ (packageWalker t o root manifests package m).map.records.toList := by
    rw [hadded.records]
    exact List.mem_append_right _ ((hmem r).2 ⟨hp, hr⟩)
  have hlookup := (FinalMap.keeps_keyed (FileMap.nodup_keys_of_inside hinside)).2 r hrecord
  rw [findPackage_files hm, FileMap.files_of_kept (FileMap.outcome_of_any hany)]
  obtain ⟨before, after, hsplit, -⟩ := List.lookup_eq_some_iff.1 hlookup
  rw [hsplit]
  exact List.mem_append_right before List.mem_cons_self

/-! ## A package with two entries -/

namespace Pair

def above : Location :=
  [⟨"p", .refl true⟩, ⟨"node_modules", .refl true⟩, ⟨"proj", .refl true⟩]

/-- Two entries that require each other, and files that are missing. -/
def tree : Tree where
  entries :=
    [([⟨"proj", .refl true⟩], .directory),
      ([⟨"node_modules", .refl true⟩, ⟨"proj", .refl true⟩], .directory),
      (above, .directory),
      (⟨"a.js", .refl true⟩ :: above, .file "require('./b.js');require('./x.js')".toUTF8),
      (⟨"b.js", .refl true⟩ :: above, .file "require('./a.js');require('./y.js')".toUTF8)]
  cwd := []

def first : Path := ⟨"/proj/node_modules/p/a.js"⟩

def second : Path := ⟨"/proj/node_modules/p/b.js"⟩

def manifest : Manifest := { main := "a.js", module := "b.js" }

def installed : PathTable Manifest :=
  .ofList [(⟨"/proj/node_modules/p/package.json"⟩, manifest)]

theorem noBrowserMaps : NoBrowserMaps tree := by
  refine noBrowserMaps_of_texts ["require('./b.js');require('./x.js')",
    "require('./a.js');require('./y.js')"] ?_ (by cbv)
  intro loc bytes h
  simp only [tree, List.mem_cons, Prod.mk.injEq, List.not_mem_nil, or_false, reduceCtorEq,
    and_false, false_or, Entry.file.injEq] at h
  rcases h with ⟨-, rfl⟩ | ⟨-, rfl⟩ <;> exact ⟨_, by decide, rfl⟩

theorem recordOf?_first : recordOf? tree {} first =
    some ⟨first, "require('./b.js');require('./x.js')", some ["./b.js", "./x.js"]⟩ := by
  have hread : tree.read first = .ok "require('./b.js');require('./x.js')".toUTF8 := rfl
  exact recordOf?_script hread (by decide) (by cbv)

theorem recordOf?_second : recordOf? tree {} second =
    some ⟨second, "require('./a.js');require('./y.js')", some ["./a.js", "./y.js"]⟩ := by
  have hread : tree.read second = .ok "require('./a.js');require('./y.js')".toUTF8 := rfl
  exact recordOf?_script hread (by decide) (by cbv)

theorem outcome_script {p : Path} {spec : String} (found : Option Path)
    (hspec : spec ≠ "" ∧ hasScheme spec = false ∧ isBare spec = false)
    (hfound : pathOf? tree ({} : Config).conventions
      (specifierPath (Resolution.directoryOf p) spec) = found) :
    (resolve tree ({} : Config).conventions none p spec).1.outcome.file? = found :=
  (resolve_file? noBrowserMaps p hspec.1 hspec.2.1 hspec.2.2).trans hfound

/-- The scripts refer to each other only. -/
theorem eq_of_refers {p q : Path} (hp : p = first ∨ p = second) (h : Refers tree {} p q) :
    q = first ∨ q = second := by
  rcases hp with rfl | rfl
  · obtain ⟨specs, hspecs, spec, hspec, ho⟩ := (refers_iff recordOf?_first q).1 h
    cases hspecs
    have hfile := Outcome.file?_eq_some_iff.2 ho
    simp only [List.mem_cons, List.not_mem_nil, or_false] at hspec
    rcases hspec with rfl | rfl
    · cases (outcome_script (some second) (by decide) (by decide)).symm.trans hfile
      exact .inr rfl
    · cases (outcome_script none (by decide) (by decide)).symm.trans hfile
  · obtain ⟨specs, hspecs, spec, hspec, ho⟩ := (refers_iff recordOf?_second q).1 h
    cases hspecs
    have hfile := Outcome.file?_eq_some_iff.2 ho
    simp only [List.mem_cons, List.not_mem_nil, or_false] at hspec
    rcases hspec with rfl | rfl
    · cases (outcome_script (some first) (by decide) (by decide)).symm.trans hfile
      exact .inl rfl
    · cases (outcome_script none (by decide) (by decide)).symm.trans hfile

theorem get?_installed : installed.get? (packageManifest ⟨"/proj"⟩ "p") = some manifest := by decide

theorem entries_manifest : manifest.entries (packageDirectory ⟨"/proj"⟩ "p") =
    [some first, some second, none, none] := by decide

theorem seededWalker_eq {entries : Path → Manifest → List (Option Path)} :
    seededWalker tree { entries := entries } ⟨"/proj"⟩ installed "p" = { map := .empty } := by
  have happlies : tree.isFile
      ((packageDirectory ⟨"/proj"⟩ "p").child Seeder.buildName) = false := by decide
  unfold seededWalker
  rw [if_neg (by simpa [Seeder.reason] using happlies)]

theorem eq_of_start {s : Start} {m : Manifest} {p : Path}
    (hm : installed.get? (packageManifest ⟨"/proj"⟩ "p") = some m)
    (hs : s ∈ entryStarts {} ⟨"/proj"⟩ "p" m) (hp : s.path? tree {} = some p) :
    p = first ∨ p = second := by
  obtain rfl : manifest = m := Option.some.inj (get?_installed.symm.trans hm)
  unfold entryStarts at hs
  dsimp only at hs
  rw [entries_manifest] at hs
  have hs : s ∈ [Start.entry first, Start.entry second] := hs
  simp only [List.mem_cons, List.not_mem_nil, or_false] at hs
  have hg : tree.Grounded := fun _ => trivial
  have hentry {q : Path} (h : (Start.entry q).path? tree {} = some p) : pathOf? tree {} q = some p :=
    ((path?_entry_iff hg noBrowserMaps).1 h).1
  rcases hs with rfl | rfl
  · have hfirst : pathOf? tree {} first = some first := by decide
    exact .inl (Option.some.inj (hfirst.symm.trans (hentry hp))).symm
  · have hsecond : pathOf? tree {} second = some second := by decide
    exact .inr (Option.some.inj (hsecond.symm.trans (hentry hp))).symm

theorem inside {p : Path} (h : IsMapPath tree {} ⟨"/proj"⟩ installed "p" p) :
    tree.Inside ⟨"/proj"⟩ p ∧ p.IsText Path.latin := by
  have hin : p = first ∨ p = second := by
    obtain ⟨m, hm, h⟩ := h
    rw [seededWalker_eq] at h
    rcases h with ⟨r, hr, -⟩ | h
    · cases hr
    · induction h with
      | start hs hp _ _ => exact eq_of_start hm hs hp
      | target _ hq _ ih => exact eq_of_refers ih hq
  rcases hin with rfl | rfl
  · exact ⟨⟨[⟨"proj", by decide⟩], ⟨"a.js", by decide⟩ :: above, by decide, by decide, by decide,
      by decide⟩, rfl⟩
  · exact ⟨⟨[⟨"proj", by decide⟩], ⟨"b.js", by decide⟩ :: above, by decide, by decide, by decide,
      by decide⟩, rfl⟩

/-- The second entry first. -/
def reversed (dir : Path) (m : Manifest) : List (Option Path) := (m.entries dir).reverse

def found (entries : Path → Manifest → List (Option Path)) : FindResult :=
  findPackageAs (Path.lossy Path.latin) tree { entries := entries } ⟨"/proj"⟩ installed "p"

def files : List (String × FileRecord) :=
  [("/node_modules/p/a.js",
      ⟨first, "require('./b.js');require('./x.js')", some ["./b.js", "./x.js"]⟩),
    ("/node_modules/p/b.js",
      ⟨second, "require('./a.js');require('./y.js')", some ["./a.js", "./y.js"]⟩)]

def missing : List UnresolvedEdge :=
  [⟨first, "./x.js", .notFound⟩, ⟨second, "./y.js", .notFound⟩]

/-!
### Its walks, visit by visit

Each visit is evaluated with its file written out, instead of taken from a stack that is not
evaluated yet.
-/

/-- What an entry resolves to, and the walker that has asked for it. -/
def entryOutcome (w : Walker) (p : Path) : Outcome :=
  (resolveEntry tree ({} : Config).conventions (some w.cache) p).1.outcome

@[inherit_doc entryOutcome]
def entered (w : Walker) (p : Path) : Walker :=
  { w with
    cache := (resolveEntry tree ({} : Config).conventions (some w.cache) p).2.getD w.cache }

theorem walkEntry_eq {w : Walker} {p : Path} {loc : Location} (hloc : tree.canonical p = .ok loc)
    (hp : loc.path = p) (h : entryOutcome w p = .resolved p) :
    walkEntry tree {} w p = walkStack tree {} (entered w p) [p] := by
  unfold entryOutcome at h
  unfold walkEntry entered Walker.walk
  dsimp only
  rw [h]
  dsimp only
  rw [hloc]
  dsimp only
  rw [hp]

/-- The walker after a visit of each file, the second of them the file of the second entry. -/
def visited (p q : Path) : Walker :=
  (visit tree {} (visit tree {} (entered { map := .empty } p) p).1 q).1

/-- Both entries stand for their files, and the first one reaches both. -/
abbrev Meet (p q : Path) : Prop :=
  entryOutcome { map := .empty } p = .resolved p ∧
    (visit tree {} (entered { map := .empty } p) p).2 = [q] ∧
    (visit tree {} (entered { map := .empty } p) p).1.map.contains q = false ∧
    (visit tree {} (visit tree {} (entered { map := .empty } p) p).1 q).2 = [] ∧
    entryOutcome (visited p q) q = .resolved q ∧ (entered (visited p q) q).map.contains q = true

theorem walkEntries_eq {p q : Path} {loc loc' : Location} (hloc : tree.canonical p = .ok loc)
    (hloc' : tree.canonical q = .ok loc') (hp : loc.path = p) (hq : loc'.path = q) (h : Meet p q) :
    walkEntry tree {} (walkEntry tree {} { map := .empty } p) q = entered (visited p q) q := by
  obtain ⟨hentry, hfirst, hnew, hsecond, hentry', hdone⟩ := h
  have hempty : (entered { map := .empty } p).map.contains p = false := rfl
  have hwalk : walkEntry tree {} { map := .empty } p = visited p q := by
    rw [walkEntry_eq hloc hp hentry, walkStack_of_not_contains hempty, hfirst, List.append_nil,
      walkStack_of_not_contains hnew, hsecond, List.append_nil, walkStack_nil]
    rfl
  rw [hwalk, walkEntry_eq hloc' hq hentry', walkStack_of_contains hdone, walkStack_nil]

/-- What the walks of `p` and `q` come to. -/
def outcome (p q : Path) : FindResult :=
  (entered (visited p q) q).resultAs (Path.lossy Path.latin) tree {} ⟨"/proj"⟩ manifest

theorem found_eq {entries : Path → Manifest → List (Option Path)} {p q : Path}
    {loc loc' : Location}
    (hentries : (entries (packageDirectory ⟨"/proj"⟩ "p") manifest).filterMap id = [p, q])
    (hloc : tree.canonical p = .ok loc) (hloc' : tree.canonical q = .ok loc') (hp : loc.path = p)
    (hq : loc'.path = q) (h : Meet p q) : found entries = outcome p q := by
  unfold found outcome
  rw [findPackageAs_eq _ get?_installed, ← walkEntries_eq hloc hloc' hp hq h]
  unfold packageWalker entryStarts
  rw [seededWalker_eq, hentries]
  rfl

/-- What the two walks come to in either order. -/
theorem evaluated : Meet first second ∧ Meet second first ∧
    (outcome first second).files = files ∧ (outcome first second).outcome = some .kept ∧
      (outcome first second).size = 219 ∧
      (outcome first second).report = { filesAdded := 2, unresolved := missing.toArray } ∧
      (outcome second first).report =
        { filesAdded := 2, unresolved := missing.reverse.toArray } := by
  decide +kernel

theorem found_entries : found (fun dir m => m.entries dir) = outcome first second :=
  found_eq (by rw [entries_manifest]; rfl) rfl rfl (by decide) (by decide) evaluated.1

theorem found_reversed : found reversed = outcome second first :=
  found_eq (by unfold reversed; rw [entries_manifest]; rfl) rfl rfl (by decide) (by decide)
    evaluated.2.1

end Pair

end PackageMap
