import Mathlib.Logic.Function.Iterate
import PackageMap.Proofs.Resolve.Reads
import PackageMap.Proofs.Walk.Entries

/-!
# Walks turn by turn

Each turn of a walk passes over the file on top of the stack or visits it, and between two walks a
turn takes the next start. After finitely many turns nothing is left (`exists_iterate_runEach`).

The content of a file is read when it is visited, and that of a manifest also when the resolver asks
for it. A visit that reads a file adds its record, so the files that are visited are the files in the
map, and those with canonical paths are all different. What the resolver reads is what the cache
does not have (`logged_iterate`).
-/

namespace PackageMap

open Resolve

variable {t : Tree} {c : Config} {p : Path}

/-! ## What is read -/

/-- A file whose content is read, to be visited or as a manifest that the resolver asks for. -/
inductive FileRead where
  | visit (file : Path)
  | manifest (path : Path)
deriving DecidableEq, Repr

namespace FileRead

def visit? : FileRead → Option Path
  | visit file => some file
  | manifest _ => none

def manifest? : FileRead → Option Path
  | visit _ => none
  | manifest path => some path

theorem filterMap_visit?_manifests (ps : List Path) : (ps.map manifest).filterMap visit? = [] := by
  simp [List.filterMap_map, visit?]

theorem filterMap_manifest?_manifests (ps : List Path) :
    (ps.map manifest).filterMap manifest? = ps := by
  rw [List.filterMap_map]
  exact List.filterMap_some

end FileRead

namespace Walker

/-- The manifests that are read for the specifiers in a file, one after another. -/
def manifestsFor (t : Tree) (c : Config) (file : Path) : Walker → List String → List Path
  | _, [] => []
  | w, spec :: specs =>
    (Call.specifier c.conventions (Resolution.directoryOf file) spec).reads t (some w.cache) ++
      manifestsFor t c file (followOne t c file w spec).1 specs

/-- What a visit of a file reads. -/
def readsOf (t : Tree) (c : Config) (w : Walker) (file : Path) : List FileRead :=
  match t.read file with
  | .error _ => []
  | .ok bytes =>
    .visit file :: (manifestsFor t c file w
      ((requiresOf c file (Text.Utf8.lossy bytes)).getD [])).map .manifest

end Walker

/-- The manifests that are read to find the file of a start. -/
def Start.manifests (t : Tree) (c : Config) (w : Walker) : Start → List Path
  | .file _ => []
  | .entry p => (Call.entry c.conventions p).reads t (some w.cache)

/-! ## Turns -/

/-- The walker at a file's walk, and the stack that it starts from. -/
def Walker.stacked (t : Tree) (w : Walker) (file : Path) : Walker × List Path :=
  match t.canonical file with
  | .error _ => (w.noteUnreadable file, [])
  | .ok loc => (w, [loc.path])

def Start.stacked (t : Tree) (c : Config) (w : Walker) : Start → Walker × List Path
  | .file p => w.stacked t p
  | .entry p =>
    let (r, cache) := resolveEntry t c.conventions (some w.cache) p
    let w := { w with cache := cache.getD w.cache }
    match r.outcome with
    | .resolved target => w.stacked t target
    | _ => (w, [])

/-- Walks under way: the files to visit in this one, and the starts of those after it. -/
structure Loop where
  walker : Walker
  stack : List Path := []
  starts : List Start := []

namespace Loop

def step (t : Tree) (c : Config) (l : Loop) : Loop :=
  match l.stack with
  | file :: rest =>
    if l.walker.map.contains file then { l with stack := rest }
    else
      let (w, targets) := Walker.visit t c l.walker file
      { l with walker := w, stack := targets ++ rest }
  | [] =>
    match l.starts with
    | [] => l
    | s :: starts =>
      let (w, stack) := s.stacked t c l.walker
      ⟨w, stack, starts⟩

/-- What the next turn reads. -/
def reading (t : Tree) (c : Config) (l : Loop) : List FileRead :=
  match l.stack with
  | file :: _ => if l.walker.map.contains file then [] else l.walker.readsOf t c file
  | [] =>
    match l.starts with
    | [] => []
    | s :: _ => (s.manifests t c l.walker).map .manifest

/-- What so many turns read, in order. -/
def reads (t : Tree) (c : Config) : Nat → Loop → List FileRead
  | 0, _ => []
  | n + 1, l => l.reading t c ++ reads t c n (l.step t c)

end Loop

theorem Start.run_eq_walkStack (s : Start) (w : Walker) :
    s.run t c w = Walker.walkStack t c (s.stacked t c w).1 (s.stacked t c w).2 := by
  have hwalk (w : Walker) (p : Path) :
      w.walk t c p = Walker.walkStack t c (w.stacked t p).1 (w.stacked t p).2 := by
    unfold Walker.walk Walker.stacked
    cases t.canonical p with
    | error e => exact (Walker.walkStack_nil t c _).symm
    | ok loc => rfl
  cases s with
  | file p => exact hwalk w p
  | entry p =>
    show w.walkEntry t c p = _
    unfold Walker.walkEntry Start.stacked
    dsimp only
    cases (resolveEntry t c.conventions (some w.cache) p).1.outcome with
    | resolved target => exact hwalk _ _
    | ignored => exact (Walker.walkStack_nil t c _).symm
    | unresolved reason => exact (Walker.walkStack_nil t c _).symm

/-! ## All turns -/

namespace Loop

/-- The paths in the map, in the order in which they were added. -/
def paths (l : Loop) : List Path := l.walker.map.records.toList.map FileRecord.path

/-- The stack is worked off. -/
theorem exists_iterate_walkStack (w : Walker) (stack : List Path) (starts : List Start) :
    ∃ n, (step t c)^[n] ⟨w, stack, starts⟩ = ⟨Walker.walkStack t c w stack, [], starts⟩ := by
  fun_induction Walker.walkStack t c w stack with
  | case1 w => exact ⟨0, rfl⟩
  | case2 w file rest hm ih =>
    obtain ⟨n, hn⟩ := ih
    refine ⟨n + 1, ?_⟩
    rw [Function.iterate_succ_apply, ← hn]
    simp only [step, hm, if_true]
  | case3 w file rest hm w' targets hv ih =>
    obtain ⟨n, hn⟩ := ih
    refine ⟨n + 1, ?_⟩
    rw [Function.iterate_succ_apply, ← hn]
    simp only [step, hm, hv, Bool.false_eq_true, if_false]

theorem exists_iterate_runEach (w : Walker) (starts : List Start) :
    ∃ n, (step t c)^[n] ⟨w, [], starts⟩ = { walker := starts.foldl (Start.run t c) w } := by
  induction starts generalizing w with
  | nil => exact ⟨0, rfl⟩
  | cons s starts ih =>
    obtain ⟨n, hn⟩ := exists_iterate_walkStack (t := t) (c := c) (s.stacked t c w).1
      (s.stacked t c w).2 starts
    rw [← s.run_eq_walkStack] at hn
    obtain ⟨k, hk⟩ := ih (s.run t c w)
    refine ⟨k + n + 1, ?_⟩
    rw [Function.iterate_succ_apply, Function.iterate_add_apply, List.foldl_cons, ← hk, ← hn]
    rfl

theorem records_stacked (w : Walker) (s : Start) :
    (s.stacked t c w).1.map = w.map := by
  have hmap (w : Walker) (p : Path) : (w.stacked t p).1.map = w.map := by
    unfold Walker.stacked
    split <;> rfl
  cases s with
  | file p => exact hmap w p
  | entry p =>
    unfold Start.stacked
    dsimp only
    split
    · exact hmap _ _
    · rfl

/-- What a turn visits is what it adds. -/
theorem paths_step (l : Loop) :
    (l.step t c).paths = l.paths ++ (l.reading t c).filterMap FileRead.visit? := by
  obtain ⟨w, stack, starts⟩ := l
  unfold paths step reading
  dsimp only
  cases stack with
  | nil =>
    cases starts with
    | nil => simp
    | cons s starts =>
      rw [FileRead.filterMap_visit?_manifests, List.append_nil]
      dsimp only
      rw [records_stacked]
  | cons file rest =>
    dsimp only
    by_cases hm : w.map.contains file = true
    · simp [hm]
    · have hm := eq_false_of_ne_true hm
      unfold Walker.readsOf
      cases hread : t.read file with
      | ok bytes =>
        obtain ⟨r, rfl, hmap⟩ := Walker.visit_map (c := c) hread hm
        simp [hm, hmap, FileMap.records_insert hm, FileRead.visit?]
      | error e => simp [hm, Walker.visit_of_error hread, Walker.noteUnreadable]

theorem paths_iterate (n : Nat) (l : Loop) :
    ((step t c)^[n] l).paths = l.paths ++ (reads t c n l).filterMap FileRead.visit? := by
  induction n generalizing l with
  | zero => exact (List.append_nil _).symm
  | succ n ih =>
    rw [Function.iterate_succ_apply, ih, paths_step, reads, List.filterMap_append,
      List.append_assoc]

end Loop

/-! ## Manifests that are read -/

namespace Walker

variable {w : Walker} {file : Path}

theorem add_cache (w : Walker) (r : FileRecord) : (w.add r).cache = w.cache := by
  unfold add
  split <;> rfl

theorem logged_followOne (w : Walker) (file : Path) (spec : String) :
    Logged t w.cache
      ((Call.specifier c.conventions (Resolution.directoryOf file) spec).reads t (some w.cache))
      (followOne t c file w spec).1.cache := by
  obtain ⟨m, hm, hlogged⟩ :=
    (Call.specifier c.conventions (Resolution.directoryOf file) spec).logged (t := t) w.cache
  rw [Call.run_specifier] at hm
  have hcache : (followOne t c file w spec).1.cache = m := by
    unfold followOne
    dsimp only
    rw [hm]
    split <;> rfl
  rwa [hcache]

theorem logged_followAll (w : Walker) (file : Path) (targets : List Path) (specs : List String) :
    Logged t w.cache (manifestsFor t c file w specs)
      (followAll t c file w targets specs).1.cache := by
  induction specs generalizing w targets with
  | nil => exact .nil
  | cons spec specs ih => exact (logged_followOne w file spec).trans (ih _ _)

theorem logged_visit (w : Walker) (file : Path) :
    Logged t w.cache ((w.readsOf t c file).filterMap FileRead.manifest?)
      (visit t c w file).1.cache := by
  unfold readsOf visit
  cases t.read file with
  | error e => exact .nil
  | ok bytes =>
    rw [List.filterMap_cons_none rfl, FileRead.filterMap_manifest?_manifests]
    dsimp only
    unfold requiresOf
    split
    · cases Source.specifiers (Text.Utf8.lossy bytes) with
      | error e =>
        dsimp only
        rw [add_cache]
        exact .nil
      | ok specs =>
        dsimp only
        rw [add_cache]
        exact logged_followAll w file [] specs
    · rw [add_cache]
      exact .nil

theorem stacked_cache (w : Walker) (p : Path) : (w.stacked t p).1.cache = w.cache := by
  unfold stacked
  split <;> rfl

end Walker

theorem Start.logged_stacked (w : Walker) (s : Start) :
    Logged t w.cache (s.manifests t c w) (s.stacked t c w).1.cache := by
  cases s with
  | file p =>
    show Logged t w.cache [] (w.stacked t p).1.cache
    rw [Walker.stacked_cache]
    exact .nil
  | entry p =>
    obtain ⟨m, hm, hlogged⟩ := (Call.entry c.conventions p).logged (t := t) w.cache
    rw [Call.run_entry] at hm
    have hcache : ((Start.entry p).stacked t c w).1.cache = m := by
      unfold Start.stacked
      dsimp only
      rw [hm]
      split
      · exact Walker.stacked_cache _ _
      · rfl
    rwa [hcache]

namespace Loop

theorem logged_step (l : Loop) :
    Logged t l.walker.cache ((l.reading t c).filterMap FileRead.manifest?)
      (l.step t c).walker.cache := by
  obtain ⟨w, stack, starts⟩ := l
  unfold reading step
  dsimp only
  cases stack with
  | cons file rest =>
    dsimp only
    split
    · exact .nil
    · exact w.logged_visit file
  | nil =>
    cases starts with
    | nil => exact .nil
    | cons s starts =>
      dsimp only
      rw [FileRead.filterMap_manifest?_manifests]
      exact s.logged_stacked w

/-- The manifests that the turns read are what the cache does not have when they are asked for. -/
theorem logged_iterate (n : Nat) (l : Loop) :
    Logged t l.walker.cache ((reads t c n l).filterMap FileRead.manifest?)
      ((step t c)^[n] l).walker.cache := by
  induction n generalizing l with
  | zero => exact .nil
  | succ n ih =>
    rw [Function.iterate_succ_apply, reads, List.filterMap_append]
    exact l.logged_step.trans (ih _)

end Loop

/-! ## What is in the map -/

/-- The map holds regular files, under canonical paths if these can be written out, and then each
file once. -/
structure HoldsFiles (t : Tree) (m : FileMap) : Prop where
  file : ∀ r ∈ m.records.toList, t.isFile r.path
  canonical : ∀ r ∈ m.records.toList, (∃ loc, t.canonical r.path = .ok loc ∧ r.path = loc.path) ∨
    t.canonical r.path = .error .nameTooLong
  once : m.records.toList.Pairwise fun r s => t.locate r.path = t.locate s.path →
    t.canonical r.path = .error .nameTooLong ∨ t.canonical s.path = .error .nameTooLong

theorem canonical_of_reachable (hg : t.Grounded) {starts : List Start}
    (hp : Reachable t c .empty starts p) :
    ∃ loc, t.locate p = .ok loc ∧ (t.canonical p = .ok loc ∧ p = loc.path ∨
      t.canonical p = .error .nameTooLong) := by
  obtain ⟨bytes, hread⟩ := recordOf?_isSome_iff.1 (hp.isSome hg)
  obtain ⟨loc, hl, -⟩ := Tree.read_eq_ok_iff.1 hread
  refine ⟨loc, hl, (Tree.canonical_of_locate hl).imp_left fun hc => ⟨hc, ?_⟩⟩
  exact (hp.eq_path hg hc).2

theorem holdsFiles_runAll (hg : t.Grounded) (c : Config) (starts : List Start) :
    HoldsFiles t (runAll t c .empty starts).map := by
  have hreaches := Walker.reaches_runAll hg (closed_reachable t c .empty starts)
  have hrecord {r : FileRecord} (hr : r ∈ (runAll t c .empty starts).map.records.toList) :=
    hreaches.record r hr nofun
  constructor
  case file =>
    intro r hr
    obtain ⟨bytes, hread⟩ := recordOf?_isSome_iff.1 ((hrecord hr).1.isSome hg)
    exact Tree.isFile_of_read hread
  case canonical =>
    intro r hr
    obtain ⟨loc, -, hc⟩ := canonical_of_reachable hg (hrecord hr).1
    exact hc.imp_left fun hc => ⟨loc, hc⟩
  case once =>
    refine (runAll t c .empty starts).map.records_pairwise.imp_of_mem ?_
    intro r s hr hs hne heq
    obtain ⟨loc, hl, hc⟩ := canonical_of_reachable hg (hrecord hr).1
    obtain ⟨loc', hl', hc'⟩ := canonical_of_reachable hg (hrecord hs).1
    rcases hc with ⟨-, hpath⟩ | hc
    · rcases hc' with ⟨-, hpath'⟩ | hc'
      · rw [hl, hl'] at heq
        rw [hpath, hpath', Except.ok.inj heq] at hne
        exact (hne (.refl _)).elim
      · exact .inr hc'
    · exact .inl hc

/-- The visits are those of the records' files, in order, and besides them manifests are read, each
that parses once under its path. -/
structure ReadsFor (t : Tree) (m : FileMap) (reads : List FileRead) : Prop where
  visits : reads.filterMap FileRead.visit? = m.records.toList.map FileRecord.path
  manifest : ∀ p, .manifest p ∈ reads → t.isFile p ∧ ∃ dir : Path, p = dir.child manifestName
  once : (reads.filterMap FileRead.manifest?).Pairwise fun p q =>
    p.Same q → parseManifest t p = none

theorem ReadsFor.visit_mem {m : FileMap} {reads : List FileRead} (h : ReadsFor t m reads)
    {r : FileRecord} (hr : r ∈ m.records.toList) : .visit r.path ∈ reads := by
  have hmem : r.path ∈ reads.filterMap FileRead.visit? := by
    rw [h.visits]
    exact List.mem_map_of_mem hr
  obtain ⟨read, hread, hpath⟩ := List.mem_filterMap.1 hmem
  cases read with
  | visit file =>
    obtain rfl : file = r.path := Option.some.inj hpath
    exact hread
  | manifest path => cases hpath

/-- After finitely many turns nothing is left. What was read by then are the files in the map and
manifests. -/
theorem Loop.exists_readsFor (t : Tree) (c : Config) (starts : List Start) :
    ∃ n, (step t c)^[n] { walker := { map := .empty }, starts := starts } =
        { walker := runAll t c .empty starts } ∧
      ReadsFor t (runAll t c .empty starts).map
        (reads t c n { walker := { map := .empty }, starts := starts }) := by
  obtain ⟨n, hn⟩ := exists_iterate_runEach (t := t) (c := c) { map := .empty } starts
  have hlogged := logged_iterate (t := t) (c := c) n
    { walker := { map := .empty }, starts := starts }
  refine ⟨n, hn, ?_, fun p hp => ?_, hlogged.once⟩
  · have hpaths := paths_iterate (t := t) (c := c) n
      { walker := { map := .empty }, starts := starts }
    rw [hn] at hpaths
    exact hpaths.symm
  · have hmanifest := hlogged.isManifest p (List.mem_filterMap.2 ⟨_, hp, rfl⟩)
    exact ⟨hmanifest.file, hmanifest.named⟩

/-- After finitely many turns no file and no start is left. The files that were visited by then are
the files in the map, each under its path, which is canonical unless it is too long to be written
out; no file that has a canonical path was visited twice. What else was read are manifests that the
resolver asked for, and one that parses was read once under each path. -/
theorem runAll_reads {t : Tree} (hg : t.Grounded) (c : Config) (starts : List Start) :
    ∃ n, (Loop.step t c)^[n] { walker := { map := .empty }, starts := starts } =
        { walker := runAll t c .empty starts } ∧
      ReadsFor t (runAll t c .empty starts).map
        (Loop.reads t c n { walker := { map := .empty }, starts := starts }) ∧
      HoldsFiles t (runAll t c .empty starts).map := by
  obtain ⟨n, hend, hreads⟩ := Loop.exists_readsFor t c starts
  exact ⟨n, hend, hreads, holdsFiles_runAll hg c starts⟩

/-- A script that refers to the manifest of its package, and to itself by its package's directory and
by its name. -/
def inward : Tree where
  entries :=
    [([⟨"p", .refl true⟩], .directory),
      ([⟨"package.json", .refl true⟩, ⟨"p", .refl true⟩],
        .file "\x7b\"main\":\"main.js\"\x7d".toUTF8),
      ([⟨"main.js", .refl true⟩, ⟨"p", .refl true⟩],
        .file "require('./package.json');require('.');require('./main')".toUTF8)]
  cwd := []

theorem runAll_reads_inward : inward.Grounded ∧
    Loop.reads inward {} 4 { walker := { map := .empty }, starts := [.file ⟨"/p/main.js"⟩] } =
      [.visit ⟨"/p/main.js"⟩, .manifest ⟨"/p/package.json"⟩, .visit ⟨"/p/package.json"⟩] ∧
    ∃ n, (Loop.step inward {})^[n]
        { walker := { map := .empty }, starts := [.file ⟨"/p/main.js"⟩] } =
        { walker := runAll inward {} .empty [.file ⟨"/p/main.js"⟩] } ∧
      ReadsFor inward (runAll inward {} .empty [.file ⟨"/p/main.js"⟩]).map
        (Loop.reads inward {} n
          { walker := { map := .empty }, starts := [.file ⟨"/p/main.js"⟩] }) ∧
      HoldsFiles inward (runAll inward {} .empty [.file ⟨"/p/main.js"⟩]).map :=
  ⟨by decide, by decide +kernel, runAll_reads (by decide) {} [.file ⟨"/p/main.js"⟩]⟩

/-! ## A file under two paths -/

namespace Doubled

open PackageMap.Tree
open Twofold (starter twice installed canonical_main locate_main path?_main recordOf?_main)

/-- The first directory on the way to the installed packages. -/
def outer : Name := ⟨"d", .refl true⟩

def mainBytes : ByteArray :=
  "require('./node_modules/a.js');require('./d/../node_modules/a.js')".toUTF8

/-- A script refers in two ways to a file beyond the limit. -/
def tree (dir : Location) : Tree :=
  linked dir installed [([starter], mainBytes), (twice :: dir, "".toUTF8)]

def straight : Path := ⟨"/./node_modules/a.js"⟩

def around : Path := ⟨"/./d/../node_modules/a.js"⟩

/-- The directory is beyond the limit, but the way to it starts with a short name. -/
structure Far (dir : Location) : Prop where
  ne_nil : dir ≠ []
  notLink : ¬ [installed] <:+ dir
  notMain : ¬ [starter] <:+ dir
  outer : [outer] <:+ dir
  long : pathLimit ≤ (Location.path (twice :: dir)).text.utf8ByteSize

variable {dir : Location}

theorem grounded_tree (dir : Location) : (tree dir).Grounded := fun _ => trivial

theorem entry?_starter (h : Far dir) : entry? (tree dir) [starter] = some (.file mainBytes) := by
  unfold tree
  rw [entry?_linked h.notMain, if_neg (by decide)]
  rfl

theorem entry?_twice (h : Far dir) :
    entry? (tree dir) (twice :: dir) = some (.file "".toUTF8) := by
  refine entry?_linked_file h.ne_nil ?_
  rw [List.lookup_cons, beq_false_of_ne (by simp [h.ne_nil]), List.lookup_cons, beq_self_eq_true]

theorem leads_installed (h : Far dir) : Leads (tree dir) .direct linkLimit []
    [.name installed.text, .name twice.text] (twice :: dir) := by
  have hd : entry? (tree dir) dir = some .directory := entry?_linked_of_suffix List.suffix_rfl
  exact leads_linked h.notLink h.ne_nil (.name ⟨rfl, hd⟩ rfl (entry?_twice h) nofun .done)

theorem locate_straight (h : Far dir) : (tree dir).locate straight = .ok (twice :: dir) := by
  have hsteps : stepsOf straight.text = [.here, .name installed.text, .name twice.text] := by
    decide
  have hstart : (tree dir).startOf straight = [] := if_pos (by decide)
  refine locate_eq_ok_iff.2 ⟨by decide, ?_⟩
  rw [hstart, hsteps]
  exact .here ⟨rfl, rfl⟩ (leads_installed h)

theorem locate_around (h : Far dir) : (tree dir).locate around = .ok (twice :: dir) := by
  have hsteps : stepsOf around.text =
      [.here, .name outer.text, .up, .name installed.text, .name twice.text] := by decide
  have hstart : (tree dir).startOf around = [] := if_pos (by decide)
  have houter : entry? (tree dir) [outer] = some .directory := entry?_linked_of_suffix h.outer
  refine locate_eq_ok_iff.2 ⟨by decide, ?_⟩
  rw [hstart, hsteps]
  exact .here ⟨rfl, rfl⟩ (.name ⟨rfl, rfl⟩ rfl houter nofun (.up ⟨rfl, houter⟩ (leads_installed h)))

/-- Either specifier finds the file under the path that it names. -/
theorem outcome_main (h : Far dir) (spec : String) {p : Path}
    (hspec : spec ≠ "" ∧ hasScheme spec = false ∧ isBare spec = false)
    (hpath : specifierPath (Resolution.directoryOf ⟨"/main.js"⟩) spec = p)
    (hl : (tree dir).locate p = .ok (twice :: dir)) (hne : stepsOf p.text ≠ [])
    (hmodules : p.parent?.bind Path.fileName? = some modulesName) :
    (resolve (tree dir) ({} : Config).conventions none ⟨"/main.js"⟩ spec).1.outcome =
      .resolved p := by
  have hself : (tree dir).canonicalOrSelf p = p := canonicalOrSelf_of_long hl hne h.long
  have hfile : (tree dir).isFile p = true := isFile_iff.2 ⟨_, _, hl, entry?_twice h⟩
  show (search _ _ (Resolution.directoryOf ⟨"/main.js"⟩) spec ⟨none, [], []⟩).1 = _
  rw [search_of_find hspec.1 hspec.2.1 hspec.2.2 (q := p), hself]
  · rw [hpath]
    exact List.find?_cons_of_pos hfile
  · rwa [hself]

set_option maxRecDepth 1024 in
theorem specifiers_main : Source.specifiers (Text.Utf8.lossy mainBytes) =
    .ok ["./node_modules/a.js", "./d/../node_modules/a.js"] := by cbv

theorem refers_main_iff (h : Far dir) (p : Path) :
    Refers (tree dir) {} ⟨"/main.js"⟩ p ↔ p = straight ∨ p = around := by
  have hstraight := outcome_main h "./node_modules/a.js" (by decide) (by decide)
    (locate_straight h) (by decide) (by decide)
  have haround := outcome_main h "./d/../node_modules/a.js" (by decide) (by decide)
    (locate_around h) (by decide) (by decide)
  rw [refers_iff (recordOf?_main (entry?_starter h) (by decide) specifiers_main)]
  simp [hstraight, haround, eq_comm]

/-- A walk stays in the script and the two paths. -/
theorem closed_main (h : Far dir) : Closed (tree dir) {} .empty [.file ⟨"/main.js"⟩]
    fun p => p = ⟨"/main.js"⟩ ∨ p = straight ∨ p = around where
  start := by
    intro s hs p hp _ _
    obtain rfl := List.mem_singleton.1 hs
    rw [path?_main (entry?_starter h)] at hp
    exact .inl (Option.some.inj hp).symm
  target := by
    have hempty {p : Path} (hl : (tree dir).locate p = .ok (twice :: dir)) (q : Path) :
        ¬ Refers (tree dir) {} p q :=
      not_refers_of_empty (read_eq_ok_iff.2 ⟨_, hl, entry?_twice h⟩)
    rintro p q (rfl | rfl | rfl) hq _ _
    · exact .inr ((refers_main_iff h q).1 hq)
    · exact (hempty (locate_straight h) q hq).elim
    · exact (hempty (locate_around h) q hq).elim

/-- The three paths differ by their components. -/
theorem eq_of_same {p q : Path} (hp : p = ⟨"/main.js"⟩ ∨ p = straight ∨ p = around)
    (hq : q = ⟨"/main.js"⟩ ∨ q = straight ∨ q = around) (h : p.Same q) : p = q := by
  rcases hp with rfl | rfl | rfl <;> rcases hq with rfl | rfl | rfl
  all_goals first
    | rfl
    | exact absurd h (by decide)

/-- The file is recorded under both paths. -/
theorem exists_record (h : Far dir) {p : Path} (hp : p = straight ∨ p = around) :
    ∃ r ∈ (runAll (tree dir) {} .empty [.file ⟨"/main.js"⟩]).map.records.toList, r.path = p := by
  have hreaches := Walker.reaches_runAll (grounded_tree dir) (closed_main h)
  have hself {p : Path} (hp : p = ⟨"/main.js"⟩ ∨ p = straight ∨ p = around)
      (hin : (runAll (tree dir) {} .empty [.file ⟨"/main.js"⟩]).map.contains p = true) :
      ∃ r ∈ (runAll (tree dir) {} .empty [.file ⟨"/main.js"⟩]).map.records.toList,
        r.path = p := by
    obtain ⟨r, hr, hs⟩ := (FileMap.contains_iff _ p).1 hin
    exact ⟨r, hr, eq_of_same (hreaches.record r hr nofun).1 hp hs⟩
  have hmain : (recordOf? (tree dir) {} ⟨"/main.js"⟩).isSome :=
    recordOf?_isSome_iff.2 ⟨_, read_eq_ok_iff.2 ⟨_, locate_main (entry?_starter h), entry?_starter h⟩⟩
  obtain ⟨r, hr, hpath⟩ := hself (.inl rfl) ((hreaches.start (.file ⟨"/main.js"⟩) (by simp) _
    (path?_main (entry?_starter h)) hmain).resolve_right nofun)
  have hrefers : Refers (tree dir) {} r.path p := hpath ▸ (refers_main_iff h p).2 hp
  exact hself (.inr hp) ((hreaches.target r hr nofun p hrefers).resolve_right nofun)

theorem far_deep : Far Twofold.deep where
  ne_nil := Twofold.deep_ne_nil
  notLink := Twofold.fits_deep.notLink
  notMain := Twofold.fits_deep.notMain
  outer := ⟨List.replicate 2046 outer, by rw [← List.replicate_succ']; rfl⟩
  long := Twofold.fits_deep.long twice

end Doubled

/-- One file has two records, and it is read for both of them. A manifest that a script refers to is
read for the resolver, and again when it is visited. -/
theorem runAll_reads_twice :
    (∃ r ∈ (runAll (Doubled.tree Twofold.deep) {} .empty
        [.file ⟨"/main.js"⟩]).map.records.toList,
      ∃ s ∈ (runAll (Doubled.tree Twofold.deep) {} .empty
          [.file ⟨"/main.js"⟩]).map.records.toList,
        r.path ≠ s.path ∧ ∃ loc, (Doubled.tree Twofold.deep).locate r.path = .ok loc ∧
          (Doubled.tree Twofold.deep).locate s.path = .ok loc ∧ r.path ≠ loc.path ∧
          ∃ n, .visit r.path ∈ Loop.reads (Doubled.tree Twofold.deep) {} n
              { walker := { map := .empty }, starts := [.file ⟨"/main.js"⟩] } ∧
            .visit s.path ∈ Loop.reads (Doubled.tree Twofold.deep) {} n
              { walker := { map := .empty }, starts := [.file ⟨"/main.js"⟩] }) ∧
      .manifest ⟨"/p/package.json"⟩ ∈ Loop.reads inward {} 4
        { walker := { map := .empty }, starts := [.file ⟨"/p/main.js"⟩] } ∧
      .visit ⟨"/p/package.json"⟩ ∈ Loop.reads inward {} 4
        { walker := { map := .empty }, starts := [.file ⟨"/p/main.js"⟩] } := by
  refine ⟨?_, by decide +kernel⟩
  obtain ⟨r, hr, hstraight⟩ := Doubled.exists_record Doubled.far_deep (.inl rfl)
  obtain ⟨s, hs, haround⟩ := Doubled.exists_record Doubled.far_deep (.inr rfl)
  obtain ⟨n, -, hreads⟩ := Loop.exists_readsFor (Doubled.tree Twofold.deep) {}
    [.file ⟨"/main.js"⟩]
  have hlong : Doubled.straight ≠ Location.path (Twofold.twice :: Twofold.deep) := by
    intro heq
    have hsize := Doubled.far_deep.long
    rw [← heq] at hsize
    exact absurd hsize (by decide)
  refine ⟨r, hr, s, hs, by rw [hstraight, haround]; decide, Twofold.twice :: Twofold.deep, ?_⟩
  refine ⟨?_, ?_, by rwa [hstraight], n, ?_, ?_⟩
  · rw [hstraight]
    exact Doubled.locate_straight Doubled.far_deep
  · rw [haround]
    exact Doubled.locate_around Doubled.far_deep
  · exact hreads.visit_mem hr
  · exact hreads.visit_mem hs

end PackageMap
