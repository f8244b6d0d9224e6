import PackageMap.Proofs.EntryOrder
import PackageMap.Proofs.Walk.Cached
import PackageMap.Proofs.Walk.Turns

/-!
# What walks get for specifiers

A walk asks the resolver for each specifier in each script that it adds, with the manifests that it
has read by then. What it gets is what its report is made of (`exists_notes_of_get?`), and what the
resolver gives without those manifests, so there is one outcome for each specifier in a record
(`exists_mem_edges_iff`).
-/

namespace PackageMap

open Resolve

/-! ## Turns that ask the resolver -/

/-- What a walk gets for a specifier in a file. -/
structure Edge where
  source : Path
  specifier : String
  outcome : Outcome
deriving DecidableEq, Repr

namespace Edge

/-- The edge as a report lists it. -/
def unresolved? (e : Edge) : Option UnresolvedEdge :=
  match e.outcome with
  | .unresolved reason => some ⟨e.source, e.specifier, reason⟩
  | _ => none

def isIgnored (e : Edge) : Bool := e.outcome == .ignored

end Edge

namespace Walker

/-- What the walker gets for the specifiers in a file, one after another. -/
def edgesFrom (t : Tree) (c : Config) (file : Path) : Walker → List String → List Edge
  | _, [] => []
  | w, spec :: specs =>
    ⟨file, spec, (resolve t c.conventions (some w.cache) file spec).1.outcome⟩ ::
      edgesFrom t c file (followOne t c file w spec).1 specs

/-- What a visit of a file gets for the specifiers in it. -/
def edgesOf (t : Tree) (c : Config) (w : Walker) (file : Path) : List Edge :=
  match t.read file with
  | .error _ => []
  | .ok bytes => edgesFrom t c file w ((requiresOf c file (Text.Utf8.lossy bytes)).getD [])

end Walker

namespace Loop

/-- What the next turn gets for specifiers. -/
def asks (t : Tree) (c : Config) (l : Loop) : List Edge :=
  match l.stack with
  | file :: _ => if l.walker.map.contains file then [] else l.walker.edgesOf t c file
  | [] => []

/-- What so many turns get for specifiers, in order. -/
def edges (t : Tree) (c : Config) : Nat → Loop → List Edge
  | 0, _ => []
  | n + 1, l => l.asks t c ++ edges t c n (l.step t c)

end Loop

variable {t : Tree} {c : Config} {w : Walker} {file : Path} {r : FileRecord} {e : Edge}

/-! ## One visit -/

namespace Walker

theorem outcome_of_mem_edgesFrom {specs : List String} (h : Faithful t (some w.cache))
    (he : e ∈ edgesFrom t c file w specs) :
    e.outcome = (resolve t c.conventions none e.source e.specifier).1.outcome := by
  induction specs generalizing w with
  | nil => cases he
  | cons spec specs ih =>
    rcases List.mem_cons.1 he with rfl | he
    · exact congrArg Resolution.outcome (resolve_of_faithful h file spec).1
    · exact ih (followOne_spec h file spec).1 he

theorem exists_mem_edgesFrom {specs : List String} {spec : String} (h : spec ∈ specs) :
    ∃ o, ⟨file, spec, o⟩ ∈ edgesFrom t c file w specs := by
  induction specs generalizing w with
  | nil => cases h
  | cons spec' specs ih =>
    rcases List.mem_cons.1 h with rfl | h
    · exact ⟨_, List.mem_cons_self⟩
    · obtain ⟨o, ho⟩ := ih h
      exact ⟨o, List.mem_cons_of_mem _ ho⟩

theorem outcome_of_mem_edgesOf (h : Faithful t (some w.cache)) (he : e ∈ w.edgesOf t c file) :
    e.outcome = (resolve t c.conventions none e.source e.specifier).1.outcome := by
  unfold edgesOf at he
  split at he
  · cases he
  · exact outcome_of_mem_edgesFrom h he

theorem exists_mem_edgesOf {spec : String} (hr : recordOf? t c file = some r)
    (hspec : spec ∈ r.specifiers) : ∃ o, ⟨r.path, spec, o⟩ ∈ w.edgesOf t c file := by
  unfold recordOf? at hr
  unfold edgesOf
  split at hr
  · next bytes hread =>
    cases hr
    rw [hread]
    exact exists_mem_edgesFrom hspec
  · cases hr

end Walker

/-! ## What is noted -/

/-- The second report is the first one, told of the edges. -/
structure Notes (es : List Edge) (report report' : WalkReport) : Prop where
  unresolved : report'.unresolved.toList =
    report.unresolved.toList ++ es.filterMap Edge.unresolved?
  ignored : report'.ignored = report.ignored + es.countP Edge.isIgnored

theorem Notes.refl (report : WalkReport) : Notes [] report report := ⟨by simp, rfl⟩

theorem Notes.trans {es es' : List Edge} {report report' report'' : WalkReport}
    (h : Notes es report report') (h' : Notes es' report' report'') :
    Notes (es ++ es') report report'' where
  unresolved := by rw [h'.unresolved, h.unresolved, List.filterMap_append, List.append_assoc]
  ignored := by rw [h'.ignored, h.ignored, List.countP_append, Nat.add_assoc]

namespace Walker

theorem notes_followOne (w : Walker) (file : Path) (spec : String) :
    Notes [⟨file, spec, (resolve t c.conventions (some w.cache) file spec).1.outcome⟩] w.report
      (followOne t c file w spec).1.report := by
  unfold followOne
  dsimp only
  cases (resolve t c.conventions (some w.cache) file spec).1.outcome with
  | resolved target => exact ⟨by simp [Edge.unresolved?], by simp [Edge.isIgnored]⟩
  | ignored =>
    exact ⟨by simp [Edge.unresolved?, noteIgnored], by simp [Edge.isIgnored, noteIgnored]⟩
  | unresolved reason =>
    exact ⟨by simp [Edge.unresolved?, noteUnresolved], by simp [Edge.isIgnored, noteUnresolved]⟩

theorem notes_followAll (w : Walker) (file : Path) (targets : List Path) (specs : List String) :
    Notes (edgesFrom t c file w specs) w.report (followAll t c file w targets specs).1.report := by
  induction specs generalizing w targets with
  | nil => exact .refl _
  | cons spec specs ih => exact (notes_followOne w file spec).trans (ih _ _)

theorem notes_add {es : List Edge} {report : WalkReport} (h : Notes es report w.report)
    (r : FileRecord) : Notes es report (w.add r).report := by
  unfold add
  split
  · exact h
  · exact ⟨h.unresolved, h.ignored⟩

theorem notes_visit (w : Walker) (file : Path) :
    Notes (w.edgesOf t c file) w.report (visit t c w file).1.report := by
  unfold edgesOf visit
  cases t.read file with
  | error e => exact ⟨by simp [noteUnreadable], rfl⟩
  | ok bytes =>
    dsimp only
    unfold requiresOf
    split
    · cases Source.specifiers (Text.Utf8.lossy bytes) with
      | error e =>
        have hnone : Notes [] w.report (w.noteUnscanned file).report :=
          ⟨by simp [noteUnscanned], rfl⟩
        exact notes_add hnone _
      | ok specs => exact notes_add (notes_followAll w file [] specs) _
    · exact notes_add (.refl _) _

theorem notes_stacked (w : Walker) (s : Start) : Notes [] w.report (s.stacked t c w).1.report := by
  have hfile (w' : Walker) (p : Path) (hw : w'.report = w.report) :
      Notes [] w.report (w'.stacked t p).1.report := by
    unfold stacked
    split
    · exact ⟨by simp [noteUnreadable, hw], by simp [noteUnreadable, hw]⟩
    · exact hw ▸ .refl _
  cases s with
  | file p => exact hfile w p rfl
  | entry p =>
    unfold Start.stacked
    dsimp only
    split
    · exact hfile _ _ rfl
    · exact .refl _

end Walker

/-! ## All turns -/

namespace Loop

variable {l : Loop}

theorem notes_step (l : Loop) :
    Notes (l.asks t c) l.walker.report (l.step t c).walker.report := by
  obtain ⟨w, stack, starts⟩ := l
  unfold asks step
  dsimp only
  cases stack with
  | nil =>
    cases starts with
    | nil => exact .refl _
    | cons s starts => exact Walker.notes_stacked w s
  | cons file rest =>
    dsimp only
    split
    · exact .refl _
    · exact Walker.notes_visit w file

/-- The turns note what they get. -/
theorem notes_iterate (n : Nat) (l : Loop) :
    Notes (edges t c n l) l.walker.report ((step t c)^[n] l).walker.report := by
  induction n generalizing l with
  | zero => exact .refl _
  | succ n ih =>
    rw [Function.iterate_succ_apply]
    exact (notes_step l).trans (ih _)

theorem faithful_step (h : Faithful t (some l.walker.cache)) :
    Faithful t (some (l.step t c).walker.cache) := by
  obtain ⟨w, stack, starts⟩ := l
  have hstacked (w : Walker) (h : Faithful t (some w.cache)) (p : Path) :
      Faithful t (some (w.stacked t p).1.cache) := by
    unfold Walker.stacked
    split
    · exact h
    · exact h
  unfold step
  dsimp only
  cases stack with
  | cons file rest =>
    dsimp only
    split
    · exact h
    · exact ((Walker.Level.refl h).visit file).2.left
  | nil =>
    cases starts with
    | nil => exact h
    | cons s starts =>
      cases s with
      | file p => exact hstacked w h p
      | entry p =>
        have hentry := (resolveEntry_of_faithful (c := c.conventions) h p).2.1
        have hcache := Walker.faithful_getD hentry h
        show Faithful t (some ((Start.entry p).stacked t c w).1.cache)
        unfold Start.stacked
        dsimp only
        split
        · exact hstacked _ hcache _
        · exact hcache

/-- A turn that adds a record asks for all specifiers in it. -/
theorem mem_records_step (h : Faithful t (some l.walker.cache))
    (hr : r ∈ (l.step t c).walker.map.records.toList) :
    r ∈ l.walker.map.records.toList ∨
      ∀ spec ∈ r.specifiers, ∃ o, ⟨r.path, spec, o⟩ ∈ l.asks t c := by
  obtain ⟨w, stack, starts⟩ := l
  unfold step at hr
  unfold asks
  dsimp only at hr ⊢
  cases stack with
  | nil =>
    cases starts with
    | nil => exact .inl hr
    | cons s starts => exact .inl (by rwa [← records_stacked (t := t) (c := c) w s])
  | cons file rest =>
    dsimp only at hr ⊢
    by_cases hm : w.map.contains file = true
    · rw [if_pos hm] at hr
      exact .inl hr
    · rw [if_neg hm] at hr ⊢
      cases hrecord : recordOf? t c file with
      | none =>
        rw [Walker.visit_of_none hrecord] at hr
        exact .inl hr
      | some s =>
        dsimp only at hr
        rw [(Walker.visit_spec hrecord (eq_false_of_ne_true hm) h).1] at hr
        rcases FileMap.eq_or_mem_of_mem_insert hr with rfl | hr
        · exact .inr fun spec hspec => Walker.exists_mem_edgesOf hrecord hspec
        · exact .inl hr

theorem outcome_of_mem_asks (h : Faithful t (some l.walker.cache)) (he : e ∈ l.asks t c) :
    e.outcome = (resolve t c.conventions none e.source e.specifier).1.outcome := by
  unfold asks at he
  split at he
  · split at he
    · cases he
    · exact Walker.outcome_of_mem_edgesOf h he
  · cases he

/-- Whatever the turns get for a specifier, the resolver gives without a cache. -/
theorem outcome_of_mem_edges {n : Nat} (h : Faithful t (some l.walker.cache))
    (he : e ∈ edges t c n l) :
    e.outcome = (resolve t c.conventions none e.source e.specifier).1.outcome := by
  induction n generalizing l with
  | zero => cases he
  | succ n ih =>
    rcases List.mem_append.1 he with he | he
    · exact outcome_of_mem_asks h he
    · exact ih (faithful_step h) he

/-- The turns ask for all specifiers in the records that they add. -/
theorem mem_records_iterate {n : Nat} (h : Faithful t (some l.walker.cache))
    (hr : r ∈ ((step t c)^[n] l).walker.map.records.toList) :
    r ∈ l.walker.map.records.toList ∨
      ∀ spec ∈ r.specifiers, ∃ o, ⟨r.path, spec, o⟩ ∈ edges t c n l := by
  induction n generalizing l with
  | zero => exact .inl hr
  | succ n ih =>
    rw [Function.iterate_succ_apply] at hr
    rcases ih (faithful_step h) hr with hr | hlater
    · refine (mem_records_step h hr).imp_right fun hnow spec hspec => ?_
      obtain ⟨o, ho⟩ := hnow spec hspec
      exact ⟨o, List.mem_append_left _ ho⟩
    · refine .inr fun spec hspec => ?_
      obtain ⟨o, ho⟩ := hlater spec hspec
      exact ⟨o, List.mem_append_right _ ho⟩

end Loop

/-! ## Maps of packages -/

section

variable {root : Path} {manifests : PathTable Manifest} {package : String} {m : FileMap}

/-- Seeds hold leaves only. -/
theorem Seeder.requires_of_addLeaves {locs : List Location} {m' : FileMap}
    (h : addLeaves t m locs = .ok m') (hm : ∀ r ∈ m.records.toList, r.requires = .none)
    (hr : r ∈ m'.records.toList) : r.requires = .none := by
  induction locs generalizing m with
  | nil =>
    cases h
    exact hm r hr
  | cons loc locs ih =>
    unfold addLeaves at h
    split at h
    · cases h
    · refine ih h fun s hs => ?_
      rcases FileMap.eq_or_mem_of_mem_insert hs with rfl | hs
      · rfl
      · exact hm s hs

theorem Seeder.requires_of_addPackages {dirs : List Path} {m' : FileMap}
    (h : addPackages t m dirs = .ok m') (hm : ∀ r ∈ m.records.toList, r.requires = .none)
    (hr : r ∈ m'.records.toList) : r.requires = .none := by
  induction dirs generalizing m with
  | nil =>
    cases h
    exact hm r hr
  | cons dir dirs ih =>
    unfold addPackages at h
    split at h
    · cases h
    split at h
    · cases h
    · next hleaves => exact ih h fun s hs => requires_of_addLeaves hleaves hm hs

theorem requires_of_mem_seed
    (hr : r ∈ (seededWalker t { config := c } root manifests package).map.records.toList) :
    r.requires = none := by
  unfold seededWalker at hr
  split at hr
  · split at hr
    · next hseed => exact Seeder.requires_of_addPackages hseed nofun hr
    · cases hr
  · cases hr

theorem not_mem_seed_of_specifier {spec : String} (h : spec ∈ r.specifiers) :
    r ∉ (seededWalker t { config := c } root manifests package).map.records.toList := by
  intro hr
  unfold FileRecord.specifiers at h
  rw [requires_of_mem_seed hr] at h
  cases h

/-- The walk of a package before its first turn, if the package has a manifest. -/
def packageLoop? (t : Tree) (c : Config) (root : Path) (manifests : PathTable Manifest)
    (package : String) : Option Loop :=
  (manifests.get? (packageManifest root package)).map fun m =>
    { walker := seededWalker t { config := c } root manifests package
      starts := entryStarts { config := c } root package m }

theorem faithful_packageLoop? {l : Loop} (hl : l ∈ packageLoop? t c root manifests package) :
    Faithful t (some l.walker.cache) := by
  obtain ⟨m, -, rfl⟩ := Option.map_eq_some_iff.1 hl
  have hfresh : (seededWalker t { config := c } root manifests package).Fresh t :=
    fresh_seededWalker
  exact hfresh.cache

/-- The report of a package lists what the walk of the package got. -/
theorem exists_notes_of_get? {m : Manifest}
    (hm : manifests.get? (packageManifest root package) = some m) :
    ∃ l ∈ packageLoop? t c root manifests package, ∃ n,
      Notes (l.edges t c n) {} (findPackage t { config := c } root manifests package).report := by
  obtain ⟨n, hn⟩ := Loop.exists_iterate_runEach (t := t) (c := c)
    (seededWalker t { config := c } root manifests package)
    (entryStarts { config := c } root package m)
  have hnotes := Loop.notes_iterate (t := t) (c := c) n
    ⟨seededWalker t { config := c } root manifests package, [],
      entryStarts { config := c } root package m⟩
  have hfresh : (seededWalker t { config := c } root manifests package).Fresh t :=
    fresh_seededWalker
  rw [hn] at hnotes
  dsimp only at hnotes
  rw [hfresh.report] at hnotes
  refine ⟨_, Option.map_eq_some_iff.2 ⟨m, hm, rfl⟩, n, ?_⟩
  rw [findPackage_eq hm]
  exact hnotes

/-- The records in the map of a package are those that its walks leave. -/
theorem exists_mem_runEach_of_mem_files {key : String}
    (hr : (key, r) ∈ (findPackage t { config := c } root manifests package).files) :
    ∃ m, manifests.get? (packageManifest root package) = some m ∧
      r ∈ ((entryStarts { config := c } root package m).foldl (Start.run t c)
        (seededWalker t { config := c } root manifests package)).map.records.toList := by
  cases hm : manifests.get? (packageManifest root package) with
  | none =>
    rw [findPackage_of_none hm] at hr
    cases hr
  | some m =>
    rw [findPackage_files hm] at hr
    exact ⟨m, rfl, FileMap.mem_of_mem_files hr⟩

/-- They are there after some turns. -/
theorem exists_iterate_of_mem_files {key : String}
    (hr : (key, r) ∈ (findPackage t { config := c } root manifests package).files) :
    ∃ l ∈ packageLoop? t c root manifests package, ∃ n,
      r ∈ ((Loop.step t c)^[n] l).walker.map.records.toList := by
  obtain ⟨m, hm, hrecord⟩ := exists_mem_runEach_of_mem_files hr
  obtain ⟨n, hn⟩ := Loop.exists_iterate_runEach (t := t) (c := c)
    (seededWalker t { config := c } root manifests package)
    (entryStarts { config := c } root package m)
  refine ⟨_, Option.map_eq_some_iff.2 ⟨m, hm, rfl⟩, n, ?_⟩
  rw [hn]
  exact hrecord

/-- The scripts in the map of a package are reached from its entries. -/
theorem exists_reachable_of_mem_files {key spec : String} (hg : t.Grounded)
    (hr : (key, r) ∈ (findPackage t { config := c } root manifests package).files)
    (hspec : spec ∈ r.specifiers) :
    ∃ m, Reachable t c (seededWalker t { config := c } root manifests package).map
      (entryStarts { config := c } root package m) r.path := by
  obtain ⟨m, -, hrecord⟩ := exists_mem_runEach_of_mem_files hr
  have hfresh : (seededWalker t { config := c } root manifests package).Fresh t :=
    fresh_seededWalker
  have hreaches := hfresh.reaches.runEach (readable_of_grounded hg _)
    (closed_reachable t c _ (entryStarts { config := c } root package m)) fun _ hs => hs
  obtain ⟨hreach, -⟩ := hreaches.record r hrecord (not_mem_seed_of_specifier hspec)
  exact ⟨m, hreach⟩

/-- The walk of a package gets one outcome for each specifier in the package's map: that which the
resolver gives without a cache. -/
theorem exists_mem_edges_iff {key spec : String} {o : Outcome}
    (hr : (key, r) ∈ (findPackage t { config := c } root manifests package).files)
    (hspec : spec ∈ r.specifiers) :
    (∃ l ∈ packageLoop? t c root manifests package, ∃ n, ⟨r.path, spec, o⟩ ∈ l.edges t c n) ↔
      o = (resolve t c.conventions none r.path spec).1.outcome := by
  constructor
  · rintro ⟨l, hl, n, he⟩
    exact Loop.outcome_of_mem_edges (faithful_packageLoop? hl) he
  · rintro rfl
    obtain ⟨l, hl, n, hn⟩ := exists_iterate_of_mem_files hr
    have hseed : r ∉ l.walker.map.records.toList := by
      obtain ⟨m, -, rfl⟩ := Option.map_eq_some_iff.1 hl
      dsimp only
      exact not_mem_seed_of_specifier hspec
    have hfaithful := faithful_packageLoop? hl
    obtain ⟨o, ho⟩ := (Loop.mem_records_iterate hfaithful hn).resolve_left hseed spec hspec
    have houtcome : o = (resolve t c.conventions none r.path spec).1.outcome :=
      Loop.outcome_of_mem_edges hfaithful ho
    exact ⟨l, hl, n, houtcome ▸ ho⟩

end

end PackageMap
