import PackageMap.Proofs.Walk.Worklist

/-!
# What walks report

The report of some walks is read off the records that they added: each visit that adds a record
notes what its references come to, and nothing else is noted. A specifier that stands for no file is
warned of the first time only, whichever file it is in.
-/

namespace PackageMap

open Resolve

variable {t : Tree} {c : Config} {seed : FileMap}

/-! ## The notes of one record -/

/-- The note of a specifier in a file, if it stands for no file. -/
def unresolvedEdge? (t : Tree) (c : Config) (file : Path) (spec : String) :
    Option UnresolvedEdge :=
  match (resolve t c.conventions none file spec).1.outcome with
  | .unresolved reason => some ⟨file, spec, reason⟩
  | _ => none

/-- Whether a browser map drops a specifier in a file. -/
def isIgnored (t : Tree) (c : Config) (file : Path) (spec : String) : Bool :=
  (resolve t c.conventions none file spec).1.outcome == .ignored

namespace FileRecord

/-- The specifiers of a record; a leaf has none. -/
def specifiers (r : FileRecord) : List String := r.requires.getD []

/-- The specifiers of a record that stand for no file. -/
def unresolved (t : Tree) (c : Config) (r : FileRecord) : List UnresolvedEdge :=
  r.specifiers.filterMap (unresolvedEdge? t c r.path)

/-- The number of specifiers of a record that browser maps drop. -/
def ignored (t : Tree) (c : Config) (r : FileRecord) : Nat :=
  r.specifiers.countP (isIgnored t c r.path)

/-- Whether a record is that of a script that cannot be scanned. -/
def isUnscanned (c : Config) (r : FileRecord) : Bool :=
  c.isScript r.path && (Source.specifiers r.content).toOption.isNone

end FileRecord

/-- The first edge of each specifier, in order. -/
def firstEdges : List UnresolvedEdge → List UnresolvedEdge
  | [] => []
  | e :: es => e :: (firstEdges es).filter (·.specifier != e.specifier)

/-- The edge that a warning is about. -/
def Warning.edge? : Warning → Option UnresolvedEdge
  | .unresolved e => some e
  | _ => none

theorem firstEdges_concat (es : List UnresolvedEdge) (e : UnresolvedEdge) :
    firstEdges (es ++ [e]) =
      if es.any (·.specifier == e.specifier) then firstEdges es else firstEdges es ++ [e] := by
  induction es with
  | nil => rfl
  | cons d es ih =>
    rw [List.cons_append, firstEdges, ih, List.any_cons]
    by_cases hd : d.specifier = e.specifier
    · -- the edge is dropped for the first one, whether or not another one comes before it
      rw [beq_iff_eq.2 hd, Bool.true_or, if_pos rfl, firstEdges]
      split
      · rfl
      · rw [List.filter_append, List.filter_cons_of_neg (by simp [hd]), List.filter_nil,
          List.append_nil]
    · rw [beq_false_of_ne hd, Bool.false_or, firstEdges]
      split
      · rfl
      · rw [List.filter_append, List.filter_cons_of_pos (by simpa using Ne.symm hd),
          List.filter_nil, List.cons_append]

namespace Walker

/-! ## One reference and all of a file -/

/-- The warnings of specifiers that stand for no file are those of the first edges in the report, and
what has been warned of are the specifiers in the report. -/
structure Warns (w : Walker) : Prop where
  warnings : w.warnings.toList.filterMap Warning.edge? = firstEdges w.report.unresolved.toList
  warned : ∀ spec, spec ∈ w.warned ↔ spec ∈ w.report.unresolved.toList.map UnresolvedEdge.specifier

/-- What counts is what has been warned of and what the report lists as unresolved. -/
theorem Warns.congr {w w' : Walker} (h : w.Warns)
    (hwarnings : w'.warnings.toList.filterMap Warning.edge? =
      w.warnings.toList.filterMap Warning.edge?)
    (hwarned : w'.warned = w.warned) (hreport : w'.report.unresolved = w.report.unresolved) :
    w'.Warns where
  warnings := by rw [hwarnings, hreport, h.warnings]
  warned := by rw [hwarned, hreport]; exact h.warned

theorem warns_of_nil {w : Walker} (hwarnings : w.warnings.toList.filterMap Warning.edge? = [])
    (hwarned : w.warned = []) (hreport : w.report.unresolved = #[]) : w.Warns where
  warnings := by rw [hwarnings, hreport]; rfl
  warned := by rw [hwarned, hreport]; exact fun _ => .rfl

theorem any_specifier_iff {es : List UnresolvedEdge} {spec : String} :
    es.any (·.specifier == spec) = true ↔ spec ∈ es.map UnresolvedEdge.specifier := by
  simp

theorem Warns.noteUnresolved {w : Walker} (h : w.Warns) (e : UnresolvedEdge) :
    (w.noteUnresolved e).Warns := by
  have hunresolved : (w.noteUnresolved e).report.unresolved.toList =
      w.report.unresolved.toList ++ [e] := Array.toList_push
  constructor
  case warnings =>
    rw [hunresolved, firstEdges_concat, ← h.warnings]
    unfold Walker.noteUnresolved
    dsimp only
    simp only [any_specifier_iff, ← h.warned]
    split
    · rfl
    · rw [Array.toList_push, List.filterMap_append]
      rfl
  case warned =>
    intro spec
    show spec ∈ w.warned.insert e.specifier ↔ _
    rw [hunresolved, List.map_append, List.mem_append, List.mem_insert_iff, h.warned, or_comm]
    exact or_congr_right List.mem_singleton.symm

/-- What a report holds once the specifiers of a file are followed. -/
def followed (t : Tree) (c : Config) (file : Path) (specs : List String) (report : WalkReport) :
    WalkReport :=
  { report with
    unresolved := report.unresolved ++ (specs.filterMap (unresolvedEdge? t c file)).toArray
    ignored := report.ignored + specs.countP (isIgnored t c file) }

theorem followed_cons (file : Path) (spec : String) (specs : List String) (report : WalkReport) :
    followed t c file (spec :: specs) report =
      followed t c file specs (followed t c file [spec] report) := by
  have happend : spec :: specs = [spec] ++ specs := rfl
  unfold followed
  simp only [happend, List.filterMap_append, List.countP_append, ← List.append_toArray,
    Array.append_assoc, Nat.add_assoc]

/-- Following a specifier notes in the report what it comes to. -/
theorem followOne_report {w : Walker} (hw : Faithful t (some w.cache)) (h : w.Warns) (file : Path)
    (spec : String) :
    (followOne t c file w spec).1.report = followed t c file [spec] w.report ∧
      (followOne t c file w spec).1.Warns := by
  obtain ⟨hr, -, -⟩ := resolve_of_faithful (c := c.conventions) hw file spec
  have hcached : Warns { w with
      cache := (resolve t c.conventions (some w.cache) file spec).2.getD w.cache } :=
    h.congr rfl rfl rfl
  unfold followOne
  dsimp only
  rw [hr]
  cases ho : (resolve t c.conventions none file spec).1.outcome with
  | resolved target => exact ⟨by simp [followed, unresolvedEdge?, isIgnored, ho], hcached⟩
  | ignored =>
    exact ⟨by simp [followed, unresolvedEdge?, isIgnored, ho, noteIgnored],
      hcached.congr rfl rfl rfl⟩
  | unresolved reason =>
    exact ⟨by simp [followed, unresolvedEdge?, isIgnored, ho, noteUnresolved],
      hcached.noteUnresolved _⟩

theorem followAll_report {w : Walker} (hw : Faithful t (some w.cache)) (h : w.Warns) (file : Path)
    (targets : List Path) (specs : List String) :
    (followAll t c file w targets specs).1.report = followed t c file specs w.report ∧
      (followAll t c file w targets specs).1.Warns := by
  induction specs generalizing w targets with
  | nil => exact ⟨by simp [followAll, followed], h⟩
  | cons spec specs ih =>
    obtain ⟨hcache, -⟩ := followOne_spec (c := c) hw file spec
    obtain ⟨hreport, hwarns⟩ := followOne_report (c := c) hw h file spec
    rw [followed_cons, ← hreport]
    exact ih hcache hwarns _

/-! ## One visit -/

theorem add_report {w : Walker} {r : FileRecord} (h : w.map.contains r.path = false) :
    (w.add r).report = { w.report with filesAdded := w.report.filesAdded + 1 } := by
  unfold add
  rw [if_neg (by simp [h])]

theorem Warns.add {w : Walker} (h : w.Warns) (r : FileRecord) : (w.add r).Warns := by
  unfold Walker.add
  split
  · exact h
  · exact h.congr rfl rfl rfl

/-- What a report holds once the record of a file is added. -/
def recorded (t : Tree) (c : Config) (r : FileRecord) (report : WalkReport) : WalkReport :=
  { followed t c r.path r.specifiers report with
    filesAdded := report.filesAdded + 1
    extractionFailures :=
      if r.isUnscanned c then report.extractionFailures.push r.path
      else report.extractionFailures }

/-- A visit of a file that can be read notes in the report what its record comes to. -/
theorem visit_report {w : Walker} {file : Path} {r : FileRecord}
    (hr : recordOf? t c file = some r) (hm : w.map.contains file = false)
    (hw : Faithful t (some w.cache)) (h : w.Warns) :
    (visit t c w file).1.report = recorded t c r w.report ∧ (visit t c w file).1.Warns := by
  unfold recordOf? at hr
  split at hr
  · next bytes hread =>
    cases hr
    unfold visit recorded followed FileRecord.specifiers FileRecord.isUnscanned requiresOf
    rw [hread]
    dsimp only
    by_cases hscript : c.isScript file
    · rw [if_pos hscript]
      cases hscan : Source.specifiers (Text.Utf8.lossy bytes) with
      | error e =>
        refine ⟨?_, Warns.add (w := w.noteUnscanned file) (h.congr rfl rfl rfl) _⟩
        dsimp only
        rw [add_report (by exact hm)]
        simp [hscript, Except.toOption, noteUnscanned]
      | ok specs =>
        obtain ⟨hreport, hwarns⟩ := followAll_report (c := c) hw h file [] specs
        have hmap := followAll_map t c file w [] specs
        refine ⟨?_, hwarns.add _⟩
        dsimp only
        rw [add_report (by rw [hmap]; exact hm), hreport]
        simp [followed, hscript, Except.toOption]
    · rw [if_neg hscript]
      refine ⟨?_, h.add _⟩
      rw [add_report (by exact hm)]
      simp [hscript]
  · cases hr

/-! ## Whole walks -/

/-- The report of a walker is that of the records that it added to a seed. -/
structure Reports (t : Tree) (c : Config) (seed : FileMap) (w : Walker)
    (added : List FileRecord) : Prop where
  cache : Faithful t (some w.cache)
  warns : w.Warns
  records : w.map.records.toList = seed.records.toList ++ added
  record : ∀ r ∈ added, recordOf? t c r.path = some r
  filesAdded : w.report.filesAdded = added.length
  extractionFailures :
    w.report.extractionFailures.toList = (added.filter (·.isUnscanned c)).map FileRecord.path
  unresolved : w.report.unresolved.toList = added.flatMap (·.unresolved t c)
  ignored : w.report.ignored = (added.map (·.ignored t c)).sum

variable {w : Walker} {added : List FileRecord}

theorem Reports.noteUnreadable (h : Reports t c seed w added) (p : Path) :
    Reports t c seed (w.noteUnreadable p) added := by
  have hwarns : (w.noteUnreadable p).Warns := by
    refine h.warns.congr ?_ rfl rfl
    unfold Walker.noteUnreadable
    rw [Array.toList_push, List.filterMap_append]
    exact List.append_nil _
  exact ⟨h.cache, hwarns, h.records, h.record, h.filesAdded, h.extractionFailures, h.unresolved,
    h.ignored⟩

theorem Reports.withCache (h : Reports t c seed w added) {cache : Option ManifestCache}
    (hcache : Faithful t cache) :
    Reports t c seed { w with cache := cache.getD w.cache } added :=
  ⟨faithful_getD hcache h.cache, h.warns.congr rfl rfl rfl, h.records, h.record, h.filesAdded, h.extractionFailures,
    h.unresolved, h.ignored⟩

theorem Reports.visit {file : Path} {r : FileRecord} (h : Reports t c seed w added)
    (hm : w.map.contains file = false) (hr : recordOf? t c file = some r) :
    Reports t c seed (Walker.visit t c w file).1 (added ++ [r]) := by
  obtain ⟨hmap, hcache, -⟩ := visit_spec hr hm h.cache
  obtain ⟨hreport, hwarns⟩ := visit_report hr hm h.cache h.warns
  obtain rfl := path_of_recordOf? hr
  constructor
  case cache => exact hcache
  case warns => exact hwarns
  case records =>
    rw [hmap, FileMap.records_insert hm, Array.toList_push, h.records, List.append_assoc]
  case record =>
    intro s hs
    rcases List.mem_append.1 hs with hs | hs
    · exact h.record s hs
    · rwa [List.mem_singleton.1 hs]
  case filesAdded =>
    rw [hreport, List.length_append]
    exact congrArg (· + 1) h.filesAdded
  case extractionFailures =>
    rw [hreport, List.filter_append, List.map_append, ← h.extractionFailures]
    unfold recorded
    by_cases hs : r.isUnscanned c <;> simp [hs]
  case unresolved =>
    rw [hreport, List.flatMap_append, ← h.unresolved]
    simp [recorded, followed, FileRecord.unresolved]
  case ignored =>
    rw [hreport, List.map_append, List.sum_append, ← h.ignored]
    simp [recorded, followed, FileRecord.ignored]

theorem Reports.walkStack (h : Reports t c seed w added) (stack : List Path) :
    ∃ more, Reports t c seed (Walker.walkStack t c w stack) (added ++ more) := by
  fun_induction Walker.walkStack t c w stack generalizing added with
  | case1 w => exact ⟨[], by rwa [List.append_nil]⟩
  | case2 w file rest hm ih => exact ih h
  | case3 w file rest hm w' targets hv ih =>
    cases hr : recordOf? t c file with
    | none =>
      rw [visit_of_none hr] at hv
      cases hv
      exact ih (h.noteUnreadable file)
    | some r =>
      have hvisit := h.visit (eq_false_of_ne_true hm) hr
      rw [hv] at hvisit
      obtain ⟨more, hmore⟩ := ih hvisit
      exact ⟨r :: more, by rwa [← List.singleton_append, ← List.append_assoc]⟩

theorem Reports.walk (h : Reports t c seed w added) (p : Path) :
    ∃ more, Reports t c seed (w.walk t c p) (added ++ more) := by
  unfold Walker.walk
  split
  · exact ⟨[], by rw [List.append_nil]; exact h.noteUnreadable p⟩
  · exact h.walkStack _

theorem Reports.run (h : Reports t c seed w added) (s : Start) :
    ∃ more, Reports t c seed (s.run t c w) (added ++ more) := by
  cases s with
  | file p => exact h.walk p
  | entry p =>
    obtain ⟨-, hcache, -⟩ := resolveEntry_of_faithful (c := c.conventions) h.cache p
    have h' := h.withCache hcache
    show ∃ more, Reports t c seed (w.walkEntry t c p) (added ++ more)
    unfold walkEntry
    dsimp only
    split
    · exact h'.walk _
    · exact ⟨[], by rwa [List.append_nil]⟩

theorem Reports.runEach (h : Reports t c seed w added) (starts : List Start) :
    ∃ more, Reports t c seed (starts.foldl (Start.run t c) w) (added ++ more) := by
  induction starts generalizing w added with
  | nil => exact ⟨[], by rwa [List.append_nil]⟩
  | cons s starts ih =>
    obtain ⟨first, hfirst⟩ := h.run s
    obtain ⟨more, hmore⟩ := ih hfirst
    exact ⟨first ++ more, by rwa [← List.append_assoc]⟩

theorem reports_seed : Reports t c seed { map := seed } [] :=
  ⟨faithful_empty t, warns_of_nil rfl rfl rfl, (List.append_nil _).symm, nofun, rfl, rfl, rfl, rfl⟩

theorem exists_reports (t : Tree) (c : Config) (seed : FileMap) (starts : List Start) :
    ∃ added, Reports t c seed (runAll t c seed starts) added :=
  reports_seed.runEach starts

/-- Each script that cannot be scanned is listed once, because its path has one record. -/
theorem Reports.nodup_extractionFailures (h : Reports t c seed w added) :
    w.report.extractionFailures.toList.Nodup := by
  have hpaths := w.map.records_pairwise
  rw [h.records] at hpaths
  rw [h.extractionFailures]
  refine List.pairwise_map.2 (((List.pairwise_append.1 hpaths).2.1.filter _).imp ?_)
  intro r s hne heq
  exact hne (heq ▸ .refl _)

end Walker

/-- The report of walks is determined by the records that they added, in the order in which they
added them. -/
theorem runAll_report (t : Tree) (c : Config) (seed : FileMap) (starts : List Start) :
    ∃ added, (runAll t c seed starts).map.records.toList = seed.records.toList ++ added ∧
      (∀ r ∈ added, recordOf? t c r.path = some r) ∧
      (runAll t c seed starts).report.filesAdded = added.length ∧
      (runAll t c seed starts).report.extractionFailures.toList =
        (added.filter (·.isUnscanned c)).map FileRecord.path ∧
      (runAll t c seed starts).report.extractionFailures.toList.Nodup ∧
      (runAll t c seed starts).report.unresolved.toList = added.flatMap (·.unresolved t c) ∧
      (runAll t c seed starts).report.ignored = (added.map (·.ignored t c)).sum ∧
      (runAll t c seed starts).warnings.toList.filterMap Warning.edge? =
        firstEdges (added.flatMap (·.unresolved t c)) := by
  obtain ⟨added, h⟩ := Walker.exists_reports t c seed starts
  refine ⟨added, h.records, h.record, h.filesAdded, h.extractionFailures,
    h.nodup_extractionFailures, h.unresolved, h.ignored, ?_⟩
  rw [← h.unresolved]
  exact h.warns.warnings

namespace Mixed

def package : Location := [⟨"p", .refl true⟩]

/-- A script with a reference that is dropped, one that stands for no file, one to a script that
cannot be scanned and one to a script that refers to what is missing again. -/
def tree : Tree where
  entries :=
    [(package, .directory),
      (⟨"package.json", .refl true⟩ :: package,
        .file "\x7b\"browser\":\x7b\"left\":false\x7d\x7d".toUTF8),
      (⟨"main.js", .refl true⟩ :: package,
        .file "require('left');require('./gone');require('./bad');require('./more')".toUTF8),
      (⟨"bad.js", .refl true⟩ :: package, .file "'".toUTF8),
      (⟨"more.js", .refl true⟩ :: package, .file "require('./gone')".toUTF8)]
  cwd := []

def starts : List Start := [.file ⟨"/p/main.js"⟩]

end Mixed

theorem runAll_report_mixed :
    ∃ added, (runAll Mixed.tree {} .empty Mixed.starts).map.records.toList = added ∧
      added.map FileRecord.path = [⟨"/p/main.js"⟩, ⟨"/p/bad.js"⟩, ⟨"/p/more.js"⟩] ∧
      (runAll Mixed.tree {} .empty Mixed.starts).report.filesAdded = 3 ∧
      (added.filter (·.isUnscanned {})).map FileRecord.path = [⟨"/p/bad.js"⟩] ∧
      added.flatMap (·.unresolved Mixed.tree {}) =
        [⟨⟨"/p/main.js"⟩, "./gone", .notFound⟩, ⟨⟨"/p/more.js"⟩, "./gone", .notFound⟩] ∧
      (added.map (·.ignored Mixed.tree {})).sum = 1 ∧
      firstEdges (added.flatMap (·.unresolved Mixed.tree {})) =
        [⟨⟨"/p/main.js"⟩, "./gone", .notFound⟩] := by
  obtain ⟨added, hrecords, -, hadded, hfailures, -, hunresolved, hignored, hwarnings⟩ :=
    runAll_report Mixed.tree {} .empty Mixed.starts
  rw [show FileMap.empty.records.toList = [] from rfl, List.nil_append] at hrecords
  obtain ⟨hpaths, hreport, hedges⟩ :
      (runAll Mixed.tree {} .empty Mixed.starts).map.records.toList.map FileRecord.path =
          [⟨"/p/main.js"⟩, ⟨"/p/bad.js"⟩, ⟨"/p/more.js"⟩] ∧
        (runAll Mixed.tree {} .empty Mixed.starts).report =
          { filesAdded := 3
            unresolved :=
              #[⟨⟨"/p/main.js"⟩, "./gone", .notFound⟩, ⟨⟨"/p/more.js"⟩, "./gone", .notFound⟩]
            extractionFailures := #[⟨"/p/bad.js"⟩]
            ignored := 1 } ∧
        (runAll Mixed.tree {} .empty Mixed.starts).warnings.toList.filterMap Warning.edge? =
          [⟨⟨"/p/main.js"⟩, "./gone", .notFound⟩] := by
    decide +kernel
  rw [hreport] at hadded hfailures hunresolved hignored
  exact ⟨added, hrecords, hrecords ▸ hpaths, congrArg WalkReport.filesAdded hreport,
    hfailures.symm, hunresolved.symm, hignored.symm, hwarnings.symm.trans hedges⟩

/-- What has been warned of in some walks are the specifiers that are reported as unresolved. -/
theorem mem_warned_runAll_iff {spec : String} {starts : List Start} :
    spec ∈ (runAll t c seed starts).warned ↔
      spec ∈ (runAll t c seed starts).report.unresolved.toList.map UnresolvedEdge.specifier := by
  obtain ⟨added, h⟩ := Walker.exists_reports t c seed starts
  exact h.warns.warned spec

end PackageMap
