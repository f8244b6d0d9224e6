import PackageMap.Proofs.Walk.Twofold

/-!
# What walks add

A walk adds the records of the files that it reaches and nothing else. The stack is the worklist:
every reference in a file that was added leads to a file in the map or on the stack.
-/

namespace PackageMap

variable {t : Tree} {c : Config} {seed : FileMap}

namespace Walker

open Resolve

/-! ## One visit -/

theorem faithful_getD {cache : Option ManifestCache} {m : ManifestCache} (h : Faithful t cache)
    (hm : Faithful t (some m)) : Faithful t (some (cache.getD m)) := by
  cases cache with
  | none => exact hm
  | some m' => exact h

theorem followOne_spec {w : Walker} (hw : Faithful t (some w.cache)) (file : Path)
    (spec : String) :
    Faithful t (some (followOne t c file w spec).1.cache) ∧
      ∀ q, (followOne t c file w spec).2 = some q ↔
        (resolve t c.conventions none file spec).1.outcome = .resolved q ∧
          ¬ (q.Same file ∨ w.map.contains q = true) := by
  obtain ⟨hr, hcache, -⟩ := resolve_of_faithful (c := c.conventions) hw file spec
  have hcache := faithful_getD hcache hw
  unfold followOne
  dsimp only
  rw [hr]
  cases (resolve t c.conventions none file spec).1.outcome with
  | resolved target =>
    refine ⟨hcache, fun q => ?_⟩
    dsimp only
    split
    · next hold =>
      refine iff_of_false nofun ?_
      rintro ⟨⟨⟩, hnew⟩
      exact hnew hold
    · next hnew =>
      constructor
      · rintro ⟨⟩
        exact ⟨rfl, hnew⟩
      · rintro ⟨⟨⟩, -⟩
        rfl
  | ignored => exact ⟨hcache, fun q => by simp⟩
  | unresolved reason => exact ⟨hcache, fun q => by simp⟩

theorem followAll_spec {w : Walker} (hw : Faithful t (some w.cache)) (file : Path)
    (targets : List Path) (specs : List String) :
    Faithful t (some (followAll t c file w targets specs).1.cache) ∧
      ∀ q, q ∈ (followAll t c file w targets specs).2 ↔ q ∈ targets ∨
        (∃ spec ∈ specs, (resolve t c.conventions none file spec).1.outcome = .resolved q) ∧
          ¬ (q.Same file ∨ w.map.contains q = true) := by
  induction specs generalizing w targets with
  | nil => exact ⟨hw, fun q => by simp [followAll]⟩
  | cons spec specs ih =>
    obtain ⟨hcache, htarget⟩ := followOne_spec (c := c) hw file spec
    have hmap := followOne_map t c file w spec
    unfold followAll
    generalize followOne t c file w spec = followed at hcache htarget hmap
    obtain ⟨hall, hmem⟩ := ih hcache (followed.2.toList ++ targets)
    refine ⟨hall, fun q => ?_⟩
    rw [hmem q, hmap, List.mem_append, Option.mem_toList, htarget q]
    simp only [List.mem_cons, exists_eq_or_imp]
    rw [or_and_right, ← or_assoc, or_comm (a := q ∈ targets)]

theorem faithful_add {w : Walker} (h : Faithful t (some w.cache)) (r : FileRecord) :
    Faithful t (some (w.add r).cache) := by
  unfold add
  split
  · exact h
  · exact h

/-- A visit of a file that can be read adds its record, and gives the targets of its references
that are neither the file itself nor in the map. -/
theorem visit_spec {w : Walker} {file : Path} {r : FileRecord} (hr : recordOf? t c file = some r)
    (hm : w.map.contains file = false) (hw : Faithful t (some w.cache)) :
    (visit t c w file).1.map = w.map.insert r ∧
      Faithful t (some (visit t c w file).1.cache) ∧
      ∀ q, q ∈ (visit t c w file).2 ↔
        Refers t c file q ∧ ¬ (q.Same file ∨ w.map.contains q = true) := by
  have hrefers := refers_iff hr
  unfold recordOf? at hr
  split at hr
  · next bytes hread =>
    cases hr
    have hleaf (hnone : requiresOf c file (Text.Utf8.lossy bytes) = none) (q : Path) :
        q ∈ ([] : List Path) ↔ Refers t c file q ∧ ¬ (q.Same file ∨ w.map.contains q = true) := by
      refine iff_of_false List.not_mem_nil fun h => ?_
      obtain ⟨specs, hspecs, -⟩ := (hrefers q).1 h.1
      rw [hnone] at hspecs
      cases hspecs
    unfold visit
    rw [hread]
    dsimp only
    by_cases hscript : c.isScript file
    · rw [if_pos hscript]
      cases hscan : Source.specifiers (Text.Utf8.lossy bytes) with
      | error e =>
        have hnone : requiresOf c file (Text.Utf8.lossy bytes) = none := by
          rw [requiresOf, if_pos hscript, hscan]
          rfl
        have hw' : Faithful t (some (w.noteUnscanned file).cache) := hw
        rw [hnone]
        exact ⟨add_map hm, faithful_add hw' _, hleaf hnone⟩
      | ok specs =>
        have hsome : requiresOf c file (Text.Utf8.lossy bytes) = some specs := by
          rw [requiresOf, if_pos hscript, hscan]
          rfl
        obtain ⟨hcache, hmem⟩ := followAll_spec (c := c) hw file [] specs
        have hmap := followAll_map t c file w [] specs
        rw [hsome]
        refine ⟨?_, faithful_add hcache _, fun q => ?_⟩
        · dsimp only
          rw [add_map (by rw [hmap]; exact hm), hmap]
        · rw [hrefers q]
          dsimp only
          rw [hmem q, hsome]
          simp
    · rw [if_neg hscript]
      have hnone : requiresOf c file (Text.Utf8.lossy bytes) = none := by
        rw [requiresOf, if_neg hscript]
      rw [hnone]
      exact ⟨add_map hm, faithful_add hw _, hleaf hnone⟩
  · cases hr

theorem visit_of_none {w : Walker} {file : Path} (hr : recordOf? t c file = none) :
    visit t c w file = (w.noteUnreadable file, []) := by
  unfold recordOf? at hr
  split at hr
  · cases hr
  · next e he => exact visit_of_error he

/-! ## The worklist -/

/-- The walker after the starts of `done`, with the paths of `todo` still to visit, which are all in
the set. -/
structure Reaches (t : Tree) (c : Config) (seed : FileMap) (S : Path → Prop) (done : List Start)
    (w : Walker) (todo : List Path) : Prop where
  cache : Faithful t (some w.cache)
  grown : seed.records.toList <+: w.map.records.toList
  record : ∀ r ∈ w.map.records.toList, r ∉ seed.records.toList →
    S r.path ∧ recordOf? t c r.path = some r
  target : ∀ r ∈ w.map.records.toList, r ∉ seed.records.toList →
    ∀ q, Refers t c r.path q → w.map.contains q = true ∨ q ∈ todo
  start : ∀ s ∈ done, ∀ q, s.path? t c = some q → (recordOf? t c q).isSome →
    w.map.contains q = true ∨ q ∈ todo
  todo : ∀ q ∈ todo, (recordOf? t c q).isSome → seed.contains q = false → S q

variable {starts done : List Start} {S : Path → Prop} {w : Walker} {file : Path}
  {rest todo : List Path}

theorem Reaches.contains_of_seed (h : Reaches t c seed S done w todo) {p : Path}
    (hp : seed.contains p = true) : w.map.contains p = true := by
  obtain ⟨r, hr, hs⟩ := (seed.contains_iff p).1 hp
  exact (w.map.contains_iff p).2 ⟨r, h.grown.subset hr, hs⟩

/-- A path whose file is in the map may be passed over. -/
theorem Reaches.pop (h : Reaches t c seed S done w (file :: rest))
    (hfile : (recordOf? t c file).isSome → w.map.contains file = true)
    (hread : Readable t c seed S) : Reaches t c seed S done w rest where
  cache := h.cache
  grown := h.grown
  record := h.record
  target := by
    intro r hr hs q hq
    rcases h.target r hr hs q hq with hc | hc
    · exact .inl hc
    rcases List.mem_cons.1 hc with rfl | hc
    · cases hseed : seed.contains q with
      | true => exact .inl (h.contains_of_seed hseed)
      | false => exact .inl (hfile (hread _ _ (h.record r hr hs).1 hq hseed))
    · exact .inr hc
  start := by
    intro s hs q hq hread
    rcases h.start s hs q hq hread with hc | hc
    · exact .inl hc
    rcases List.mem_cons.1 hc with rfl | hc
    · exact .inl (hfile hread)
    · exact .inr hc
  todo := fun q hq => h.todo q (List.mem_cons_of_mem _ hq)

/-- What cannot be read is noted, which changes neither map nor cache. -/
theorem Reaches.noteUnreadable (h : Reaches t c seed S done w todo) (p : Path) :
    Reaches t c seed S done (w.noteUnreadable p) todo :=
  ⟨h.cache, h.grown, h.record, h.target, h.start, h.todo⟩

/-- A visit adds the record of its file and puts the targets of its references on the stack. -/
theorem Reaches.visit {r : FileRecord} (h : Reaches t c seed S done w (file :: rest))
    (hS : Closed t c seed starts S) (hm : w.map.contains file = false)
    (hr : recordOf? t c file = some r) :
    Reaches t c seed S done (Walker.visit t c w file).1
      ((Walker.visit t c w file).2 ++ rest) := by
  obtain ⟨hmap, hcache, htargets⟩ := visit_spec hr hm h.cache
  obtain rfl := path_of_recordOf? hr
  have hreach : S r.path := by
    refine h.todo _ List.mem_cons_self (by rw [hr]; rfl) ?_
    rw [← Bool.not_eq_true]
    intro hseed
    rw [h.contains_of_seed hseed] at hm
    cases hm
  have hrecords : (Walker.visit t c w r.path).1.map.records.toList =
      w.map.records.toList ++ [r] := by
    rw [hmap, FileMap.records_insert hm, Array.toList_push]
  -- what was in the map is in it, and so is what is the same as the file
  have hkeep {q : Path} (hq : w.map.contains q = true ∨ r.path.Same q) :
      (Walker.visit t c w r.path).1.map.contains q = true := by
    rw [hmap, FileMap.contains_insert]
    rcases hq with hq | hq
    · rw [hq, Bool.true_or]
    · rw [decide_eq_true hq, Bool.or_true]
  have hstill {q : Path} (hq : w.map.contains q = true ∨ q ∈ r.path :: rest) :
      (Walker.visit t c w r.path).1.map.contains q = true ∨
        q ∈ (Walker.visit t c w r.path).2 ++ rest := by
    rcases hq with hq | hq
    · exact .inl (hkeep (.inl hq))
    rcases List.mem_cons.1 hq with rfl | hq
    · exact .inl (hkeep (.inr (.refl _)))
    · exact .inr (List.mem_append_right _ hq)
  constructor
  case cache => exact hcache
  case grown =>
    rw [hrecords]
    exact h.grown.trans (List.prefix_append _ _)
  case record =>
    intro r' hr' hs
    rw [hrecords] at hr'
    rcases List.mem_append.1 hr' with hr' | hr'
    · exact h.record r' hr' hs
    · obtain rfl := List.mem_singleton.1 hr'
      exact ⟨hreach, hr⟩
  case target =>
    intro r' hr' hs q hq
    rw [hrecords] at hr'
    rcases List.mem_append.1 hr' with hr' | hr'
    · exact hstill (h.target r' hr' hs q hq)
    · obtain rfl := List.mem_singleton.1 hr'
      by_cases hold : q.Same r'.path ∨ w.map.contains q = true
      · exact .inl (hkeep (hold.symm.imp_right Path.Same.symm))
      · exact .inr (List.mem_append_left _ ((htargets q).2 ⟨hq, hold⟩))
  case start =>
    intro s hs q hq hread
    exact hstill (h.start s hs q hq hread)
  case todo =>
    intro q hq hread hseed
    rcases List.mem_append.1 hq with hq | hq
    · obtain ⟨hrefers, hnew⟩ := (htargets q).1 hq
      exact hS.target _ q hreach hrefers (fun hself => hnew (.inl hself)) hseed
    · exact h.todo q (List.mem_cons_of_mem _ hq) hread hseed

/-- A walk works off its stack. -/
theorem Reaches.walkStack (hread : Readable t c seed S) (hS : Closed t c seed starts S)
    (h : Reaches t c seed S done w todo) :
    Reaches t c seed S done (Walker.walkStack t c w todo) [] := by
  fun_induction Walker.walkStack t c w todo with
  | case1 w => exact h
  | case2 w file rest hm ih => exact ih (h.pop (fun _ => hm) hread)
  | case3 w file rest hm w' targets hv ih =>
    apply ih
    cases hr : recordOf? t c file with
    | none =>
      rw [visit_of_none hr] at hv
      cases hv
      refine (h.noteUnreadable file).pop (fun hsome => ?_) hread
      rw [hr] at hsome
      cases hsome
    | some r =>
      have hvisit := h.visit hS (eq_false_of_ne_true hm) hr
      rwa [hv] at hvisit

/-- A start without a canonical path leads nowhere. -/
theorem Reaches.skip (h : Reaches t c seed S done w todo) {s : Start}
    (hs : s.path? t c = none) : Reaches t c seed S (s :: done) w todo := by
  refine ⟨h.cache, h.grown, h.record, h.target, ?_, h.todo⟩
  intro s' hs' q hq
  rcases List.mem_cons.1 hs' with rfl | hs'
  · rw [hs] at hq
    cases hq
  · exact h.start s' hs' q hq

/-- A walk from a file takes the file's canonical path as its start. -/
theorem Reaches.walk (hread : Readable t c seed S) (hS : Closed t c seed starts S)
    (h : Reaches t c seed S done w []) {s : Start} {p : Path} (hs : s ∈ starts)
    (hp : s.path? t c = (t.canonical p).toOption.map Location.path) :
    Reaches t c seed S (s :: done) (w.walk t c p) [] := by
  unfold Walker.walk
  cases hc : t.canonical p with
  | error e =>
    rw [hc] at hp
    exact (h.skip hp).noteUnreadable p
  | ok loc =>
    rw [hc] at hp
    refine Reaches.walkStack hread hS ⟨h.cache, h.grown, h.record, ?_, ?_, ?_⟩
    · intro r hr hseed q hq
      exact (h.target r hr hseed q hq).imp_right fun hq => nomatch hq
    · intro s' hs' q hq hread
      rcases List.mem_cons.1 hs' with rfl | hs'
      · rw [hp] at hq
        cases hq
        exact .inr List.mem_cons_self
      · exact (h.start s' hs' q hq hread).imp_right fun hq => nomatch hq
    · intro q hq hread hseed
      obtain rfl := List.mem_singleton.1 hq
      exact hS.start s hs _ hp hread hseed

theorem Reaches.run (hread : Readable t c seed S) (hS : Closed t c seed starts S)
    (h : Reaches t c seed S done w []) {s : Start} (hs : s ∈ starts) :
    Reaches t c seed S (s :: done) (s.run t c w) [] := by
  cases s with
  | file p => exact h.walk hread hS hs rfl
  | entry p =>
    obtain ⟨hr, hcache, -⟩ := resolveEntry_of_faithful (c := c.conventions) h.cache p
    have h' : Reaches t c seed S done
        { w with cache := (resolveEntry t c.conventions (some w.cache) p).2.getD w.cache } [] :=
      ⟨faithful_getD hcache h.cache, h.grown, h.record, h.target, h.start, h.todo⟩
    show Reaches t c seed S (.entry p :: done) (w.walkEntry t c p) []
    unfold walkEntry
    dsimp only
    rw [hr]
    cases ho : (resolveEntry t c.conventions none p).1.outcome with
    | resolved q => exact h'.walk hread hS hs (by simp only [Start.path?, ho])
    | ignored => exact h'.skip (by simp only [Start.path?, ho])
    | unresolved reason => exact h'.skip (by simp only [Start.path?, ho])

theorem Reaches.runEach (hread : Readable t c seed S) (hS : Closed t c seed starts S)
    {more : List Start} (hmore : ∀ s ∈ more, s ∈ starts) (h : Reaches t c seed S done w []) :
    Reaches t c seed S (more.reverse ++ done) (more.foldl (Start.run t c) w) [] := by
  induction more generalizing done w with
  | nil => exact h
  | cons s more ih =>
    rw [List.reverse_cons, List.append_assoc, List.foldl_cons]
    exact ih (fun s' hs' => hmore s' (List.mem_cons_of_mem s hs'))
      (h.run hread hS (hmore s List.mem_cons_self))

theorem reaches_seed : Reaches t c seed S [] { map := seed } [] where
  cache := faithful_empty t
  grown := List.prefix_refl _
  record := fun _ hr hs => (hs hr).elim
  target := fun _ hr hs => (hs hr).elim
  start := nofun
  todo := nofun

theorem reaches_of_readable (hread : Readable t c seed S) (hS : Closed t c seed starts S) :
    Reaches t c seed S (starts.reverse ++ []) (runAll t c seed starts) [] :=
  reaches_seed.runEach hread hS fun _ hs => hs

theorem reaches_runAll (hg : t.Grounded) (hS : Closed t c seed starts S) :
    Reaches t c seed S (starts.reverse ++ []) (runAll t c seed starts) [] :=
  reaches_of_readable (readable_of_grounded hg S) hS

end Walker

/-! ## What the walks add -/

/-- The records that walks add to a seed are those of the files that they reach. -/
structure Adds (t : Tree) (c : Config) (seed : FileMap) (starts : List Start)
    (added : List FileRecord) : Prop where
  /-- Every record is that of a file that is reached. -/
  record : ∀ r ∈ added, Reachable t c seed starts r.path ∧ recordOf? t c r.path = some r
  /-- No path has two records, be it seeded or added. -/
  once : (seed.records.toList ++ added).Pairwise fun r s => ¬ r.path.Same s.path
  /-- Every start that can be read has a record, unless it is seeded. -/
  start : ∀ s ∈ starts, ∀ p, s.path? t c = some p → (recordOf? t c p).isSome →
    seed.contains p = false → ∃ r ∈ added, r.path.Same p
  /-- Every target of a reference in an added file has a record, unless it is seeded. -/
  target : ∀ r ∈ added, ∀ p, Refers t c r.path p → seed.contains p = false →
    ∃ s ∈ added, s.path.Same p
  /-- If no file that is reached is written in two ways, all that is reached has a record. -/
  all : (∀ p q, Reachable t c seed starts p → Reachable t c seed starts q → p.Same q → p = q) →
    ∀ p, Reachable t c seed starts p → ∃ r ∈ added, r.path = p
  /-- So it is if all that is reached has canonical paths. -/
  canonical : (∀ p, Reachable t c seed starts p → ∃ l, t.canonical p = .ok l) →
    ∀ p, Reachable t c seed starts p → ∃ r ∈ added, r.path = p

/-- A path in the map that is not seeded has an added record. -/
theorem exists_added {m : FileMap} {added : List FileRecord} {p : Path}
    (hm : m.records.toList = seed.records.toList ++ added) (hp : m.contains p = true)
    (hseed : seed.contains p = false) : ∃ r ∈ added, r.path.Same p := by
  obtain ⟨r, hr, hs⟩ := (m.contains_iff p).1 hp
  rw [hm] at hr
  rcases List.mem_append.1 hr with hr | hr
  · rw [(seed.contains_iff p).2 ⟨r, hr, hs⟩] at hseed
    cases hseed
  · exact ⟨r, hr, hs⟩

/-- If the starts and all targets are added, and added paths are written as the reachable ones are,
then all that is reached is added. -/
theorem exists_path_of_reachable {starts : List Start} {added : List FileRecord} {p : Path}
    (hstart : ∀ s ∈ starts, ∀ p, s.path? t c = some p → (recordOf? t c p).isSome →
      seed.contains p = false → ∃ r ∈ added, r.path.Same p)
    (htarget : ∀ r ∈ added, ∀ p, Refers t c r.path p → seed.contains p = false →
      ∃ s ∈ added, s.path.Same p)
    (hspelled : ∀ r ∈ added, ∀ q, Reachable t c seed starts q → r.path.Same q → r.path = q)
    (hp : Reachable t c seed starts p) : ∃ r ∈ added, r.path = p := by
  have hself {q : Path} (hq : Reachable t c seed starts q) :
      (∃ r ∈ added, r.path.Same q) → ∃ r ∈ added, r.path = q := by
    rintro ⟨r, hr, hs⟩
    exact ⟨r, hr, hspelled r hr q hq hs⟩
  induction hp with
  | start hs hp hread hseed =>
    exact hself (.start hs hp hread hseed) (hstart _ hs _ hp hread hseed)
  | target hp hq hseed ih =>
    obtain ⟨r, hr, rfl⟩ := ih
    exact hself (.target hp hq hseed) (htarget r hr _ hq hseed)

/-- The records that walks add lie in every set that the walks do not lead out of. -/
theorem mem_of_closed {t : Tree} (hg : t.Grounded) {starts : List Start} {S : Path → Prop}
    (hS : Closed t c seed starts S) {r : FileRecord}
    (hr : r ∈ (runAll t c seed starts).map.records.toList) (hseed : r ∉ seed.records.toList) :
    S r.path :=
  ((Walker.reaches_runAll hg hS).record r hr hseed).1

/-- Walks keep the seed and add the records of what they reach. -/
theorem runAll_adds {t : Tree} (hg : t.Grounded) (c : Config) (seed : FileMap)
    (starts : List Start) :
    ∃ added, (runAll t c seed starts).map.records.toList = seed.records.toList ++ added ∧
      Adds t c seed starts added := by
  have h := Walker.reaches_runAll hg (closed_reachable t c seed starts)
  obtain ⟨added, hadded⟩ := h.grown
  refine ⟨added, hadded.symm, ?_⟩
  have honce : (seed.records.toList ++ added).Pairwise fun r s => ¬ r.path.Same s.path := by
    rw [hadded]
    exact (runAll t c seed starts).map.records_pairwise
  have hmem {r : FileRecord} (hr : r ∈ added) :
      r ∈ (runAll t c seed starts).map.records.toList ∧ r ∉ seed.records.toList := by
    refine ⟨hadded ▸ List.mem_append_right _ hr, fun hs => ?_⟩
    exact (List.pairwise_append.1 honce).2.2 r hs r hr (.refl _)
  have hrecord : ∀ r ∈ added, Reachable t c seed starts r.path ∧ recordOf? t c r.path = some r :=
    fun r hr => h.record r (hmem hr).1 (hmem hr).2
  have hstart : ∀ s ∈ starts, ∀ p, s.path? t c = some p → (recordOf? t c p).isSome →
      seed.contains p = false → ∃ r ∈ added, r.path.Same p := by
    intro s hs p hp hread hseed
    have hdone : s ∈ starts.reverse ++ [] := by simpa using hs
    exact exists_added hadded.symm ((h.start s hdone p hp hread).resolve_right nofun) hseed
  have htarget : ∀ r ∈ added, ∀ p, Refers t c r.path p → seed.contains p = false →
      ∃ s ∈ added, s.path.Same p := by
    intro r hr p hp hseed
    have hin := (h.target r (hmem hr).1 (hmem hr).2 p hp).resolve_right nofun
    exact exists_added hadded.symm hin hseed
  have hall : (∀ p q, Reachable t c seed starts p → Reachable t c seed starts q → p.Same q →
      p = q) → ∀ p, Reachable t c seed starts p → ∃ r ∈ added, r.path = p := by
    intro hspelled p hp
    refine exists_path_of_reachable hstart htarget ?_ hp
    intro r hr q hq hs
    exact hspelled _ _ (hrecord r hr).1 hq hs
  refine ⟨hrecord, honce, hstart, htarget, hall, fun hcanonical => hall ?_⟩
  intro p q hp hq hs
  obtain ⟨l, hl⟩ := hcanonical p hp
  obtain ⟨l', hl'⟩ := hcanonical q hq
  exact hp.eq_of_same hg hq hl hl' hs

/-- Two scripts that require each other. -/
def cycle : Tree where
  entries :=
    [([⟨"proj", by decide⟩], .directory),
      ([⟨"a.js", .refl true⟩, ⟨"proj", by decide⟩], .file "require('./b.js')".toUTF8),
      ([⟨"b.js", .refl true⟩, ⟨"proj", by decide⟩], .file "require('./a.js')".toUTF8)]
  cwd := [⟨"proj", by decide⟩]

theorem runAll_adds_cycle : cycle.Grounded ∧ ∃ added,
    (runAll cycle {} .empty [.file ⟨"a.js"⟩]).map.records.toList =
      FileMap.empty.records.toList ++ added ∧ Adds cycle {} .empty [.file ⟨"a.js"⟩] added :=
  ⟨by decide, runAll_adds (by decide) {} .empty [.file ⟨"a.js"⟩]⟩

namespace Twofold

open PackageMap.Tree

/-- What is reached under the shorter path is not added when the longer one was walked first. -/
theorem not_contains_hidden {dir : Location} {k : Nat} (h : Fits dir k) :
    (runAll (tree dir) (config k) .empty [.file ⟨"/main.js"⟩]).map.contains
      (spelled installed hidden 0 (k + 1)) = false := by
  rw [← Bool.not_eq_true, FileMap.contains_iff]
  rintro ⟨r, hr, hs⟩
  rcases mem_of_closed (grounded_tree dir) (closed_first h) hr nofun with hpath | hpath
  · rw [hpath] at hs
    have hl := locate_unique hs (locate_starter h) (locate_hidden h)
    exact h.ne_nil (List.cons.inj hl).2.symm
  · rw [hpath] at hs
    have hl := locate_unique hs (locate_twice h (Nat.le_refl 1)) (locate_hidden h)
    exact absurd (List.cons.inj hl).1 (by decide)

end Twofold

/-- Not all that is reached is added. -/
theorem runAll_misses :
    (Twofold.tree Twofold.deep).Grounded ∧
      ∃ p, Reachable (Twofold.tree Twofold.deep) (Twofold.config 2037) .empty
          [.file ⟨"/main.js"⟩] p ∧
        (runAll (Twofold.tree Twofold.deep) (Twofold.config 2037) .empty
          [.file ⟨"/main.js"⟩]).map.contains p = false :=
  ⟨Twofold.grounded_tree _, _, Twofold.reachable_hidden Twofold.fits_deep,
    Twofold.not_contains_hidden Twofold.fits_deep⟩

end PackageMap
