import PackageMap.Proofs.Resolve.Calls
import PackageMap.Proofs.Resolve.Entry
import PackageMap.Proofs.Resolve.Steps
import PackageMap.Proofs.Walk.Entries

/-!
# Results

A call to the resolver gives a file or a reason why there is none, or neither if a browser map drops
what was asked for, and it lists at most so many paths. The file can be found under the path that is
given for it, and this is its canonical path unless it has none (`run_wellFormed`).
-/

namespace PackageMap.Resolve

variable {t : Tree} {c : Conventions} {p : Path} {cache : Option ManifestCache}

/-! ## The paths that are listed -/

/-- The list is kept within the limit. -/
def Capped (s s' : Search) : Prop := s.tried.length ≤ triedLimit → s'.tried.length ≤ triedLimit

theorem carried_capped (t : Tree) : Carried t Capped where
  refl := fun _ hs => hs
  trans := fun h h' hs => h' (h hs)
  note := by
    intro p s hs
    show (if s.tried.length < triedLimit then { s with tried := p :: s.tried } else s).tried.length ≤
      triedLimit
    split
    · next hlt => exact hlt
    · exact hs
  -- a manifest is not listed where it is read
  read := by
    intro dir s _ hs
    cases hget : s.cache.bind (fun m : ManifestCache => PathTable.get? m (dir.child manifestName)) with
    | some j =>
      rw [readManifest_of_hit hget]
      exact hs
    | none =>
      rw [readManifest_of_miss hget]
      cases parseManifest t (dir.child manifestName) with
      | none => exact hs
      | some j => exact hs
  restore := fun _ hs => hs

/-- However a call ends, it does not list more paths than the limit. -/
theorem Call.length_tried_le (q : Call) (cache : Option ManifestCache) :
    (q.run t cache).1.tried.length ≤ triedLimit := by
  show (q.search t ⟨cache, [], []⟩).2.tried.reverse.length ≤ triedLimit
  rw [List.length_reverse]
  exact (carried_capped t).call q ⟨cache, [], []⟩ (Nat.zero_le _)

/-! ## The path that is given -/

/-- The path leads to a regular file, and it is the file's canonical path unless a location on the
way is too long to be written out. -/
def Names (t : Tree) (p : Path) : Prop :=
  ∃ loc, t.file? p = some loc ∧
    (t.canonical p = .ok loc ∧ p = loc.path ∨ t.canonical p = .error .nameTooLong)

theorem Found.names (hg : t.Grounded) (h : Found t p) : Names t p := by
  obtain ⟨q, hq, rfl⟩ := h
  obtain ⟨loc, hloc, hc⟩ := Tree.canonicalOrSelf_of_isFile hq
  have hfile : t.file? (t.canonicalOrSelf q) = some loc := by
    rw [Tree.file?_eq_some_iff, Tree.locate_canonicalOrSelf hg hq]
    exact Tree.file?_eq_some_iff.1 hloc
  refine ⟨loc, hfile, ?_⟩
  obtain ⟨hcanonical, hpath⟩ | ⟨hlong, hself⟩ := hc
  · rw [hpath]
    exact .inl ⟨Tree.canonical_canonical hg hcanonical, rfl⟩
  · rw [hself]
    exact .inr hlong

/-- The reason that is given, if one is. -/
def Outcome.reason? : Outcome → Option Reason
  | .resolved _ => none
  | .ignored => none
  | .unresolved reason => some reason

/--
A result is well formed. It has the path of a file and no reason, or neither, or a reason and no
path. The file is found under the path, which is canonical unless the file has no canonical path. At
most twenty paths are listed.
-/
theorem run_wellFormed (hg : t.Grounded) (h : Faithful t cache) (q : Call) :
    (q.run t cache).1.tried.length ≤ 20 ∧
      ((∃ file, (q.run t cache).1.outcome.status = "resolved" ∧
          (q.run t cache).1.outcome.file? = some file ∧
          (q.run t cache).1.outcome.reason? = none ∧ Names t file) ∨
        ((q.run t cache).1.outcome.status = "ignored" ∧
          (q.run t cache).1.outcome.file? = none ∧ (q.run t cache).1.outcome.reason? = none) ∨
        ∃ reason, (q.run t cache).1.outcome.status = "unresolved" ∧
          (q.run t cache).1.outcome.file? = none ∧
          (q.run t cache).1.outcome.reason? = some reason) := by
  refine ⟨q.length_tried_le cache, ?_⟩
  have hfound : Outcome.Found t (q.run t cache).1.outcome :=
    (ofSearch_of_faithful q.steady_search h).2.2
  cases ho : (q.run t cache).1.outcome with
  | resolved file => exact .inl ⟨file, rfl, rfl, rfl, (hfound file ho).names hg⟩
  | ignored => exact .inr (.inl ⟨rfl, rfl, rfl⟩)
  | unresolved reason => exact .inr (.inr ⟨reason, rfl, rfl, rfl⟩)

/-- A file, and a link to it in a directory. -/
def linkedFile : Tree where
  entries :=
    [([⟨"z.js", .refl true⟩], .file "".toUTF8),
      ([⟨"k", .refl true⟩], .directory),
      ([⟨"a.js", .refl true⟩, ⟨"k", .refl true⟩], .link "../z.js")]
  cwd := [⟨"k", .refl true⟩]

/-- The link, named from the directory and without its extension, stands for the file. -/
theorem run_wellFormed_linked :
    linkedFile.Grounded ∧ Faithful linkedFile (some .empty) ∧
      ((Call.entry {} ⟨"a"⟩).run linkedFile (some .empty)).1.outcome = .resolved ⟨"/z.js"⟩ ∧
      ((Call.entry {} ⟨"a"⟩).run linkedFile (some .empty)).1.tried.length ≤ 20 ∧
      Names linkedFile ⟨"/z.js"⟩ := by
  have hg : linkedFile.Grounded := by decide
  have hcache := faithful_empty linkedFile
  have hentry : entryOf? linkedFile {} ⟨"a"⟩ = some ⟨"/z.js"⟩ := by decide
  have hfile : ((Call.entry {} ⟨"a"⟩).run linkedFile (some .empty)).1.outcome =
      .resolved ⟨"/z.js"⟩ :=
    Outcome.file?_eq_some_iff.1 ((resolveEntry_entryOf? hcache ⟨"a"⟩).trans hentry)
  obtain ⟨htried, hparts⟩ := run_wellFormed hg hcache (.entry {} ⟨"a"⟩)
  rw [hfile] at hparts
  refine ⟨hg, hcache, hfile, htried, ?_⟩
  rcases hparts with ⟨file, -, hsome, -, hnames⟩ | ⟨hignored, -⟩ | ⟨reason, hunresolved, -⟩
  · obtain rfl := Option.some.inj hsome
    exact hnames
  · exact absurd hignored (by decide)
  · exact absurd hunresolved (by decide)

/-- A file beyond the limit is given with the path that it was asked for, which is not canonical. -/
theorem run_not_canonical :
    (Remote.tree Twofold.deep).Grounded ∧ Faithful (Remote.tree Twofold.deep) none ∧
      ((Call.entry {} ⟨"/p/index.js"⟩).run (Remote.tree Twofold.deep) none).1.outcome =
        .resolved ⟨"/p/index.js"⟩ ∧
      ¬ ∃ loc, (Remote.tree Twofold.deep).canonical ⟨"/p/index.js"⟩ = .ok loc ∧
        Location.path loc = ⟨"/p/index.js"⟩ := by
  have hbeyond := Remote.beyond_deep
  have hpath : pathOf? (Remote.tree Twofold.deep) {} ⟨"/p/index.js"⟩ = some ⟨"/p/index.js"⟩ := by
    unfold pathOf?
    rw [Remote.fileOf?_index hbeyond, Option.some_or]
  refine ⟨fun _ => trivial, faithful_none _, ?_, ?_⟩
  · rw [← Outcome.file?_eq_some_iff, Call.run_entry,
      resolveEntry_file? (Remote.noBrowserMaps _), hpath]
  · rintro ⟨loc, hloc, -⟩
    exact Remote.canonical_index_ne hbeyond loc hloc

end PackageMap.Resolve
