import PackageMap.Proofs.Resolve.Steps

/-!
# Manifests that are read

The text of a manifest is read only if the cache does not have it, and one that parses is put there.
So what is read is logged as a way from one cache to another (`Call.logged`), and on such a way no
manifest that parses is read again under the same path (`Logged.once`).
-/

namespace PackageMap.Resolve

variable {t : Tree} {c : Conventions} {m m' m'' : ManifestCache} {ps qs : List Path} {p q : Path}

/-- The path is that of the manifest in a directory. -/
structure IsManifest (t : Tree) (p : Path) : Prop where
  file : t.isFile p
  named : ∃ dir : Path, p = dir.child manifestName

/-- The cache once a manifest is read that it does not have. -/
def keepManifest (t : Tree) (m : ManifestCache) (p : Path) : ManifestCache :=
  match parseManifest t p with
  | some j => PathTable.put m p j
  | none => m

/-- The manifests that are read on the way from one cache to another, in order. -/
inductive Logged (t : Tree) : ManifestCache → List Path → ManifestCache → Prop
  | nil {m : ManifestCache} : Logged t m [] m
  | read {m m' : ManifestCache} {p : Path} {ps : List Path} (hp : IsManifest t p)
    (hmiss : PathTable.get? m p = none) (h : Logged t (keepManifest t m p) ps m') :
    Logged t m (p :: ps) m'

namespace Logged

theorem trans (h : Logged t m ps m') (h' : Logged t m' qs m'') : Logged t m (ps ++ qs) m'' := by
  induction h with
  | nil => exact h'
  | read hp hmiss _ ih => exact .read hp hmiss (ih h')

theorem isManifest (h : Logged t m ps m') : ∀ p ∈ ps, IsManifest t p := by
  induction h with
  | nil => nofun
  | read hp _ _ ih => exact List.forall_mem_cons.2 ⟨hp, ih⟩

theorem get?_of_keepManifest (h : PathTable.get? (keepManifest t m p) q = none) :
    PathTable.get? m q = none := by
  unfold keepManifest at h
  split at h
  · rw [PathTable.get?_put] at h
    split at h
    · cases h
    · exact h
  · exact h

/-- What the cache has is not read. -/
theorem get?_of_mem (h : Logged t m ps m') (hq : q ∈ ps) : PathTable.get? m q = none := by
  induction h with
  | nil => cases hq
  | read _ hmiss _ ih =>
    rcases List.mem_cons.1 hq with rfl | hq
    · exact hmiss
    · exact get?_of_keepManifest (ih hq)

/-- A manifest that is read for the second time under one path does not parse. -/
theorem once (h : Logged t m ps m') :
    ps.Pairwise fun p q => p.Same q → parseManifest t p = none := by
  induction h with
  | nil => exact .nil
  | @read m m' p ps _ _ h ih =>
    refine List.pairwise_cons.2 ⟨fun q hq hs => ?_, ih⟩
    have hrest := h.get?_of_mem hq
    unfold keepManifest at hrest
    split at hrest
    · rw [PathTable.get?_put, if_pos hs] at hrest
      cases hrest
    · next hnone => exact hnone

end Logged

/-! ## Searches -/

/-- What is read in between leads from the one cache to the other. -/
def Logs (t : Tree) (s s' : Search) : Prop :=
  ∀ m, s.cache = some m →
    ∃ ps m', s'.cache = some m' ∧ s'.read = ps.reverse ++ s.read ∧ Logged t m ps m'

theorem logs_of_eq {s s' : Search} (hcache : s'.cache = s.cache) (hread : s'.read = s.read) :
    Logs t s s' :=
  fun m hm => ⟨[], m, hcache.trans hm, hread, .nil⟩

theorem carried_logs (t : Tree) : Carried t (Logs t) where
  refl := fun _ => logs_of_eq rfl rfl
  trans := by
    intro s u v h h' m hm
    obtain ⟨ps, m', hm', hps, hlogged⟩ := h m hm
    obtain ⟨qs, m'', hm'', hqs, hlogged'⟩ := h' m' hm'
    refine ⟨ps ++ qs, m'', hm'', ?_, hlogged.trans hlogged'⟩
    rw [hqs, hps, List.reverse_append, List.append_assoc]
  note := by
    intro p s
    show Logs t s (if s.tried.length < triedLimit then { s with tried := p :: s.tried } else s)
    split
    · exact logs_of_eq rfl rfl
    · exact logs_of_eq rfl rfl
  read := by
    intro dir s hfile m hm
    have hp : IsManifest t (dir.child manifestName) := ⟨hfile, dir, rfl⟩
    cases hget : PathTable.get? m (dir.child manifestName) with
    | some j =>
      rw [readManifest_of_hit (by rw [hm]; exact hget)]
      exact logs_of_eq rfl rfl m hm
    | none =>
      rw [readManifest_of_miss (by rw [hm]; exact hget)]
      refine ⟨[dir.child manifestName], keepManifest t m (dir.child manifestName), ?_, ?_,
        .read hp hget .nil⟩
      · unfold keepManifest
        cases parseManifest t (dir.child manifestName) with
        | none => exact hm
        | some j => exact congrArg (Option.map _) hm
      · cases parseManifest t (dir.child manifestName) with
        | none => rfl
        | some j => rfl
  restore := fun h m hm => h m hm

/-- The manifests whose text a call reads, in order. -/
def Call.reads (t : Tree) (cache : Option ManifestCache) (q : Call) : List Path :=
  (q.search t ⟨cache, [], []⟩).2.read.reverse

/-- What a call reads leads from the cache before to the cache afterwards. -/
theorem Call.logged (q : Call) (m : ManifestCache) :
    ∃ m', (q.run t (some m)).2 = some m' ∧ Logged t m (q.reads t (some m)) m' := by
  obtain ⟨ps, m', hm', hps, hlogged⟩ := (carried_logs t).call q ⟨some m, [], []⟩ m rfl
  refine ⟨m', hm', ?_⟩
  unfold Call.reads
  rw [hps, List.append_nil, List.reverse_reverse]
  exact hlogged

end PackageMap.Resolve
