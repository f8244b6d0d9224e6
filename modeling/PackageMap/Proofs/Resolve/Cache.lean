import PackageMap.Proofs.Tree.Canonical
import PackageMap.Resolve.Basic

/-!
# Searches and the manifests read before

A cache that agrees with the tree changes nothing in a search: from any two such caches it finds the
same file and lists the same paths, and it leaves such a cache. What it finds is a file.
-/

namespace PackageMap.Resolve

variable {α β : Type} {t : Tree} {c : Conventions}

/-- Each manifest that the cache gives for a file is the one in the file. -/
def Faithful (t : Tree) (cache : Option ManifestCache) : Prop :=
  ∀ m ∈ cache, ∀ p j, t.isFile p → PathTable.get? m p = some j → parseManifest t p = some j

theorem faithful_none (t : Tree) : Faithful t none := nofun

theorem faithful_empty (t : Tree) : Faithful t (some .empty) := by
  intro m hm p j _ hj
  cases hm
  cases hj

theorem isFile_of_parseManifest {p : Path} {j : Json} (h : parseManifest t p = some j) :
    t.isFile p := by
  unfold parseManifest at h
  split at h
  · next hr => exact Tree.isFile_of_read hr
  · cases h

theorem parseManifest_of_read {p : Path} {text : String} (h : t.read p = .ok text.toUTF8) :
    parseManifest t p = Json.ofText? text := by
  unfold parseManifest
  rw [h]
  dsimp only
  rw [Text.Utf8.strict?_toUTF8]
  rfl

theorem Faithful.put {m : ManifestCache} {p : Path} {j : Json} (h : Faithful t (some m))
    (hj : parseManifest t p = some j) : Faithful t (some (PathTable.put m p j)) := by
  intro m' hm q i hq hi
  cases hm
  rw [PathTable.get?_put] at hi
  split at hi
  · next hs =>
    cases hi
    unfold parseManifest at hj ⊢
    rwa [← Tree.read_of_same hs (isFile_of_parseManifest hj) hq]
  · exact h m rfl q i hq hi

/-! ## Steady searches -/

/-- Two searches that have listed the same paths, with caches that agree with the tree. -/
structure Alike (t : Tree) (s s' : Search) : Prop where
  left : Faithful t s.cache
  right : Faithful t s'.cache
  tried : s.tried = s'.tried

/-- Whatever its cache, the search gives the same result, of which `P` holds, and lists the same
paths. -/
def Steady (t : Tree) (P : α → Prop) (m : SearchM α) : Prop :=
  ∀ s s', Alike t s s' → (m s).1 = (m s').1 ∧ Alike t (m s).2 (m s').2 ∧ P (m s).1

variable {P : α → Prop} {Q : β → Prop}

/-- A steady search leaves a cache that agrees with the tree. -/
theorem Steady.faithful {m : SearchM α} {s : Search} (hm : Steady t P m)
    (h : Faithful t s.cache) : Faithful t (m s).2.cache :=
  (hm s s ⟨h, h, rfl⟩).2.1.left

theorem Steady.holds {m : SearchM α} {s : Search} (hm : Steady t P m) (h : Faithful t s.cache) :
    P (m s).1 :=
  (hm s s ⟨h, h, rfl⟩).2.2

theorem Steady.pure {a : α} (h : P a) : Steady t P (pure a) := fun _ _ hs => ⟨rfl, hs, h⟩

theorem Steady.bind {m : SearchM α} {f : α → SearchM β} (hm : Steady t P m)
    (hf : ∀ a, P a → Steady t Q (f a)) : Steady t Q (m >>= f) := by
  intro s s' hs
  obtain ⟨ha, hs, hp⟩ := hm s s' hs
  have h := hf _ hp _ _ hs
  show (f (m s).1 (m s).2).1 = (f (m s').1 (m s').2).1 ∧
    Alike t (f (m s).1 (m s).2).2 (f (m s').1 (m s').2).2 ∧ Q (f (m s).1 (m s).2).1
  rwa [← ha]

theorem steady_note (p : Path) : Steady t (fun _ => True) (note p) := by
  intro s s' hs
  refine ⟨rfl, ?_, trivial⟩
  show Alike t (if s.tried.length < triedLimit then { s with tried := p :: s.tried } else s)
    (if s'.tried.length < triedLimit then { s' with tried := p :: s'.tried } else s')
  rw [hs.tried]
  split
  · exact ⟨hs.left, hs.right, rfl⟩
  · exact hs

theorem readManifest_of_hit {p : Path} {j : Json} {s : Search}
    (h : s.cache.bind (fun m : ManifestCache => PathTable.get? m p) = some j) :
    readManifest t p s = (some j, s) := by
  simp only [readManifest, bind, StateT.bind, get, getThe, MonadStateOf.get, StateT.get, pure, h]
  rfl

theorem readManifest_of_miss {p : Path} {s : Search}
    (h : s.cache.bind (fun m : ManifestCache => PathTable.get? m p) = none) :
    readManifest t p s = match parseManifest t p with
      | none => (none, { s with read := p :: s.read })
      | some j =>
        (some j, { s with
          cache := s.cache.map fun m : ManifestCache => PathTable.put m p j
          read := p :: s.read }) := by
  simp only [readManifest, bind, StateT.bind, get, getThe, MonadStateOf.get, StateT.get, pure, h]
  cases parseManifest t p with
  | none => rfl
  | some j => rfl

theorem readManifest_spec {p : Path} {s : Search} (hp : t.isFile p) (hs : Faithful t s.cache) :
    (readManifest t p s).1 = parseManifest t p ∧ (readManifest t p s).2.tried = s.tried ∧
      Faithful t (readManifest t p s).2.cache := by
  cases hget : s.cache.bind (fun m : ManifestCache => PathTable.get? m p) with
  | some j =>
    rw [readManifest_of_hit hget]
    obtain ⟨m, hm, hj⟩ := Option.bind_eq_some_iff.1 hget
    exact ⟨(hs m hm p j hp hj).symm, rfl, hs⟩
  | none =>
    rw [readManifest_of_miss hget]
    cases hparse : parseManifest t p with
    | none => exact ⟨rfl, rfl, hs⟩
    | some j =>
      refine ⟨rfl, rfl, ?_⟩
      cases hcache : s.cache with
      | none => nofun
      | some m => exact Faithful.put (hcache ▸ hs) hparse

theorem steady_readManifest {p : Path} (hp : t.isFile p) :
    Steady t (fun o => o = parseManifest t p) (readManifest t p) := by
  intro s s' hs
  obtain ⟨ha, htried, hcache⟩ := readManifest_spec hp hs.left
  obtain ⟨ha', htried', hcache'⟩ := readManifest_spec hp hs.right
  exact ⟨ha.trans ha'.symm, ⟨hcache, hcache', by rw [htried, htried', hs.tried]⟩, ha⟩

/-! ## Each search -/

/-- A path that a file is found under: its canonical path, or its own if it has none. -/
def Found (t : Tree) (p : Path) : Prop := ∃ q, t.isFile q ∧ p = t.canonicalOrSelf q

/-- The package that encloses a directory has the manifest that is read there. -/
theorem steady_enclosingAmong (dirs : List Path) :
    Steady t (fun o => ∀ q ∈ o, parseManifest t (q.1.child manifestName) = some q.2)
      (enclosingAmong t dirs) := by
  induction dirs with
  | nil => exact .pure nofun
  | cons dir above ih =>
    unfold enclosingAmong
    split
    · exact .pure nofun
    split
    · next hfile =>
      refine (steady_readManifest hfile).bind fun o ho => .pure ?_
      rintro q hq
      obtain ⟨j, hj, rfl⟩ := Option.map_eq_some_iff.1 hq
      exact ho.symm.trans hj
    · exact ih

theorem steady_firstFile (ps : List Path) :
    Steady t (fun o => ∀ p ∈ o, Found t p) (firstFile t ps) := by
  induction ps with
  | nil => exact .pure nofun
  | cons p ps ih =>
    unfold firstFile
    refine (steady_note p).bind fun _ _ => ?_
    split
    · next hfile =>
      refine .pure ?_
      rintro q hq
      cases hq
      exact ⟨p, hfile, rfl⟩
    · exact ih

theorem steady_resolveField (p : Path) :
    Steady t (fun o => ∀ p ∈ o, Found t p) (resolveField t c p) := by
  unfold resolveField
  refine (steady_firstFile _).bind fun o ho => ?_
  cases o with
  | some file => exact .pure ho
  | none =>
    dsimp only
    split
    · exact steady_firstFile _
    · exact .pure nofun

theorem steady_resolveFields (dir : Path) (manifest : Json) (fields : List String) :
    Steady t (fun o => ∀ p ∈ o, Found t p) (resolveFields t c dir manifest fields) := by
  induction fields with
  | nil => exact .pure nofun
  | cons field fields ih =>
    unfold resolveFields
    split
    · exact ih
    split
    · exact ih
    refine (steady_resolveField _).bind fun o ho => ?_
    cases o with
    | some file => exact .pure ho
    | none => exact ih

theorem steady_resolveManifest (dir : Path) :
    Steady t (fun o => ∀ p ∈ o, Found t p) (resolveManifest t c dir) := by
  unfold resolveManifest
  dsimp only
  split
  · next hfile =>
    refine (steady_note _).bind fun _ _ => (steady_readManifest hfile).bind fun o _ => ?_
    cases o with
    | some manifest => exact steady_resolveFields _ _ _
    | none => exact .pure nofun
  · exact .pure nofun

/-- What is resolved is a file. -/
def Outcome.Found (t : Tree) (o : Outcome) : Prop := ∀ file, o = .resolved file → Resolve.Found t file

theorem steady_resolveDirectory (dir : Path) :
    Steady t (Outcome.Found t) (resolveDirectory t c dir) := by
  unfold resolveDirectory
  split
  · exact .pure nofun
  refine (steady_resolveManifest _).bind fun o ho => ?_
  cases o with
  | some file =>
    refine .pure ?_
    rintro _ ⟨⟩
    exact ho file rfl
  | none =>
    refine (steady_firstFile _).bind fun o ho => ?_
    cases o with
    | some file =>
      refine .pure ?_
      rintro _ ⟨⟩
      exact ho file rfl
    | none => exact .pure nofun

theorem steady_resolvePath (p : Path) : Steady t (Outcome.Found t) (resolvePath t c p) := by
  unfold resolvePath
  refine (steady_firstFile _).bind fun o ho => ?_
  cases o with
  | some file =>
    refine .pure ?_
    rintro _ ⟨⟩
    exact ho file rfl
  | none => exact steady_resolveDirectory p

theorem steady_resolveInstalled (dir : Path) (subpath : Option (List Char)) :
    Steady t (Outcome.Found t) (resolveInstalled t c dir subpath) := by
  unfold resolveInstalled
  split
  · exact steady_resolveDirectory dir
  · exact steady_resolveDirectory dir
  · exact steady_resolvePath _

theorem steady_resolveAmong (b : Bare) (found : Bool) (dirs : List Path) :
    Steady t (Outcome.Found t) (resolveAmong t c b found dirs) := by
  induction dirs generalizing found with
  | nil => exact .pure nofun
  | cons dir above ih =>
    unfold resolveAmong
    split
    · exact ih found
    dsimp only
    split
    · exact ih found
    refine (steady_note _).bind fun _ _ => ?_
    split
    · exact ih true
    refine (steady_resolveInstalled _ _).bind fun o ho => ?_
    cases o with
    | resolved file => exact .pure ho
    | ignored => exact ih true
    | unresolved reason => exact ih true

theorem steady_resolveBare (dir : Path) (spec : String) :
    Steady t (Outcome.Found t) (resolveBare t c dir spec) := by
  unfold resolveBare
  dsimp only
  split
  · exact .pure nofun
  · exact steady_resolveAmong _ _ _

/-- A search may look at what it has listed. -/
theorem Steady.get {f : Search → SearchM β} (htried : ∀ s s', s.tried = s'.tried → f s = f s')
    (hf : ∀ s, Steady t Q (f s)) : Steady t Q (get >>= f) := by
  intro s s' hs
  have h := hf s s s' hs
  show (f s s).1 = (f s' s').1 ∧ Alike t (f s s).2 (f s' s').2 ∧ Q (f s s).1
  rwa [← htried s s' hs.tried]

theorem steady_modifyTried (tried : List Path) :
    Steady t (fun _ => True) (modify fun s : Search => { s with tried }) :=
  fun _ _ hs => ⟨rfl, ⟨hs.left, hs.right, rfl⟩, trivial⟩

theorem steady_applyAlias {file : Path} (hfile : Found t file) :
    Steady t (Outcome.Found t) (applyAlias t c file) := by
  have hself : Outcome.Found t (.resolved file) := by
    rintro _ ⟨⟩
    exact hfile
  unfold applyAlias
  split
  · exact .pure hself
  refine (steady_enclosingAmong _).bind fun o _ => ?_
  split
  · exact .pure hself
  split
  · exact .pure hself
  · exact .pure nofun
  -- a replacement that is not found leaves the list of paths as it was
  refine .get (fun s s' h => by rw [h]) fun s => (steady_resolvePath _).bind fun o ho => ?_
  split
  · exact .pure ho
  · exact (steady_modifyTried s.tried).bind fun _ _ => .pure hself

theorem steady_finish {o : Outcome} (ho : Outcome.Found t o) :
    Steady t (Outcome.Found t) (finish t c o) := by
  unfold finish
  split
  · exact steady_applyAlias (ho _ rfl)
  · exact .pure ho

theorem steady_bareAlias? (dir : Path) (spec : String) :
    Steady t (fun _ => True) (bareAlias? t dir spec) := by
  unfold bareAlias?
  split
  · refine (steady_enclosingAmong _).bind fun o _ => ?_
    split
    · exact .pure trivial
    · exact .pure trivial
  · exact .pure trivial

theorem steady_resolveSpecifier (dir : Path) (spec : String) :
    Steady t (Outcome.Found t) (resolveSpecifier t c dir spec) := by
  unfold resolveSpecifier
  split
  · exact steady_resolvePath _
  split
  · exact steady_resolvePath _
  · exact steady_resolveBare _ _

theorem steady_search (dir : Path) (spec : String) :
    Steady t (Outcome.Found t) (search t c dir spec) := by
  unfold search
  split
  · exact .pure nofun
  split
  · exact .pure nofun
  refine (steady_bareAlias? _ _).bind fun o _ => ?_
  split
  · exact .pure nofun
  · split
    · exact (steady_resolvePath _).bind fun _ ho => steady_finish ho
    split
    · exact (steady_resolveBare _ _).bind fun _ ho => steady_finish ho
    · exact (steady_resolveSpecifier _ _).bind fun _ ho => steady_finish ho
  · exact (steady_resolveSpecifier _ _).bind fun _ ho => steady_finish ho

theorem steady_searchEntry (p : Path) : Steady t (Outcome.Found t) (searchEntry t c p) :=
  (steady_resolvePath _).bind fun _ ho => steady_finish ho

end Resolve

/-! ## Resolutions -/

open Resolve

variable {t : Tree} {c : Conventions} {cache : Option ManifestCache}

theorem ofSearch_of_faithful {m : SearchM Outcome} (hm : Steady t (Outcome.Found t) m)
    (h : Faithful t cache) :
    (Resolution.ofSearch m cache).1 = (Resolution.ofSearch m none).1 ∧
      Faithful t (Resolution.ofSearch m cache).2 ∧
      Outcome.Found t (Resolution.ofSearch m cache).1.outcome := by
  obtain ⟨ho, hs, hfound⟩ := hm ⟨cache, [], []⟩ ⟨none, [], []⟩ ⟨h, faithful_none t, rfl⟩
  refine ⟨?_, hs.left, hfound⟩
  show Resolution.mk (m ⟨cache, [], []⟩).1 (m ⟨cache, [], []⟩).2.tried.reverse =
    Resolution.mk (m ⟨none, [], []⟩).1 (m ⟨none, [], []⟩).2.tried.reverse
  rw [ho, hs.tried]

/-- A specifier is resolved as without a cache, and the cache goes on agreeing with the tree. -/
theorem resolve_of_faithful (h : Faithful t cache) (file : Path) (spec : String) :
    (resolve t c cache file spec).1 = (resolve t c none file spec).1 ∧
      Faithful t (resolve t c cache file spec).2 ∧
      Outcome.Found t (resolve t c cache file spec).1.outcome :=
  ofSearch_of_faithful (steady_search _ _) h

theorem resolveEntry_of_faithful (h : Faithful t cache) (p : Path) :
    (resolveEntry t c cache p).1 = (resolveEntry t c none p).1 ∧
      Faithful t (resolveEntry t c cache p).2 ∧
      Outcome.Found t (resolveEntry t c cache p).1.outcome :=
  ofSearch_of_faithful (steady_searchEntry _) h

end PackageMap
