import PackageMap.Proofs.Resolve.Cache

/-!
# Calls that share a cache

Calls to the resolver are made one after another, and each of them starts with the manifests that
the calls before it have read. It still gives what it gives on its own.
-/

namespace PackageMap.Resolve

/-- A call to the resolver, for a specifier in a file of a directory or for an entry path. Each call
may have conventions of its own. -/
inductive Call where
  | specifier (c : Conventions) (dir : Path) (spec : String)
  | entry (c : Conventions) (p : Path)

namespace Call

def search (t : Tree) : Call → SearchM Outcome
  | specifier c dir spec => Resolve.search t c dir spec
  | entry c p => searchEntry t c p

/-- What a call gives, and the cache afterwards. -/
def run (t : Tree) (cache : Option ManifestCache) (q : Call) : Resolution × Option ManifestCache :=
  Resolution.ofSearch (q.search t) cache

/-- What calls give that hand their cache on from each to the next. -/
def runEach (t : Tree) : Option ManifestCache → List Call → List Resolution
  | _, [] => []
  | cache, q :: calls => (q.run t cache).1 :: runEach t (q.run t cache).2 calls

variable {t : Tree} {cache : Option ManifestCache}

theorem run_specifier (c : Conventions) (file : Path) (spec : String) :
    (specifier c (Resolution.directoryOf file) spec).run t cache = resolve t c cache file spec :=
  rfl

theorem run_entry (c : Conventions) (p : Path) :
    (entry c p).run t cache = resolveEntry t c cache p := rfl

theorem steady_search (q : Call) : Steady t (Outcome.Found t) (q.search t) := by
  cases q with
  | specifier c dir spec => exact Resolve.steady_search dir spec
  | entry c p => exact steady_searchEntry p

/-- A call gives the same with a cache that agrees with the tree, and the cache goes on to agree. -/
theorem run_of_faithful (q : Call) (h : Faithful t cache) :
    (q.run t cache).1 = (q.run t none).1 ∧ Faithful t (q.run t cache).2 :=
  have ⟨hsame, hcache, _⟩ := ofSearch_of_faithful q.steady_search h
  ⟨hsame, hcache⟩

theorem runEach_of_faithful (calls : List Call) (h : Faithful t cache) :
    runEach t cache calls = calls.map fun q => (q.run t none).1 := by
  induction calls generalizing cache with
  | nil => rfl
  | cons q calls ih =>
    obtain ⟨hsame, hcache⟩ := q.run_of_faithful h
    rw [runEach, List.map_cons, hsame, ih hcache]

/-- Calls that share a cache, empty at first, give what each of them gives without a cache: the same
outcome, and the same paths that were looked at. -/
theorem runEach_of_empty (t : Tree) (calls : List Call) :
    runEach t (some .empty) calls = calls.map fun q => (q.run t none).1 :=
  runEach_of_faithful calls (faithful_empty t)

end Call

end PackageMap.Resolve
