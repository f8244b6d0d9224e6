import PackageMap.FinalMap
import PackageMap.Seed
import PackageMap.Walk

/-!
# Package maps

The map of a package is walked from the entries of its manifest, on top of its seed, and then held
against the size limit.
-/

namespace PackageMap

/-- How package maps are made. -/
structure FindOptions where
  config : Config := {}
  /-- The paths to walk a package from, given its directory and manifest. -/
  entries : Path → Manifest → List (Option Path) := fun dir m => m.entries dir
  seeder : Seeder := Seeder.reason

structure FindResult where
  /-- The records by their keys below the root, in order. -/
  files : List (String × FileRecord) := []
  /-- What the size limit did; a package without manifest has no map to hold against it. -/
  outcome : Option GuardOutcome := none
  size : Nat := 0
  report : WalkReport := {}
  warnings : Array Warning := #[]

/-- The walk of a package before its first entry. -/
def seededWalker (t : Tree) (o : FindOptions) (root : Path) (manifests : PathTable Manifest)
    (package : String) : Walker :=
  if o.seeder.applies t root package then
    match o.seeder.seed t manifests with
    | .ok m => { map := m }
    | .error _ => { map := .empty, warnings := #[.unseeded package] }
  else { map := .empty }

/-- The map of a package that is installed under `root`, where paths are shown as texts. -/
def findPackageAs (shown : Path → String) (t : Tree) (o : FindOptions) (root : Path)
    (manifests : PathTable Manifest) (package : String) : FindResult :=
  match manifests.get? (packageManifest root package) with
  | none => {}
  | some manifest =>
    let entries := (o.entries (packageDirectory root package) manifest).filterMap id
    let w := entries.foldl (Walker.walkEntry t o.config) (seededWalker t o root manifests package)
    let final :=
      w.map.finalizeAs shown manifest.capabilities (t.canonicalOrSelf root) o.config.sizeLimit
    ⟨final.files, some final.outcome, final.size, w.report, w.warnings⟩

def findPackage (t : Tree) (o : FindOptions) (root : Path) (manifests : PathTable Manifest)
    (package : String) : FindResult :=
  findPackageAs Path.text t o root manifests package

theorem findPackage_of_none {t : Tree} {o : FindOptions} {root : Path}
    {manifests : PathTable Manifest} {package : String}
    (h : manifests.get? (packageManifest root package) = none) :
    findPackage t o root manifests package = {} := by
  unfold findPackage findPackageAs; rw [h]

/-- The maps of several packages, in the order they are asked for. -/
def findPackages (t : Tree) (o : FindOptions) (root : Path) (manifests : PathTable Manifest)
    (packages : List String) : List (String × FindResult) :=
  packages.map fun package => (package, findPackage t o root manifests package)

end PackageMap
