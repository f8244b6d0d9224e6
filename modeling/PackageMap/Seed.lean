import PackageMap.FileMap
import PackageMap.Installed
import PackageMap.Ordered

/-!
# Seeds

Packages of Reason sources are compiled by the one who uses them, so their sources and build
configurations are in a map before it is walked. A seed is whole or fails: a directory that cannot
be opened or a file without a canonical path ends it.
-/

namespace PackageMap

/-- Why there is no seed. -/
inductive SeedError where
  | io (e : IoError)
  /-- A directory that cannot be opened. -/
  | unopened (dir : Path) (e : IoError)
deriving DecidableEq, Repr

def SeedError.message : SeedError → String
  | .io e => "IO error: " ++ e.message
  | .unopened dir e => "IO error: IO error for operation on " ++ dir.text ++ ": " ++ e.message

/-- What fills a map before a walk. -/
structure Seeder where
  /-- Whether the package that is installed under a root needs it. -/
  applies : Tree → Path → String → Bool
  /-- The records to start from. -/
  seed : Tree → PathTable Manifest → Except SeedError FileMap

namespace Seeder

/-- Fills nothing in. -/
def none : Seeder := ⟨fun _ _ _ => false, fun _ _ => .ok .empty⟩

/-- The build configuration that marks a Reason package. -/
def buildName : String := "bsconfig.json"

def sourceExtensions : List String := ["re", "rei", "ml", "mli"]

/-- Whether a file of a Reason package is a source or part of its configuration. -/
def isReasonFile (n : Name) : Bool :=
  n.text == buildName || n.text == Resolve.manifestName ||
    ((Path.mk n.text).extension?.any sourceExtensions.contains)

/-- A file of a package, if it is a Reason file. -/
def reasonFile (t : Tree) (dir : Path) (n : Name) : Except SeedError (List Location) :=
  if isReasonFile n then
    match t.canonical (dir.child n.text) with
    | .ok file => .ok [file]
    | .error e => .error (.io e)
  else .ok []

/-- The Reason files in a directory and below, in order. Links are not followed, nothing named
`node_modules` is entered, and `depth` bounds how many directories are. -/
def reasonFilesBelow (t : Tree) : Nat → Path → Except SeedError (List Location)
  | 0, _ => .ok []
  | depth + 1, dir =>
    match t.locate dir with
    | .error e => .error (.unopened dir e)
    | .ok loc => do
      let found ← (t.children loc).mapM fun n =>
        if n.text = Resolve.modulesName then .ok []
        else
          match t.entry? (n :: loc) with
          | some (.file _) => reasonFile t dir n
          | some .directory => reasonFilesBelow t depth (dir.child n.text)
          | _ => .ok []
      return found.flatten

/-- The Reason files of the package in a directory. -/
def reasonFiles (t : Tree) (dir : Path) : Except SeedError (List Location) :=
  reasonFilesBelow t (t.entries.length + 1) dir

/-- The directories of the packages with a build configuration, in order. -/
def reasonDirectories (t : Tree) (manifests : PathTable Manifest) : List Path :=
  Ordered.sort Path.le
    ((manifests.keys.filterMap Path.parent?).filter fun dir => t.isFile (dir.child buildName))

/-- Add leaves for the files at the locations. -/
def addLeaves (t : Tree) (m : FileMap) : List Location → Except SeedError FileMap
  | [] => .ok m
  | loc :: locs =>
    match t.readAt loc with
    | .error e => .error (.io e)
    | .ok bytes => addLeaves t (m.insert (.leaf loc.path (Text.Utf8.lossy bytes))) locs

/-- Add the Reason files of the packages in the directories. -/
def addPackages (t : Tree) (m : FileMap) : List Path → Except SeedError FileMap
  | [] => .ok m
  | dir :: dirs =>
    match reasonFiles t dir with
    | .error e => .error e
    | .ok locs =>
      match addLeaves t m locs with
      | .error e => .error e
      | .ok m => addPackages t m dirs

/-- Fills in the Reason files of all installed packages, for a package that has some itself. -/
def reason : Seeder where
  applies t root package := t.isFile ((packageDirectory root package).child buildName)
  seed t manifests := addPackages t .empty (reasonDirectories t manifests)

end Seeder

end PackageMap
