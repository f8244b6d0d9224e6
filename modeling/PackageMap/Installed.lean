import PackageMap.Manifest
import PackageMap.Path.Table
import PackageMap.Resolve.Basic

/-!
# Installed packages

A package is installed under the `node_modules` of a project or of another package, below its scope
if it has one. The manifests of all installed packages are found by a descent that follows links but
never enters a directory that it is in already, nor a hidden one. A directory is opened by the path
that led to it.
-/

namespace PackageMap

open Resolve (manifestName modulesName)

/-- The parts of a text between slashes. -/
def slashParts (text : String) : List String := (Path.segments text.toList).map String.ofList

/-- The directory of an installed package. -/
def packageDirectory (root : Path) (package : String) : Path :=
  (slashParts package).foldl Path.child (root.child modulesName)

/-- The manifest of an installed package. -/
def packageManifest (root : Path) (package : String) : Path :=
  (packageDirectory root package).child manifestName

/-- The nearest directory at or above `dir` that holds installed packages or a manifest. -/
def projectRoot? (t : Tree) (dir : Path) : Option Path :=
  dir.ancestors.find? fun d =>
    t.isDirectory (d.child modulesName) || t.isFile (d.child manifestName)

namespace Installed

/-- Whether names below a project lead to installed packages, each inside the one before. -/
def isPackageChain : List String → Bool
  | [] => true
  | [_] => false
  | modules :: name :: rest =>
    modules == modulesName &&
      if name.toList.head? = some '@' then
        match rest with
        | [] => false
        | _ :: rest => isPackageChain rest
      else isPackageChain rest

/-- Whether names below a project lead to an installed package. -/
def isPackage (names : List String) : Bool := !names.isEmpty && isPackageChain names

def isHidden (n : Name) : Bool := n.text.toList.head? == some '.'

/-- A directory of the descent: where it is, the path that led there and the names in that path
below the project, last first. -/
structure Place where
  loc : Location
  path : Path
  names : List String

def Place.enter (p : Place) (n : Name) (loc : Location) : Place :=
  ⟨loc, p.path.child n.text, n.text :: p.names⟩

/-- Whether a file in a directory of the descent is the manifest of an installed package. -/
def isManifest (p : Place) (n : Name) : Bool :=
  n.text == manifestName && isPackage p.names.reverse

/-- The names in a directory of the descent. One that cannot be opened has none. -/
def Place.children (t : Tree) (p : Place) : List Name :=
  match Tree.textError? p.path with
  | some _ => []
  | none => t.children p.loc

/--
The manifests in a directory and below. `inside` holds the directories that the descent is in, and
`depth` bounds how many more it may enter.
-/
def manifestsBelow (t : Tree) : Nat → List Location → Place → List Path
  | 0, _, _ => []
  | depth + 1, inside, p =>
    (p.children t).flatMap fun n =>
      match t.entry? (n :: p.loc) with
      | none => []
      | some (.file _) => if isManifest p n then [p.path.child n.text] else []
      | some .directory =>
        if isHidden n then []
        else manifestsBelow t depth ((n :: p.loc) :: inside) (p.enter n (n :: p.loc))
      | some (.link _) =>
        match t.locate (p.path.child n.text) with
        | .error _ => []
        | .ok target =>
          match t.entry? target with
          | some (.file _) => if isManifest p n then [p.path.child n.text] else []
          | some .directory =>
            if isHidden n ∨ inside.contains target then []
            else manifestsBelow t depth (target :: inside) (p.enter n target)
          | _ => []

/-- A bound on the directories that a descent can be in at once: between two links it goes down the
tree, and it follows at most one link to each directory. -/
def depthBound (t : Tree) : Nat := (t.entries.length + 1) * (t.entries.length + 1)

/-- The paths of the manifests of all installed packages. -/
def manifestPaths (t : Tree) (root : Path) : List Path :=
  let modules := root.child modulesName
  match t.directory? modules with
  | none => []
  | some loc => manifestsBelow t (depthBound t) [loc] ⟨loc, modules, [modulesName]⟩

/-- Add the manifest at a path, if it can be read. -/
def addManifest (t : Tree) (found : PathTable Manifest) (p : Path) : PathTable Manifest :=
  match Manifest.read t p with
  | .ok m => found.put p m
  | .error _ => found

end Installed

/-- The manifests of all installed packages that can be read. -/
def installedManifests (t : Tree) (root : Path) : PathTable Manifest :=
  (Installed.manifestPaths t root).foldl (Installed.addManifest t) .empty

end PackageMap
