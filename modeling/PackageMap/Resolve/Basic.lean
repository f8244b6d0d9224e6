import PackageMap.Json.Read
import PackageMap.Path.Table
import PackageMap.Resolve.Alias
import PackageMap.Resolve.Specifier
import PackageMap.Text.Utf8

/-!
# Resolving specifiers

A path stands for the first file among it, it with an extension, the entries that its manifest
names and its index file. A bare specifier is looked up in the `node_modules` of the directories
from the requiring file upwards. What is found may be replaced or dropped by the browser map of its
package. The paths that are looked at are listed, and manifests that parse may be kept in a cache.
-/

namespace PackageMap

/-- Parsed manifests by their path. -/
abbrev ManifestCache := PathTable Json

namespace Resolve

inductive Reason where
  | specifierInvalid
  | unsupportedScheme
  | notFound
  | isDirectory
  | nodeModulesNotFound
deriving DecidableEq, Repr

def Reason.code : Reason → String
  | .specifierInvalid => "SPECIFIER_INVALID"
  | .unsupportedScheme => "UNSUPPORTED_SCHEME"
  | .notFound => "NOT_FOUND"
  | .isDirectory => "IS_DIRECTORY"
  | .nodeModulesNotFound => "NODE_MODULES_NOT_FOUND"

inductive Outcome where
  /-- The path of a regular file, canonical if it has a canonical path. -/
  | resolved (file : Path)
  /-- A browser map drops what was asked for. -/
  | ignored
  | unresolved (reason : Reason)
deriving DecidableEq, Repr

def Outcome.status : Outcome → String
  | .resolved _ => "resolved"
  | .ignored => "ignored"
  | .unresolved _ => "unresolved"

/-- What a search carries. -/
structure Search where
  /-- The manifests read before, if they are kept. -/
  cache : Option ManifestCache
  /-- The paths that were looked at, newest first. -/
  tried : List Path
  /-- The manifests whose text was read, newest first. -/
  read : List Path

/-- A search is a function of what it carries. -/
abbrev SearchM := StateM Search

/-- Run a search from the manifests that are kept and the paths that were looked at. -/
def SearchM.run {α : Type} (m : SearchM α) (start : Option ManifestCache × List Path) : α × Search :=
  m ⟨start.1, start.2, []⟩

/-- The greatest number of paths that are listed. -/
def triedLimit : Nat := 20

/-- List a path that is looked at, unless the list is full. -/
def note (p : Path) : SearchM Unit :=
  modify fun s => if s.tried.length < triedLimit then { s with tried := p :: s.tried } else s

/-- The value in the file at `p`, if it is text that parses. -/
def parseManifest (t : Tree) (p : Path) : Option Json :=
  match t.read p with
  | .ok bytes => (Text.Utf8.strict? bytes).bind Json.ofText?
  | .error _ => none

/-- The manifest at `p`, from the cache if it is there, and else from its text. One that does not
parse is not kept. -/
def readManifest (t : Tree) (p : Path) : SearchM (Option Json) := do
  let s ← get
  match s.cache.bind (fun (c : ManifestCache) => c.get? p) with
  | some j => return some j
  | none =>
    let s := { s with read := p :: s.read }
    match parseManifest t p with
    | none =>
      set s
      return none
    | some j =>
      set { s with cache := s.cache.map fun (c : ManifestCache) => c.put p j }
      return some j

/-- The name of a package's manifest. -/
def manifestName : String := "package.json"

/-- The directory that holds installed packages. -/
def modulesName : String := "node_modules"

/-- The nearest of the directories with a manifest, and the manifest. A directory of installed
packages ends the search, and so does a manifest that does not parse. -/
def enclosingAmong (t : Tree) : List Path → SearchM (Option (Path × Json))
  | [] => return none
  | dir :: above => do
    if dir.fileName? = some modulesName then return none
    if t.isFile (dir.child manifestName) then
      return (← readManifest t (dir.child manifestName)).map fun j => (dir, j)
    enclosingAmong t above

/-- The package that a directory belongs to. -/
def enclosingPackage (t : Tree) (dir : Path) : SearchM (Option (Path × Json)) :=
  enclosingAmong t dir.ancestors

/-- The first of the paths that leads to a regular file, made canonical. -/
def firstFile (t : Tree) : List Path → SearchM (Option Path)
  | [] => return none
  | p :: ps => do
    note p
    if t.isFile p then return some (t.canonicalOrSelf p)
    else firstFile t ps

/-- The paths that a file may be found at: `p`, and `p` with each extension. -/
def fileCandidates (c : Conventions) (p : Path) : List Path := p :: c.extensions.map p.append

/-- The paths that a directory's index file may be found at. -/
def indexCandidates (c : Conventions) (dir : Path) : List Path :=
  c.extensions.map fun ext => dir.child (c.indexFile ++ ext)

/-- The file that a path of a manifest's entry field leads to. -/
def resolveField (t : Tree) (c : Conventions) (p : Path) : SearchM (Option Path) := do
  match ← firstFile t (fileCandidates c p) with
  | some file => return some file
  | none =>
    if t.isDirectory p then firstFile t (indexCandidates c p)
    else return none

/-- The file that the first of a manifest's entry fields with a file leads to. -/
def resolveFields (t : Tree) (c : Conventions) (dir : Path) (manifest : Json) :
    List String → SearchM (Option Path)
  | [] => return none
  | field :: fields => do
    match manifest.getString? field with
    | none => resolveFields t c dir manifest fields
    | some entry =>
      if entry = "" then resolveFields t c dir manifest fields
      else
        match ← resolveField t c (dir.child entry) with
        | some file => return some file
        | none => resolveFields t c dir manifest fields

/-- The file that the manifest of a directory names. -/
def resolveManifest (t : Tree) (c : Conventions) (dir : Path) : SearchM (Option Path) := do
  let path := dir.child manifestName
  if t.isFile path then
    note path
    match ← readManifest t path with
    | some manifest => resolveFields t c dir manifest c.mainFields
    | none => return none
  else return none

/-- The file that a directory stands for: an entry that its manifest names, or its index file. -/
def resolveDirectory (t : Tree) (c : Conventions) (dir : Path) : SearchM Outcome := do
  if !t.isDirectory dir then return .unresolved .notFound
  match ← resolveManifest t c dir with
  | some file => return .resolved file
  | none =>
    match ← firstFile t (indexCandidates c dir) with
    | some file => return .resolved file
    | none => return .unresolved .isDirectory

/-- The file that a path stands for. -/
def resolvePath (t : Tree) (c : Conventions) (p : Path) : SearchM Outcome := do
  match ← firstFile t (fileCandidates c p) with
  | some file => return .resolved file
  | none => resolveDirectory t c p

/-- The file that a bare specifier stands for in an installed package. -/
def resolveInstalled (t : Tree) (c : Conventions) (dir : Path) (subpath : Option (List Char)) :
    SearchM Outcome :=
  match subpath with
  | none => resolveDirectory t c dir
  | some [] => resolveDirectory t c dir
  | some sub => resolvePath t c (dir.child (String.ofList sub))

/-- The nearest of the directories whose installed packages have a file for the specifier. `found`
tells whether there was a directory of installed packages before. -/
def resolveAmong (t : Tree) (c : Conventions) (b : Bare) : Bool → List Path → SearchM Outcome
  | found, [] => return .unresolved (if found then .notFound else .nodeModulesNotFound)
  | found, dir :: above => do
    if dir.fileName? = some modulesName then resolveAmong t c b found above
    else
      let modules := dir.child modulesName
      if !t.isDirectory modules then resolveAmong t c b found above
      else
        let package := modules.child (String.ofList b.package)
        note package
        if !t.isDirectory package then resolveAmong t c b true above
        else
          match ← resolveInstalled t c package b.subpath with
          | .resolved file => return .resolved file
          | _ => resolveAmong t c b true above

/-- The file that a bare specifier stands for, seen from a directory. -/
def resolveBare (t : Tree) (c : Conventions) (dir : Path) (spec : String) : SearchM Outcome :=
  let b := splitBare spec.toList
  if b.package = [] ∨ b.package = ['@'] then return .unresolved .specifierInvalid
  else resolveAmong t c b false dir.ancestors

/-- The file that stands in the place of a file by its own package's browser map. A replacement
that is not found leaves the file, and what was looked at for it is not listed. -/
def applyAlias (t : Tree) (c : Conventions) (file : Path) : SearchM Outcome := do
  match file.parent? with
  | none => return .resolved file
  | some dir =>
    match ← enclosingPackage t dir with
    | none => return .resolved file
    | some (package, manifest) =>
      match fileAlias? t c.extensions manifest package file with
      | none => return .resolved file
      | some .ignore => return .ignored
      | some (.replace target) =>
        let tried := (← get).tried
        match ← resolvePath t c (package.child target) with
        | .resolved replaced => return .resolved replaced
        | _ =>
          modify fun s => { s with tried }
          return .resolved file

/-- Follow the browser map of a file that was found. -/
def finish (t : Tree) (c : Conventions) (o : Outcome) : SearchM Outcome :=
  match o with
  | .resolved file => applyAlias t c file
  | o => return o

/-- The alias that the package around a directory has for a bare specifier. -/
def bareAlias? (t : Tree) (dir : Path) (spec : String) : SearchM (Option (Path × Alias)) := do
  if isBare spec then
    match ← enclosingPackage t dir with
    | some (package, manifest) => return (alias? manifest spec).map fun a => (package, a)
    | none => return none
  else return none

/-- The file that a specifier stands for before its own package's browser map is followed. -/
def resolveSpecifier (t : Tree) (c : Conventions) (dir : Path) (spec : String) :
    SearchM Outcome :=
  if isRelative spec then resolvePath t c (dir.child spec)
  else if isAbsolute spec then resolvePath t c ⟨spec⟩
  else resolveBare t c dir spec

/-- What a specifier stands for in a file of the directory `dir`. -/
def search (t : Tree) (c : Conventions) (dir : Path) (spec : String) : SearchM Outcome := do
  if spec = "" then return .unresolved .specifierInvalid
  if hasScheme spec then return .unresolved .unsupportedScheme
  match ← bareAlias? t dir spec with
  | some (_, .ignore) => return .ignored
  | some (package, .replace target) =>
    if isRelative target then finish t c (← resolvePath t c (package.child target))
    else if target ≠ spec then finish t c (← resolveBare t c dir target)
    else finish t c (← resolveSpecifier t c dir spec)
  | none => finish t c (← resolveSpecifier t c dir spec)

/-- What an entry path, which may lack its extension or name a directory, stands for. -/
def searchEntry (t : Tree) (c : Conventions) (p : Path) : SearchM Outcome := do
  finish t c (← resolvePath t c p)

end Resolve

/-- What a specifier or an entry stands for, and the paths that were looked at, in order. -/
structure Resolution where
  outcome : Resolve.Outcome
  tried : List Path
deriving DecidableEq, Repr

namespace Resolution

def ofSearch (m : Resolve.SearchM Resolve.Outcome) (cache : Option ManifestCache) :
    Resolution × Option ManifestCache :=
  let (outcome, s) := m.run (cache, [])
  (⟨outcome, s.tried.reverse⟩, s.cache)

/-- The directory that the specifiers of a file are seen from. -/
def directoryOf (file : Path) : Path := file.parent?.getD ⟨"/"⟩

end Resolution

/-- What a specifier in `file` stands for, and the cache afterwards. -/
def resolve (t : Tree) (c : Conventions) (cache : Option ManifestCache) (file : Path)
    (spec : String) : Resolution × Option ManifestCache :=
  Resolution.ofSearch (Resolve.search t c (Resolution.directoryOf file) spec) cache

/-- What an entry path stands for, and the cache afterwards. -/
def resolveEntry (t : Tree) (c : Conventions) (cache : Option ManifestCache) (p : Path) :
    Resolution × Option ManifestCache :=
  Resolution.ofSearch (Resolve.searchEntry t c p) cache

end PackageMap
