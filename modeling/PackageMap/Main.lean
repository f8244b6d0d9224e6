import PackageMap.Command.Run

/-!
# The program

The program takes a picture of the part of the disk that a command line is about, runs the command
on the picture, and carries out the one change that a command can make. In the picture are the paths
that the command line names, the project that they belong to, the packages installed above it, and
what links in these lead to.
-/

namespace PackageMap.Disk

/-- What is taken into the picture from a directory. -/
inductive Scope where
  | entry (name : Name)
  | all
deriving BEq

/-- The directories still to be looked at, and the picture so far. -/
structure Picture where
  tree : Tree
  pending : List (Location × Scope) := []
  seen : List (Location × Scope) := []

/-- The location that a path without links writes. -/
def locationOf? (text : String) : Option Location :=
  ((Path.segments text.toList).filter (· ≠ [])).reverse.mapM fun s => Name.ofText? (String.ofList s)

/-- The entries that lead to a location. -/
def leading : Location → List (Location × Scope)
  | [] => []
  | n :: above => leading above ++ [(above, .entry n)]

/-- The location that a path leads to on the disk. -/
def locate? (p : Path) : IO (Option Location) := do
  match ← (IO.FS.realPath p.text).toBaseIO with
  | .ok real => return locationOf? real.toString
  | .error _ => return none

namespace Picture

/-- Ask for more, unless it was asked for before. -/
def request (p : Picture) (visits : List (Location × Scope)) : Picture :=
  let new := visits.filter fun v => !p.seen.contains v
  { p with pending := p.pending ++ new, seen := p.seen ++ new }

def put (p : Picture) (loc : Location) (e : Entry) : Picture :=
  { p with tree := { p.tree with entries := (loc, e) :: p.tree.entries } }

/-- Look at one entry of a directory. What cannot be read counts as missing. -/
def addEntry (p : Picture) (dir : Location) (deep : Bool) (e : IO.FS.DirEntry) : IO Picture := do
  let some name := Name.ofText? e.fileName | return p
  let loc : Location := name :: dir
  let .ok found ← e.path.symlinkMetadata.toBaseIO | return p
  match found.type with
  | .dir => return (p.put loc .directory).request (if deep then [(loc, .all)] else [])
  | .file =>
    match ← (IO.FS.readBinFile e.path).toBaseIO with
    | .ok bytes => return p.put loc (.file bytes)
    | .error _ => return p
  | .symlink =>
    match ← locate? loc.path with
    | none => return p
    | some target =>
      return (p.put loc (.link target.path.text)).request
        (leading target ++ if deep then [(target, .all)] else [])
  | .other => return p

/-- Look at a directory. -/
def visit (p : Picture) (dir : Location) (scope : Scope) : IO Picture := do
  let .ok real ← (IO.FS.realPath dir.path.text).toBaseIO | return p
  let .ok entries ← real.readDir.toBaseIO | return p
  let mut p := p
  for e in entries do
    match scope with
    | .all => p ← p.addEntry dir true e
    | .entry name => if e.fileName = name.text then p ← p.addEntry dir false e
  return p

/-- Look at all that is asked for. -/
def complete (p : Picture) : IO Picture := do
  let mut p := p
  while !p.pending.isEmpty do
    let some (dir, scope) := p.pending.head? | break
    p ← { p with pending := p.pending.tail }.visit dir scope
  return p

/-- Ask for the entries on the way to a path. -/
def requestPath (p : Picture) (path : Path) : IO Picture := do
  let mut p := p
  for q in path.ancestors do
    match q.parent?, q.fileName?.bind Name.ofText? with
    | some dir, some name =>
      if let some loc ← locate? dir then p := p.request (leading loc ++ [(loc, .entry name)])
    | _, _ => pure ()
  return p

/-- Ask for a directory with all below it. -/
def requestAll (p : Picture) (dir : Path) : IO Picture := do
  match ← locate? dir with
  | some loc => return p.request (leading loc ++ [(loc, .all)])
  | none => return p

/-- Ask for the manifests, configurations and installed packages of the directories from `dir`
upwards. -/
def requestProjects (p : Picture) (dir : Path) : IO Picture := do
  let mut p := p
  for d in dir.ancestors do
    for name in [Resolve.manifestName, Config.fileName, Resolve.modulesName] do
      p ← p.requestPath (d.child name)
  return p

/-- Ask for a project and the packages that are installed in it and above it. -/
def requestProject (p : Picture) (root : Path) : IO Picture := do
  let mut p ← p.requestAll root
  for d in root.ancestors do
    p ← p.requestAll (d.child Resolve.modulesName)
  return p

end Picture

open Command in
/-- The picture for a request. -/
def picture (cwd : Location) (i : Invocation) : IO Tree := do
  let here := i.cwd.getD cwd.path
  let start ← Picture.requestPath { tree := ⟨[], cwd⟩ } here
  let project (dir : Path) (given : Option Path) (named : List Path) : IO Tree := do
    let mut p ← start.requestProjects dir
    for path in named do
      p ← p.requestPath (absolutize here path)
    p ← p.complete
    let root := (given.map (absolutize here)).getD ((projectRoot? p.tree dir).getD dir)
    return (← (← (← p.requestProjects root).requestProject root).complete).tree
  match i.request with
  | .version => return start.tree
  | .extract file => return (← (← start.requestPath (absolutize here file)).complete).tree
  | .resolve _ source =>
    let file := absolutize here source
    project (file.parent?.getD file) none [source]
  | .find _ options _ out =>
    project here options.root (options.root.toList ++ options.config.toList ++ out.toList)
  | .batch _ options => project here options.root (options.root.toList ++ options.config.toList)

/-- Write the files that a run has changed, each through a temporary file beside it. -/
def save (before after : Tree) (tag : String) : IO Unit := do
  for (loc, e) in after.entries do
    if before.entry? loc ≠ some e then
      if let .file bytes := e then
        let temporary := Tree.temporary loc.path tag
        IO.FS.writeBinFile temporary.text bytes
        IO.FS.rename temporary.text loc.path.text

/-- The picture for a command line. One that runs nothing needs none. -/
def pictureFor (cwd : Location) (args : List String) : IO Tree :=
  match Command.read args with
  | .run i => picture cwd i
  | _ => return ⟨[], cwd⟩

end PackageMap.Disk

open PackageMap in
/-- Run the command line on the disk. -/
def main (args : List String) : IO UInt32 := do
  let cwd := (Disk.locationOf? (← IO.currentDir).toString).getD []
  let tag := toString (← IO.monoNanosNow)
  let before ← Disk.pictureFor cwd args
  let out := Command.run before tag args
  IO.print out.stdout
  for line in out.stderr do
    IO.eprintln line
  match ← (Disk.save before out.tree tag).toBaseIO with
  | .ok _ => return out.code
  | .error e =>
    IO.eprintln ("Error: " ++ toString e)
    return 1
