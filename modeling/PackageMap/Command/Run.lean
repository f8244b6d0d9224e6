import PackageMap.Command.Arguments
import PackageMap.Command.Report
import PackageMap.ConfigFile
import PackageMap.Source.Reference
import PackageMap.Tree.Write

/-!
# Running commands

A command is a function of a file tree: it gives an exit code, what it writes to the two outputs,
and the tree afterwards. Only a map that is written to a file changes the tree.
-/

namespace PackageMap.Command

def version : String := "0.1.0"

def programName : String := "reqmap"

def versionText : String := programName ++ " " ++ version

structure Output where
  code : UInt32 := 0
  stdout : String := ""
  stderr : List String := []
  tree : Tree

namespace Output

/-- Success, with lines on the standard output. -/
def ofLines (t : Tree) (lines : List String) : Output :=
  { tree := t, stdout := String.join (lines.map (· ++ "\n")) }

/-- A failure, with lines on the standard error output. -/
def failure (t : Tree) (stderr : List String) : Output := { code := 1, stderr, tree := t }

/-- A failure that is reported to the user as it is. -/
def error (t : Tree) (message : String) : Output := failure t ["Error: " ++ message]

end Output

/-- The path as seen from the working directory. -/
def absolutize (cwd p : Path) : Path := if p.isAbsolute then p else cwd.child p.text

/-- A project's root and its configuration. -/
structure Project where
  root : Path
  config : Config

/-- The project that the options name, or else the one around the working directory. -/
def Project.load (t : Tree) (cwd : Path) (o : ProjectOptions) : Except ConfigError Project := do
  let root := match o.root with
    | some root => absolutize cwd root
    | none => (projectRoot? t cwd).getD cwd
  let config ← match o.config with
    | some p => Config.load t (absolutize cwd p)
    | none => Config.discover t root
  return ⟨root, { config with sizeLimit := o.sizeLimit.getD config.sizeLimit }⟩

/-- The configuration of the project around a file. -/
def enclosingConfig (t : Tree) (file : Path) : Except ConfigError Config :=
  match projectRoot? t (file.parent?.getD file) with
  | some root => Config.discover t root
  | none => .ok {}

def runVersion (t : Tree) (json : Bool) : Output :=
  .ofLines t [if json then
    (Json.object [("name", .string programName), ("version", .string version)]).compactText
    else versionText]

/-- Print the map of a package or a report of it, or write the map to a file. -/
def runFind (t : Tree) (tag : String) (json : Bool) (project : Project) (package : String)
    (report : Bool) (out : Option Path) : Output :=
  let result := findPackage t { config := project.config } project.root
    (installedManifests t project.root) package
  if report then
    let report : Report := ⟨package, project.root, result⟩
    .ofLines t (if json then [report.json.prettyText] else report.lines)
  else
    let text := (FinalMap.filesJson result.files).prettyText
    match out with
    | none => .ofLines t [text]
    | some p =>
      match t.replaceFile p text.toUTF8 tag with
      | (t, .ok _) => { tree := t }
      | (t, .error e) => .error t e.message

/-- Print the maps of several packages under their names, in order. -/
def runBatch (t : Tree) (project : Project) (packages : List String) : Output :=
  let results := findPackages t { config := project.config } project.root
    (installedManifests t project.root) packages
  let maps := results.foldl (fun ms r => Ordered.put r.1 (FinalMap.filesJson r.2.files) ms) []
  .ofLines t [(Json.object maps).prettyText]

def referenceJson (r : Source.Reference) : Json :=
  .object [("kind", .string r.kind.name), ("line", .ofNat r.line.toNat),
    ("specifier", .string r.specifier)]

def referenceLine (r : Source.Reference) : String :=
  toString r.line ++ "\t" ++ r.kind.name ++ "\t" ++ r.specifier

/-- Print the references in a file. -/
def runExtract (t : Tree) (json : Bool) (file : Path) : Output :=
  match t.read file with
  | .error e => .error t e.message
  | .ok bytes =>
    match Source.scan (Text.Utf8.lossy bytes) with
    | .ok rs =>
      if json then
        .ofLines t [(Json.object [("ok", .bool true),
          ("requires", .array (rs.map referenceJson))]).prettyText]
      else .ofLines t (rs.map referenceLine)
    | .error e =>
      if json then
        let answer := Json.object [
          ("error", .object [("code", .string "EXTRACT_FAILED"), ("message", .string e.message)]),
          ("ok", .bool false)]
        { Output.ofLines t [answer.compactText] with code := 1 }
      else .failure t ["error: " ++ file.text ++ ": " ++ e.message]

/-- An answer that a specifier was resolved, to a path or to nothing. -/
def foundJson (specifier status : String) (resolved : Json) : Json :=
  .object [("ok", .bool true), ("resolved", resolved), ("specifier", .string specifier),
    ("status", .string status)]

/-- An answer that a specifier stands for no file. -/
def missingJson (specifier : String) (source : Path) (reason : Resolve.Reason)
    (tried : List Path) : Json :=
  .object [
    ("error", .object [("code", .string reason.code),
      ("message", .string ("Cannot resolve '" ++ specifier ++ "' from " ++ source.text))]),
    ("ok", .bool false),
    ("specifier", .string specifier),
    ("tried", .array (tried.map fun p => .string p.text))]

/-- Print what a specifier in a file stands for. -/
def runResolve (t : Tree) (json : Bool) (c : Config) (specifier : String) (source : Path) :
    Output :=
  let (r, _) := resolve t c.conventions none source specifier
  match r.outcome with
  | .resolved file =>
    .ofLines t [if json then
      (foundJson specifier r.outcome.status (.string file.text)).prettyText else file.text]
  | .ignored =>
    .ofLines t [if json then (foundJson specifier r.outcome.status .null).prettyText
      else "(ignored by browser map)"]
  | .unresolved reason =>
    if json then
      { Output.ofLines t [(missingJson specifier source reason r.tried).prettyText] with code := 1 }
    else
      .failure t (("error: cannot resolve '" ++ specifier ++ "' [" ++ reason.code ++ "]") ::
        r.tried.map fun p => "  tried " ++ p.text)

/-- Run a request. `tag` names the temporary files of this run. -/
def runRequest (t : Tree) (tag : String) (i : Invocation) : Output :=
  let cwd := i.cwd.getD t.cwd.path
  match i.request with
  | .version => runVersion t i.json
  | .find package options report out =>
    match Project.load t cwd options with
    | .error e => .error t e.message
    | .ok project => runFind t tag i.json project package report (out.map (absolutize cwd))
  | .batch packages options =>
    match Project.load t cwd options with
    | .error e => .error t e.message
    | .ok project => runBatch t project packages
  | .extract file => runExtract t i.json (absolutize cwd file)
  | .resolve specifier source =>
    let source := absolutize cwd source
    match enclosingConfig t source with
    | .error e => .error t e.message
    | .ok c => runResolve t i.json c specifier (t.canonicalOrSelf source)

def usage : List String :=
  ["Usage: reqmap [-v] [--json] [--cwd PATH] [COMMAND]",
    "",
    "Commands:",
    "  version                            print the version",
    "  find PACKAGE [--report] [--out FILE] [PROJECT]",
    "                                     print the file map of an installed package",
    "  batch PACKAGE... [PROJECT]         print the file maps of several packages",
    "  extract FILE                       list the specifiers in a file",
    "  resolve SPECIFIER --from FILE      print what a specifier in a file stands for",
    "",
    "Project:",
    "  [--root PATH] [--config FILE] [--size-limit UNITS]"]

/-- Run a command line. -/
def run (t : Tree) (tag : String) (args : List String) : Output :=
  match read args with
  | .run i => runRequest t tag i
  | .help => .ofLines t usage
  | .version => .ofLines t [versionText]
  | .misuse => { code := 2, stderr := usage, tree := t }

end PackageMap.Command
