import PackageMap.Path.Basic
import PackageMap.Decimal

/-!
# Command lines

A command line is read in two levels: the options that every command takes, and a command with its
own options and operands. Options stand anywhere on their level, a value stands after its option or
after an equals sign, and no option but `-v` is given twice on one level.
-/

namespace PackageMap.Command

/-- Options of the commands that look at a project. -/
structure ProjectOptions where
  root : Option Path := none
  config : Option Path := none
  sizeLimit : Option Nat := none
deriving DecidableEq, Repr

inductive Request where
  | version
  | find (package : String) (project : ProjectOptions) (report : Bool) (out : Option Path)
  | batch (packages : List String) (project : ProjectOptions)
  | extract (file : Path)
  | resolve (specifier : String) (source : Path)
deriving DecidableEq, Repr

/-- A request and the options that every command takes. -/
structure Invocation where
  json : Bool := false
  cwd : Option Path := none
  request : Request
deriving DecidableEq, Repr

/-- What a command line asks for. -/
inductive Reading where
  | run (i : Invocation)
  | help
  | version
  | misuse
deriving DecidableEq, Repr

/-- What one level takes: options with a path or a number after them, options without, the number
of operands if it is bounded, and whether they are paths. -/
structure Level where
  paths : List String
  numbers : List String := []
  flags : List String
  operands : Option Nat := some 0
  operandsArePaths : Bool := false
  /-- Whether the version can be asked for. -/
  versioned : Bool := false

/-- What was given on a level, operands last first. -/
structure Given where
  values : List (String × String) := []
  flags : List String := []
  operands : List String := []

/-- The first event on a level that ends its reading. -/
inductive Event where
  | done (g : Given)
  /-- The first operand of a level whose operand is a command. -/
  | command (g : Given) (name : String) (rest : List String)
  | help
  | version
  | misuse

/-- A decimal number of 64 bits, with a plus sign or without. -/
def number? (s : String) : Option Nat :=
  let digits := match s.toList with
    | '+' :: ds => ds
    | ds => ds
  if digits ≠ [] ∧ digits.all Char.isDigit then
    if digitsValue digits < wordLimit then some (digitsValue digits) else none
  else none

/-- Whether an argument is read as an option. A lone dash is not. -/
def isOption (s : String) : Bool :=
  match s.toList with
  | '-' :: _ :: _ => true
  | _ => false

/-- Give a value to an option, once. A path is not empty, and a number is one. -/
def Given.setValue (g : Given) (l : Level) (name value : String) : Option Given :=
  if g.values.any (·.1 == name) then none
  else if l.paths.contains name && value == "" then none
  else if l.numbers.contains name && (number? value).isNone then none
  else some { g with values := (name, value) :: g.values }

/-- Set an option without value, once. -/
def Given.setFlag (g : Given) (name : String) : Option Given :=
  if g.flags.contains name then none else some { g with flags := name :: g.flags }

def Given.addOperand (g : Given) (l : Level) (s : String) : Option Given :=
  if l.operands.any (· ≤ g.operands.length) then none
  else if l.operandsArePaths && s == "" then none
  else some { g with operands := s :: g.operands }

/-- What follows options without value that are written together after one dash. -/
inductive Cluster where
  | more
  | help
  | version
  | misuse

def readCluster (l : Level) : List Char → Cluster
  | [] => .more
  | 'v' :: r => readCluster l r
  | 'h' :: _ => .help
  | 'V' :: _ => if l.versioned then .version else .misuse
  | _ :: _ => .misuse

/-- The name of a long option and the value that an equals sign gives it. -/
def splitLong (cs : List Char) : String × Option String :=
  match cs.dropWhile (· != '=') with
  | [] => (String.ofList cs, none)
  | _ :: value => (String.ofList (cs.takeWhile (· != '=')), some (String.ofList value))

def Event.ofGiven? (g : Option Given) (next : Given → Event) : Event :=
  match g with
  | some g => next g
  | none => .misuse

/-- Read operands only. -/
def readOperands (l : Level) (g : Given) : List String → Event
  | [] => .done g
  | s :: rest => Event.ofGiven? (g.addOperand l s) fun g => readOperands l g rest

/-- Read a level. If `commands` is given, its first operand is one of them. -/
def readLevel (l : Level) (commands : Option (List String)) (g : Given) : List String → Event
  | [] => .done g
  | s :: rest =>
    match s.toList with
    | ['-', '-'] => readOperands l g rest
    | '-' :: '-' :: long =>
      match splitLong long with
      | ("help", none) => .help
      | ("version", none) => if l.versioned then .version else .misuse
      | ("verbose", none) => readLevel l commands g rest
      | (name, none) =>
        if l.flags.contains name then
          Event.ofGiven? (g.setFlag name) fun g => readLevel l commands g rest
        else if l.paths.contains name || l.numbers.contains name then
          match rest with
          | [] => .misuse
          | value :: rest =>
            if isOption value then .misuse
            else Event.ofGiven? (g.setValue l name value) fun g => readLevel l commands g rest
        else .misuse
      | (name, some value) =>
        if l.paths.contains name || l.numbers.contains name then
          Event.ofGiven? (g.setValue l name value) fun g => readLevel l commands g rest
        else .misuse
    | '-' :: c :: short =>
      match readCluster l (c :: short) with
      | .more => readLevel l commands g rest
      | .help => .help
      | .version => .version
      | .misuse => .misuse
    | _ =>
      match commands with
      | some names => if names.contains s then .command g s rest else .misuse
      | none => Event.ofGiven? (g.addOperand l s) fun g => readLevel l commands g rest

namespace Given

def path? (g : Given) (name : String) : Option Path := (g.values.lookup name).map Path.mk

def project (g : Given) : ProjectOptions where
  root := g.path? "root"
  config := g.path? "config"
  sizeLimit := (g.values.lookup "size-limit").bind number?

end Given

def commandNames : List String := ["version", "find", "batch", "extract", "resolve", "help"]

def commonLevel : Level := { paths := ["cwd"], flags := ["json"], versioned := true }

/-- What the level of a command takes. -/
def levelOf : String → Level
  | "find" =>
    { paths := ["cwd", "root", "config", "out"], numbers := ["size-limit"],
      flags := ["json", "report"], operands := some 1 }
  | "batch" =>
    { paths := ["cwd", "root", "config"], numbers := ["size-limit"], flags := ["json"],
      operands := none }
  | "extract" =>
    { paths := ["cwd"], flags := ["json"], operands := some 1, operandsArePaths := true }
  | "resolve" => { paths := ["cwd", "from"], flags := ["json"], operands := some 1 }
  | _ => { paths := ["cwd"], flags := ["json"] }

/-- The request of a command, if all that it needs is given. -/
def request? (name : String) (g : Given) : Option Request :=
  match name, g.operands.reverse with
  | "version", _ => some .version
  | "find", [package] => some (.find package g.project (g.flags.contains "report") (g.path? "out"))
  | "batch", package :: packages => some (.batch (package :: packages) g.project)
  | "extract", [file] => some (.extract ⟨file⟩)
  | "resolve", [specifier] => (g.path? "from").map (.resolve specifier)
  | _, _ => none

/-- What a request for help on commands asks for. -/
def readHelp : List String → Reading
  | [] => .help
  | [name] => if commandNames.contains name then .help else .misuse
  | _ => .misuse

/-- What a command line asks for. Without a command it is the version. -/
def read (args : List String) : Reading :=
  match readLevel commonLevel (some commandNames) {} args with
  | .misuse => .misuse
  | .help => .help
  | .version => .version
  | .done g => .run ⟨g.flags.contains "json", g.path? "cwd", .version⟩
  | .command _ "help" rest => readHelp rest
  | .command common name rest =>
    match readLevel (levelOf name) none {} rest with
    | .misuse => .misuse
    | .help => .help
    | .version => .version
    | .command _ _ _ => .misuse
    | .done g =>
      match request? name g with
      | none => .misuse
      | some request =>
        .run ⟨common.flags.contains "json" || g.flags.contains "json",
          (g.path? "cwd").or (common.path? "cwd"), request⟩

end PackageMap.Command
