import PackageMap.Config
import PackageMap.Json.Literal
import PackageMap.Text.Utf8
import PackageMap.Tree.Basic

/-!
# Configuration files

A configuration is an object, or an array of its fields in their order. A field that is left out has
its default; an object must not give one twice, and may hold fields of other names with any values.
-/

namespace PackageMap

open Json (Literal)

/-- The name of the configuration in a project's root. -/
def Config.fileName : String := "reqmap.json"

inductive ConfigError where
  | unreadable (p : Path) (e : IoError)
  | malformed (p : Path)
deriving DecidableEq, Repr

def ConfigError.message : ConfigError → String
  | .unreadable p e => "Failed to read config at " ++ p.text ++ ": " ++ e.message
  | .malformed p => "Failed to parse config at " ++ p.text

namespace Config

/-- The text that a literal writes. -/
def text? : Literal → Option String
  | .string t => t
  | _ => none

/-- The texts of an array. -/
def texts? : Literal → Option (List String)
  | .array items => items.mapM text?
  | _ => none

/-- The number that a literal writes without sign, fraction or exponent, within 64 bits. -/
def word? : Literal → Option Nat
  | .number n => n.toNat?.filter (· < wordLimit)
  | _ => none

/-! ## Records

A record has fields of a type `φ`. A field is set from its literal, on top of the defaults. -/

/-- Read members one by one. `field` gives the field that a key names, if there is one. A field is
given at most once, and every key is a text. -/
def readMembers {φ α : Type} [DecidableEq φ] (field : String → Option φ)
    (set : φ → Literal → α → Option α) : List φ → α → List (Json.Text × Literal) → Option α
  | _, a, [] => some a
  | _, _, (none, _) :: _ => none
  | seen, a, (some key, l) :: rest =>
    match field key with
    | none => readMembers field set seen a rest
    | some f =>
      if f ∈ seen then none
      else
        match set f l a with
        | some a => readMembers field set (f :: seen) a rest
        | none => none

/-- Read the items of an array as the given fields, of which the last ones may be missing. -/
def readItems {φ α : Type} (set : φ → Literal → α → Option α) :
    List φ → α → List Literal → Option α
  | _, a, [] => some a
  | [], _, _ :: _ => none
  | f :: fields, a, l :: rest =>
    match set f l a with
    | some a => readItems set fields a rest
    | none => none

/-- Read a record with the given fields on top of its defaults. -/
def readRecord {φ α : Type} [DecidableEq φ] (fields : List φ) (field : String → Option φ)
    (set : φ → Literal → α → Option α) (defaults : α) : Literal → Option α
  | .object members => readMembers field set [] defaults members
  | .array items => readItems set fields defaults items
  | _ => none

inductive ConventionsField where
  | extensions
  | mainFields
  | indexFile
deriving DecidableEq, Repr

def ConventionsField.all : List ConventionsField := [.extensions, .mainFields, .indexFile]

def ConventionsField.ofKey? : String → Option ConventionsField
  | "extensions" => some .extensions
  | "main_fields" => some .mainFields
  | "index_file" => some .indexFile
  | _ => none

def ConventionsField.set (f : ConventionsField) (l : Literal) (c : Conventions) :
    Option Conventions :=
  match f with
  | .extensions => (texts? l).map fun extensions => { c with extensions }
  | .mainFields => (texts? l).map fun mainFields => { c with mainFields }
  | .indexFile => (text? l).map fun indexFile => { c with indexFile }

def conventions? (l : Literal) : Option Conventions :=
  readRecord ConventionsField.all ConventionsField.ofKey? ConventionsField.set {} l

inductive Field where
  | conventions
  | scriptExtensions
  | sizeLimit
deriving DecidableEq, Repr

def Field.all : List Field := [.conventions, .scriptExtensions, .sizeLimit]

/-- The size limit has two names. -/
def Field.ofKey? : String → Option Field
  | "resolver" => some .conventions
  | "script_extensions" => some .scriptExtensions
  | "size_limit" => some .sizeLimit
  | "size_limit_bytes" => some .sizeLimit
  | _ => none

def Field.set (f : Field) (l : Literal) (c : Config) : Option Config :=
  match f with
  | .conventions => (conventions? l).map fun conventions => { c with conventions }
  | .scriptExtensions => (texts? l).map fun scriptExtensions => { c with scriptExtensions }
  | .sizeLimit => (word? l).map fun sizeLimit => { c with sizeLimit }

/-- The configuration that a text writes. -/
def ofText? (s : String) : Option Config :=
  (Literal.ofText? s.toList).bind (readRecord Field.all Field.ofKey? Field.set {})

/-- The configuration in the file at a path. -/
def load (t : Tree) (p : Path) : Except ConfigError Config :=
  match t.read p with
  | .error e => .error (.unreadable p e)
  | .ok bytes =>
    match Text.Utf8.strict? bytes with
    | none => .error (.unreadable p .invalidText)
    | some s =>
      match ofText? s with
      | none => .error (.malformed p)
      | some c => .ok c

/-- The configuration of the project in a directory: that in its file, or the default one. -/
def discover (t : Tree) (root : Path) : Except ConfigError Config :=
  if t.isFile (root.child fileName) then load t (root.child fileName) else .ok {}

end Config

end PackageMap
