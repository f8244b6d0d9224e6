import PackageMap.Config
import PackageMap.Json.Basic
import PackageMap.Tree.Basic

/-!
# Browser aliases

An object under `browser` in a manifest replaces modules and files of its package, or drops them.
Files are listed by their path inside the package, with or without an extension.
-/

namespace PackageMap.Resolve

inductive Alias where
  /-- Use this specifier or file of the package instead. -/
  | replace (target : String)
  | ignore
deriving DecidableEq, Repr

/-- The object under `browser`. -/
def browserMap? (manifest : Json) : Option (List (String × Json)) :=
  (manifest.get? "browser").bind Json.members?

/-- The alias that the object under `browser` has for the key. Members that are neither a text nor
`false` say nothing. -/
def alias? (manifest : Json) (key : String) : Option Alias :=
  match (browserMap? manifest).bind (Json.lookup key) with
  | some (.bool false) => some .ignore
  | some (.string target) => some (.replace target)
  | _ => none

/-- The first of the extensions that the key ends in, taken off. -/
def stem? (key : List Char) (extensions : List String) : Option (List Char) :=
  extensions.findSome? fun ext => dropEnding? key ext.toList

/-- The key of a file: its path inside the package after `./`. -/
def fileKey? (t : Tree) (dir file : Path) : Option (List Char) :=
  (file.relativeTo? (t.canonicalOrSelf dir)).map fun rel =>
    '.' :: '/' :: rel.text.toList.map fun c => if c = '\\' then '/' else c

/-- The alias of a file in the package at `dir`: that of its key or, failing that, of the key
without the first extension that it ends in. -/
def fileAlias? (t : Tree) (extensions : List String) (manifest : Json) (dir file : Path) :
    Option Alias :=
  match browserMap? manifest, fileKey? t dir file with
  | some _, some key =>
    match alias? manifest (String.ofList key) with
    | some a => some a
    | none => (stem? key extensions).bind fun stem => alias? manifest (String.ofList stem)
  | _, _ => none

end PackageMap.Resolve
