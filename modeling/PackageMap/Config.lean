import PackageMap.Path.Basic

/-!
# Configuration

How modules are found, which files are scripts, and above which size a map without a declared entry
is dropped. Every field has a default.
-/

namespace PackageMap

/-- How a path without a file behind it is completed. -/
structure Conventions where
  /-- Extensions to add, in the order they are tried. -/
  extensions : List String := [".js", ".mjs", ".cjs", ".json"]
  /-- Manifest fields that name a package's entry, the first one first. -/
  mainFields : List String := ["browser", "main"]
  /-- The name of a directory's index file, without extension. -/
  indexFile : String := "index"
deriving DecidableEq, Repr

structure Config where
  conventions : Conventions := {}
  /-- Extensions of the files that are scanned; all others are leaves. -/
  scriptExtensions : List String := [".js", ".mjs", ".cjs"]
  /-- In UTF-16 code units of the map's JSON text. -/
  sizeLimit : Nat := 8388608
deriving DecidableEq, Repr

/-- What is left of a text without an ending, if it ends so. -/
def dropEnding? (text ending : List Char) : Option (List Char) :=
  if ending.isSuffixOf text then some (text.take (text.length - ending.length)) else none

/-- Whether the file name of a path has a script extension and something before it. -/
def Config.isScript (c : Config) (p : Path) : Bool :=
  match p.fileName? with
  | none => false
  | some name => c.scriptExtensions.any fun ext =>
      ext.toList.length < name.toList.length && ext.toList.isSuffixOf name.toList

end PackageMap
