import PackageMap.Json.Read
import PackageMap.Text.Utf8
import PackageMap.Tree.Basic

/-!
# Manifests

The fields of a package's manifest that name its entries, and the paths that a walk of the package
starts from.
-/

namespace PackageMap

structure Manifest where
  name : Option String := none
  main : Option String := none
  module : Option String := none
  unpkg : Option String := none
  /-- Only a text names an entry; an object holds aliases. -/
  browser : Option String := none
deriving DecidableEq, Repr

/-- Which entry fields a manifest declares. -/
structure Capabilities where
  main : Bool
  module : Bool
  unpkg : Bool
deriving DecidableEq, Repr

def Capabilities.any (c : Capabilities) : Bool := c.main || c.module || c.unpkg

/-- Why a manifest cannot be read. -/
inductive ManifestError where
  | io (e : IoError)
  | malformed (p : Path)
deriving DecidableEq, Repr

def ManifestError.message : ManifestError → String
  | .io e => "IO error: " ++ e.message
  | .malformed p => "Failed to parse manifest at " ++ p.text

namespace Manifest

/-- The fields of a parsed manifest. Those that are no text are left out. -/
def ofJson (j : Json) : Manifest where
  name := j.getString? "name"
  main := j.getString? "main"
  module := j.getString? "module"
  unpkg := j.getString? "unpkg"
  browser := j.getString? "browser"

/-- A field that is there and not empty. -/
def declared (field : Option String) : Option String := field.filter (· ≠ "")

def capabilities (m : Manifest) : Capabilities :=
  ⟨(declared m.main).isSome, (declared m.module).isSome, (declared m.unpkg).isSome⟩

/-- The paths that a walk of the package in `dir` starts from: the entry fields, and in the place
of a missing first one the index file. -/
def entries (m : Manifest) (dir : Path) : List (Option Path) :=
  let entry (field : Option String) := (declared field).map dir.child
  [some ((entry m.main).getD (dir.child "index")), entry m.module, entry m.unpkg, entry m.browser]

/-- Read the manifest at a path. -/
def read (t : Tree) (p : Path) : Except ManifestError Manifest :=
  match t.read p with
  | .error e => .error (.io e)
  | .ok bytes =>
    match Text.Utf8.strict? bytes with
    | none => .error (.io .invalidText)
    | some text =>
      match Json.ofText? text with
      | none => .error (.malformed p)
      | some j => .ok (ofJson j)

/-- A manifest is read from the JSON text in the bytes of a file. -/
theorem read_eq_ok_iff {t : Tree} {p : Path} {m : Manifest} : read t p = .ok m ↔
    ∃ bytes text j, t.read p = .ok bytes ∧ Text.Utf8.strict? bytes = some text ∧
      Json.ofText? text = some j ∧ m = ofJson j := by
  unfold read
  cases t.read p with
  | error e => simp
  | ok bytes =>
    cases htext : Text.Utf8.strict? bytes with
    | none => simp [htext]
    | some text =>
      cases hjson : Json.ofText? text with
      | none => simp [htext, hjson]
      | some j => simp [htext, hjson, eq_comm]

end Manifest

end PackageMap
