import PackageMap.FileMap
import PackageMap.Manifest
import PackageMap.Ordered
import PackageMap.Path.Relative

/-!
# Final maps

A finished map has keys relative to the project's root, in order. A map over the size limit whose
package declares no entry is dropped.
-/

namespace PackageMap

inductive GuardOutcome where
  | kept
  | degraded
deriving DecidableEq, Repr

def GuardOutcome.name : GuardOutcome → String
  | .kept => "kept"
  | .degraded => "degraded"

structure FinalMap where
  /-- The records by their keys, in the order of the keys. -/
  files : List (String × FileRecord)
  outcome : GuardOutcome
  /-- The size of the map before its keys were made relative, in UTF-16 code units. -/
  size : Nat

namespace FinalMap

/-- The records under their keys below a root, which are made of what is shown of the paths. Of two
records with one key the later counts. -/
def keyedAs (shown : Path → String) (root : Path) (records : List FileRecord) :
    List (String × FileRecord) :=
  records.foldl (fun files r => Ordered.put (r.path.relativizeAs shown root) r files) []

def keyed (root : Path) (records : List FileRecord) : List (String × FileRecord) :=
  keyedAs Path.text root records

theorem keyed_eq (root : Path) (records : List FileRecord) : keyed root records =
    records.foldl (fun files r => Ordered.put (r.path.relativize root) r files) [] := rfl

/-- The files as an object. -/
def filesJson (files : List (String × FileRecord)) : Json :=
  .object (files.map fun f => (f.1, f.2.json))

end FinalMap

/-- Apply the size limit and make the keys relative to `root`, where paths are shown as texts. -/
def FileMap.finalizeAs (shown : Path → String) (m : FileMap) (caps : Capabilities) (root : Path)
    (limit : Nat) : FinalMap :=
  if m.unitsAs shown > limit ∧ ¬ caps.any then ⟨[], .degraded, m.unitsAs shown⟩
  else ⟨FinalMap.keyedAs shown root m.records.toList, .kept, m.unitsAs shown⟩

def FileMap.finalize (m : FileMap) (caps : Capabilities) (root : Path) (limit : Nat) : FinalMap :=
  m.finalizeAs Path.text caps root limit

theorem FileMap.finalize_eq (m : FileMap) (caps : Capabilities) (root : Path) (limit : Nat) :
    m.finalize caps root limit =
      if m.units > limit ∧ ¬ caps.any then ⟨[], .degraded, m.units⟩
      else ⟨FinalMap.keyed root m.records.toList, .kept, m.units⟩ := rfl

end PackageMap
