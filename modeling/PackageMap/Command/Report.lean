import PackageMap.Find
import PackageMap.Fingerprint

/-!
# Reports

A report sums up the map of a package: what the size limit did, the size, the references without a
file, and a fingerprint of the files.
-/

namespace PackageMap.Command

structure Report where
  package : String
  root : Path
  result : FindResult

/-- The fingerprint of keys and records. -/
def fingerprint (files : List (String × FileRecord)) : String :=
  Fingerprint.ofPairs (files.map fun f =>
    (f.1.toUTF8.data.toList, f.2.json.compactText.toUTF8.data.toList))

namespace Report

def outcome (r : Report) : String :=
  match r.result.outcome with
  | some o => o.name
  | none => "missing_manifest"

def edgeJson (e : UnresolvedEdge) : Json :=
  .object [("from", .string e.source.text), ("specifier", .string e.specifier),
    ("reason", .string e.reason.code)]

def pathsJson (ps : Array Path) : Json := .array (ps.toList.map fun p => .string p.text)

def json (r : Report) : Json :=
  .object [
    ("package", .string r.package),
    ("root", .string r.root.text),
    ("outcome", .string r.outcome),
    ("files", .ofNat r.result.files.length),
    ("size", .ofNat r.result.size),
    ("ignored", .ofNat r.result.report.ignored),
    ("unresolved", .array (r.result.report.unresolved.toList.map edgeJson)),
    ("extraction_failures", pathsJson r.result.report.extractionFailures),
    ("unreadable", pathsJson r.result.report.unreadable),
    ("fingerprint", .string (fingerprint r.result.files))]

/-- The quotient in hundredths, a half going to the even neighbour. -/
def hundredths (n d : Nat) : Nat :=
  let q := 100 * n / d
  let r := 100 * n % d
  if 2 * r > d ∨ (2 * r = d ∧ q % 2 = 1) then q + 1 else q

/-- A size in units of 1048576, with two places. -/
def mebi (size : Nat) : String :=
  let h := hundredths size 1048576
  toString (h / 100) ++ "." ++ String.ofList [Char.ofNat (48 + h % 100 / 10), Char.ofNat (48 + h % 10)]

def edgeLine (e : UnresolvedEdge) : String :=
  "  " ++ e.source.text ++ " -> " ++ e.specifier ++ " [" ++ e.reason.code ++ "]"

/-- A heading and an indented line for each path, or nothing if there are none. -/
def pathLines (heading : String) (ps : Array Path) : List String :=
  if ps.isEmpty then [] else "" :: heading :: ps.toList.map fun p => "  " ++ p.text

def lines (r : Report) : List String :=
  let report := r.result.report
  ["Package:      " ++ r.package,
    "Root:         " ++ r.root.text,
    "Outcome:      " ++ r.outcome,
    "Files:        " ++ toString r.result.files.length,
    "Size:         " ++ toString r.result.size ++ " UTF-16 units (" ++ mebi r.result.size ++ " Mi)",
    "Fingerprint:  " ++ fingerprint r.result.files] ++
  (if report.ignored > 0 then
    ["Ignored:      " ++ toString report.ignored ++ " (browser map)"] else []) ++
  (if report.unresolved.isEmpty then []
    else "" :: ("Unresolved (" ++ toString report.unresolved.size ++ "):") ::
      report.unresolved.toList.map edgeLine) ++
  pathLines "Not scanned:" report.extractionFailures ++
  pathLines "Unreadable:" report.unreadable

end Report

end PackageMap.Command
