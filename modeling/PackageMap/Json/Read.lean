import PackageMap.Json.Basic
import PackageMap.Json.Literal
import PackageMap.Json.Range

/-!
# Reading JSON values

A text is a value if it follows the grammar, nests at most 127 deep, and holds no unpaired surrogate
and no number beyond the range of doubles.
-/

namespace PackageMap.Json

/-- The greatest number of containers that may be open at once. -/
def depthLimit : Nat := 127

mutual

/-- The value of a literal that may nest `depth` deep. -/
def ofLiteral? (depth : Nat) : Literal → Option Json
  | .null => some .null
  | .bool b => some (.bool b)
  | .number n => if n.inRange then some (.number n) else none
  | .string t => t.map .string
  | .array items =>
    match depth with
    | 0 => none
    | depth + 1 => ofItems? depth [] items
  | .object members =>
    match depth with
    | 0 => none
    | depth + 1 => ofMembers? depth [] members

/-- The array of the values read so far, newest first, and of those of the given literals. -/
def ofItems? (depth : Nat) (items : List Json) : List Literal → Option Json
  | [] => some (.array items.reverse)
  | l :: ls =>
    match ofLiteral? depth l with
    | some j => ofItems? depth (j :: items) ls
    | none => none

/-- The object of the members read so far, newest first, and of the given ones. -/
def ofMembers? (depth : Nat) (members : List (String × Json)) :
    List (Json.Text × Literal) → Option Json
  | [] => some (.object members.reverse)
  | (some key, l) :: ls =>
    match ofLiteral? depth l with
    | some j => ofMembers? depth ((key, j) :: members) ls
    | none => none
  | (none, _) :: _ => none

end

/-- The value that a text writes. -/
def ofText? (s : String) : Option Json := (Literal.ofText? s.toList).bind (ofLiteral? depthLimit)

end PackageMap.Json
