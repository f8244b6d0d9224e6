import PackageMap.Json.Numeral

/-!
# JSON values

Numbers are kept as they are written. An object keeps its members in order; of two members with one
key the last one counts.
-/

namespace PackageMap

inductive Json where
  | null
  | bool (b : Bool)
  | number (n : Numeral)
  | string (s : String)
  | array (items : List Json)
  | object (members : List (String × Json))
deriving Inhabited

namespace Json

def ofNat (n : Nat) : Json := .number (.ofNat n)

def string? : Json → Option String
  | .string s => some s
  | _ => none

def members? : Json → Option (List (String × Json))
  | .object ms => some ms
  | _ => none

/-- The last member with the key. -/
def lookup (key : String) (members : List (String × Json)) : Option Json :=
  members.reverse.lookup key

/-- The member of an object with the key; other values have none. -/
def get? (j : Json) (key : String) : Option Json := j.members?.bind (lookup key)

/-- The text in an object under the key. -/
def getString? (j : Json) (key : String) : Option String := (j.get? key).bind string?

end Json

end PackageMap
