import PackageMap.Json.Basic
import PackageMap.Json.Quoted

/-!
# Writing JSON

Values are written without space, or over lines that are indented by two spaces a level.
-/

namespace PackageMap.Json

mutual

/-- The value written without space. -/
def compact : Json → List Char
  | .null => ['n', 'u', 'l', 'l']
  | .bool true => ['t', 'r', 'u', 'e']
  | .bool false => ['f', 'a', 'l', 's', 'e']
  | .number n => n.text
  | .string s => quote s
  | .array items => '[' :: (compactItems items ++ [']'])
  | .object members => '\x7b' :: (compactMembers members ++ ['\x7d'])

def compactItems : List Json → List Char
  | [] => []
  | [j] => compact j
  | j :: js => compact j ++ ',' :: compactItems js

def compactMembers : List (String × Json) → List Char
  | [] => []
  | [(key, j)] => quote key ++ ':' :: compact j
  | (key, j) :: ms => quote key ++ ':' :: (compact j ++ ',' :: compactMembers ms)

end

/-- A new line that is indented by `level` levels. -/
def newline (level : Nat) : List Char := '\n' :: List.replicate (2 * level) ' '

mutual

/-- The value written over lines, the first of which is at `level` already. Empty arrays and
objects stay on their line. -/
def pretty (level : Nat) : Json → List Char
  | .array [] => ['[', ']']
  | .array (j :: js) =>
    '[' :: (newline (level + 1) ++ prettyItems (level + 1) (j :: js) ++ newline level ++ [']'])
  | .object [] => ['\x7b', '\x7d']
  | .object (m :: ms) =>
    '\x7b' ::
      (newline (level + 1) ++ prettyMembers (level + 1) (m :: ms) ++ newline level ++ ['\x7d'])
  | j => compact j

def prettyItems (level : Nat) : List Json → List Char
  | [] => []
  | [j] => pretty level j
  | j :: js => pretty level j ++ ',' :: (newline level ++ prettyItems level js)

def prettyMembers (level : Nat) : List (String × Json) → List Char
  | [] => []
  | [(key, j)] => quote key ++ ':' :: ' ' :: pretty level j
  | (key, j) :: ms =>
    quote key ++ ':' :: ' ' ::
      (pretty level j ++ ',' :: (newline level ++ prettyMembers level ms))

end

def compactText (j : Json) : String := String.ofList j.compact

def prettyText (j : Json) : String := String.ofList (j.pretty 0)

end PackageMap.Json
