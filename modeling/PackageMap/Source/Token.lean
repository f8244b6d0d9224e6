import PackageMap.Source.Cursor

/-!
# Tokens of a script

Scripts are cut just far enough to find module references: names, literal texts, single
characters, and everything else. Whether a slash divides or opens a regular expression is read off
the tokens before it.
-/

namespace PackageMap.Source

inductive Token where
  | ident (name : String)
  /-- A quoted string, or a template literal without interpolations, as written. -/
  | literal (text : String)
  | punct (c : Char)
  /-- A number, a regular expression, or a piece of a template literal with interpolations. -/
  | other
deriving DecidableEq, Repr

/-- A token and the place where it opens. -/
structure Lexeme where
  token : Token
  place : Place
deriving DecidableEq, Repr

/-- Words that leave an operand to be read, so that a slash after them opens a regular expression. -/
def operatorWords : List String :=
  ["return", "typeof", "instanceof", "in", "of", "new", "delete", "void", "throw", "case", "do",
    "else", "yield", "await"]

/-- Whether a postfix update may follow the token: it ends something that can be assigned. -/
def Token.endsOperand : Token → Bool
  | .ident name => !operatorWords.contains name
  | .punct c => c == ')' || c == ']'
  | _ => false

/-- Whether the tokens, newest first, end in the operand and the first half of an update `op op`. -/
def updatesOperand (op : Char) : List Token → Bool
  | .punct c :: operand :: _ => c == op && operand.endsOperand
  | _ => false

/-- Whether a slash after these tokens, newest first, may open a regular expression. -/
def regexAllowed : List Token → Bool
  | [] => true
  | .punct c :: before =>
    if (c == '+' || c == '-') && updatesOperand c before then false else c != ')' && c != ']'
  | .ident name :: _ => operatorWords.contains name
  | _ => false

end PackageMap.Source
