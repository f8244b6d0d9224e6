import PackageMap.Source.Lexer

/-!
# Module references

A script refers to modules by `require("x")`, `import("x")`, `import "x"`, `import … from "x"` and
`export … from "x"`. The references of a text are listed in order, each specifier once.
-/

namespace PackageMap.Source

inductive ReferenceKind where
  | cjsRequire
  | esmImport
  | esmDynamicImport
  | esmExport
deriving DecidableEq, Repr

def ReferenceKind.name : ReferenceKind → String
  | .cjsRequire => "cjs_require"
  | .esmImport => "esm_import"
  | .esmDynamicImport => "esm_dynamic_import"
  | .esmExport => "esm_export"

/-- A specifier as written between its quotes, how it is referred to, and where its literal opens. -/
structure Reference where
  specifier : String
  kind : ReferenceKind
  place : Place
deriving DecidableEq, Repr

/-- The line of a reference as it is reported, a word of 32 bits. -/
def Reference.line (r : Reference) : UInt32 := .ofNat r.place.line

/-- Tokens that may stand between `import` or `export` and `from`. -/
def Token.inClause : Token → Bool
  | .ident name => name != "import" && name != "export"
  | .punct c => c == '\x7b' || c == '\x7d' || c == ',' || c == '*'
  | _ => false

/-- The greatest number of tokens from the start of a clause to its `from`. -/
def clauseLimit : Nat := 512

/-- The literal after the first `from` that a literal follows, among the next `limit` tokens, if
every token before it may stand in a clause. -/
def clauseSource : Nat → List Lexeme → Option (String × Place)
  | 0, _ => none
  | _, [] => none
  | limit + 1, l :: rest =>
    match l.token, rest with
    | .ident "from", ⟨.literal text, place⟩ :: _ => some (text, place)
    | token, rest => if token.inClause then clauseSource limit rest else none

/-- Whether the token opens the clause of an `import`. -/
def Token.opensImport : Token → Bool
  | .ident _ => true
  | .punct c => c == '\x7b' || c == '*'
  | _ => false

/-- Whether the token opens the clause of an `export` that may have a source. -/
def Token.opensExport : Token → Bool
  | .punct c => c == '\x7b' || c == '*'
  | _ => false

def requireReference? : List Lexeme → Option Reference
  | ⟨.punct '(', _⟩ :: ⟨.literal text, place⟩ :: ⟨.punct ')', _⟩ :: _ =>
    some ⟨text, .cjsRequire, place⟩
  | _ => none

def importReference? : List Lexeme → Option Reference
  | ⟨.literal text, place⟩ :: _ => some ⟨text, .esmImport, place⟩
  | ⟨.punct '(', _⟩ :: ⟨.literal text, place⟩ :: ⟨.punct c, _⟩ :: _ =>
    if c = ')' ∨ c = ',' then some ⟨text, .esmDynamicImport, place⟩ else none
  | l :: rest =>
    if l.token.opensImport then
      (clauseSource clauseLimit (l :: rest)).map fun (text, place) => ⟨text, .esmImport, place⟩
    else none
  | [] => none

def exportReference? : List Lexeme → Option Reference
  | l :: rest =>
    if l.token.opensExport then
      (clauseSource clauseLimit (l :: rest)).map fun (text, place) => ⟨text, .esmExport, place⟩
    else none
  | [] => none

/-- The reference that a token makes with the tokens after it. A name after a dot is a member and
makes none. -/
def reference? (before : Option Token) (token : Token) (after : List Lexeme) : Option Reference :=
  if before = some (.punct '.') then none
  else
    match token with
    | .ident "require" => requireReference? after
    | .ident "import" => importReference? after
    | .ident "export" => exportReference? after
    | _ => none

/-- Add a reference to a list, newest first, unless its specifier is empty or listed already. -/
def record (found : List Reference) (r : Reference) : List Reference :=
  if r.specifier = "" ∨ found.any (·.specifier == r.specifier) then found else r :: found

/-- The references of a list of tokens on top of those found before, newest first. -/
def collect (before : Option Token) (found : List Reference) : List Lexeme → List Reference
  | [] => found
  | l :: rest =>
    let found := match reference? before l.token rest with
      | some r => record found r
      | none => found
    collect (some l.token) found rest

/-- The references of a text in order, each specifier once, as it is first referred to. -/
def scan (text : String) : Except Unterminated (List Reference) :=
  (lexemes text.toList).map fun ls => (collect none [] ls).reverse

theorem scan_eq_ok_iff {text : String} {rs : List Reference} :
    scan text = .ok rs ↔ ∃ s, Lexer.finish (.start text.toList) = .ok s ∧
      (collect none [] s.lexemes.reverse).reverse = rs := by
  unfold scan lexemes
  cases Lexer.finish (.start text.toList) with
  | error e => simp [Except.map]
  | ok s => simp [Except.map]

theorem scan_eq_error_iff {text : String} {e : Unterminated} :
    scan text = .error e ↔ Lexer.finish (.start text.toList) = .error e := by
  unfold scan lexemes
  cases Lexer.finish (.start text.toList) with
  | error e => simp [Except.map]
  | ok s => simp [Except.map]

/-- The specifiers that a text refers to, in order. -/
def specifiers (text : String) : Except Unterminated (List String) :=
  (scan text).map fun rs => rs.map Reference.specifier

end PackageMap.Source
