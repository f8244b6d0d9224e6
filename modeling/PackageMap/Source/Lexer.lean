import PackageMap.Source.Token

/-!
# The lexer

The lexer is an iterated step on a state that holds the cursor, the tokens so far and, for every
template interpolation that is open, the number of braces open inside it. Each step reads one
token or skips one blank or comment, so the rest gets shorter and the run ends.

Lines and braces are counted in words of 32 bits. They are natural numbers here, which are the same
as long as the text has fewer than 2^32 line ends and opening braces, and reported as such words.
-/

namespace PackageMap.Source

open PackageMap.Text

/-- What can be left open at the end of a text. -/
inductive Construct where
  | stringLiteral
  | templateLiteral
  | blockComment
deriving DecidableEq, Repr

/-- A construct that the text does not close, and where reading it began. -/
structure Unterminated where
  construct : Construct
  place : Place
deriving DecidableEq, Repr

def Construct.description : Construct → String
  | .stringLiteral => "string literal"
  | .templateLiteral => "template literal"
  | .blockComment => "block comment"

/-- The line as it is reported, a word of 32 bits. -/
def Unterminated.line (e : Unterminated) : UInt32 := .ofNat e.place.line

def Unterminated.message (e : Unterminated) : String :=
  "unterminated " ++ e.construct.description ++ " starting on line " ++ toString e.line

namespace Lexer

/-- The lexer between two tokens. -/
structure State where
  cursor : Cursor
  /-- The tokens read so far, newest first. -/
  lexemes : List Lexeme
  /-- The braces open in each open interpolation, innermost first, each number below 2^32. -/
  depths : List Nat
deriving DecidableEq, Repr

namespace State

/-- The state at the start of a text. A first line that begins with `#!` is skipped. -/
def start (text : List Char) : State :=
  ⟨match text with
    | '#' :: '!' :: r => skipLine r 2 1
    | _ => .ofText text, [], []⟩

def moveTo (s : State) (cursor : Cursor) : State := { s with cursor }

/-- Add a token that opens at the cursor and ends at `cursor`. -/
def emit (s : State) (token : Token) (cursor : Cursor) : State :=
  { s with cursor, lexemes := ⟨token, s.cursor.place⟩ :: s.lexemes }

def tokens (s : State) : List Token := s.lexemes.map Lexeme.token

end State

/-- The state after a slash, which is followed by `r`. -/
def slash (s : State) (r : List Char) : Except Unterminated State :=
  match r with
  | '/' :: r => .ok (s.moveTo (skipLine r (s.cursor.offset + 2) s.cursor.line))
  | '*' :: r =>
    match skipComment r (s.cursor.offset + 2) s.cursor.line with
    | some cursor => .ok (s.moveTo cursor)
    | none => .error ⟨.blockComment, s.cursor.place⟩
  | r =>
    if regexAllowed ((s.lexemes.take 3).map Lexeme.token) then
      match skipRegex false r 1 with
      | some (rest, width) => .ok (s.emit .other ⟨rest, s.cursor.offset + width, s.cursor.line⟩)
      | none => .ok (s.emit (.punct '/') ⟨r, s.cursor.offset + 1, s.cursor.line⟩)
    else .ok (s.emit (.punct '/') ⟨r, s.cursor.offset + 1, s.cursor.line⟩)

/-- The state after the string that `quote` opens. -/
def quoted (s : State) (quote : Char) (r : List Char) : Except Unterminated State :=
  match readString quote r (s.cursor.offset + 1) s.cursor.line [] with
  | some (text, cursor) => .ok (s.emit (.literal (String.ofList text)) cursor)
  | none => .error ⟨.stringLiteral, s.cursor.place⟩

/--
The state after a stretch of template text, which starts after a backtick, or after the brace that
ends an interpolation if `resumed`. Only a template in one stretch is a literal.
-/
def template (s : State) (resumed : Bool) (r : List Char) : Except Unterminated State :=
  match readTemplate r (s.cursor.offset + 1) s.cursor.line [] with
  | some (text, .closed, cursor) =>
    .ok (s.emit (if resumed then .other else .literal (String.ofList text)) cursor)
  | some (_, .interpolation, cursor) =>
    .ok { s.emit .other cursor with depths := 0 :: s.depths }
  | none => .error ⟨.templateLiteral, s.cursor.place⟩

/-- The state after a closing brace: it closes a brace, or the innermost interpolation. -/
def closeBrace (s : State) (r : List Char) : Except Unterminated State :=
  let after : Cursor := ⟨r, s.cursor.offset + 1, s.cursor.line⟩
  match s.depths with
  | [] => .ok (s.emit (.punct '\x7d') after)
  | 0 :: outer => template { s with depths := outer } true r
  | (n + 1) :: outer => .ok { s.emit (.punct '\x7d') after with depths := n :: outer }

/-- The state after an opening brace, which counts toward the innermost interpolation. -/
def openBrace (s : State) (r : List Char) : State :=
  { s.emit (.punct '\x7b') ⟨r, s.cursor.offset + 1, s.cursor.line⟩ with
    depths := match s.depths with
      | [] => []
      | n :: outer => (n + 1) :: outer }

/-- The state after the longest run of characters of the class `part` that starts with `c`. -/
def run (s : State) (part : Char → Bool) (token : List Char → Token) (c : Char) (r : List Char) :
    State :=
  let more := r.takeWhile part
  s.emit (token (c :: more))
    ⟨r.dropWhile part, s.cursor.offset + 1 + more.length, s.cursor.line⟩

/-- A character that may stand inside a number. -/
def isNumberPart (c : Char) : Bool := c.isAlphanum || c == '.' || c == '_'

/-- One step: a blank, a comment or a token. The state at the end of the text stays as it is. -/
def step (s : State) : Except Unterminated State :=
  match s.cursor.rest with
  | [] => .ok s
  | c :: r =>
    let after : Cursor := ⟨r, s.cursor.offset + 1, s.cursor.line⟩
    if c = '\n' then .ok (s.moveTo { after with line := s.cursor.line + 1 })
    else if isBlank c then .ok (s.moveTo after)
    else if c = '/' then slash s r
    else if c = '"' ∨ c = '\'' then quoted s c r
    else if c = '`' then template s false r
    else if c = '\x7b' then .ok (openBrace s r)
    else if c = '\x7d' then closeBrace s r
    else if isIdentStart c then .ok (run s isIdentPart (.ident ∘ String.ofList) c r)
    else if c.isDigit then .ok (run s isNumberPart (fun _ => .other) c r)
    else .ok (s.emit (.punct c) after)

theorem slash_length_le {s s' : State} {r : List Char} (h : slash s r = .ok s') :
    s'.cursor.rest.length ≤ r.length := by
  unfold slash at h
  split at h
  · cases h
    exact Nat.le_succ_of_le (skipLine_length_le _ _ _)
  · split at h
    · next hc => cases h; exact Nat.le_succ_of_le (Nat.le_of_lt (skipComment_length_lt hc))
    · cases h
  · split at h
    · split at h
      · next hr => cases h; exact Nat.le_of_lt (skipRegex_length_lt hr)
      · cases h; exact Nat.le_refl _
    · cases h; exact Nat.le_refl _

theorem quoted_length_le {s s' : State} {quote : Char} {r : List Char}
    (h : quoted s quote r = .ok s') : s'.cursor.rest.length ≤ r.length := by
  unfold quoted at h
  split at h
  · next hs => cases h; exact Nat.le_of_lt (readString_length_lt hs)
  · cases h

theorem template_length_le {s s' : State} {resumed : Bool} {r : List Char}
    (h : template s resumed r = .ok s') : s'.cursor.rest.length ≤ r.length := by
  unfold template at h
  split at h
  · next ht => cases h; exact Nat.le_of_lt (readTemplate_length_lt ht)
  · next ht => cases h; exact Nat.le_of_lt (readTemplate_length_lt ht)
  · cases h

theorem closeBrace_length_le {s s' : State} {r : List Char} (h : closeBrace s r = .ok s') :
    s'.cursor.rest.length ≤ r.length := by
  unfold closeBrace at h
  split at h
  · cases h; exact Nat.le_refl _
  · exact template_length_le h
  · cases h; exact Nat.le_refl _

/-- Every step before the end of the text moves the cursor forward. -/
theorem step_length_lt {s s' : State} (hr : s.cursor.rest ≠ []) (h : step s = .ok s') :
    s'.cursor.rest.length < s.cursor.rest.length := by
  unfold step at h
  split at h
  · contradiction
  · next c r hs =>
    rw [hs]
    refine Nat.lt_succ_of_le ?_
    split at h
    · cases h; exact Nat.le_refl _
    split at h
    · cases h; exact Nat.le_refl _
    split at h
    · exact slash_length_le h
    split at h
    · exact quoted_length_le h
    split at h
    · exact template_length_le h
    split at h
    · cases h; exact Nat.le_refl _
    split at h
    · exact closeBrace_length_le h
    split at h
    · cases h; exact (List.dropWhile_suffix _).length_le
    split at h
    · cases h; exact (List.dropWhile_suffix _).length_le
    · cases h; exact Nat.le_refl _

/-- Step until the text ends. -/
def finish (s : State) : Except Unterminated State :=
  if _hr : s.cursor.rest = [] then .ok s
  else
    match _h : step s with
    | .error e => .error e
    | .ok s' => finish s'
termination_by s.cursor.rest.length
decreasing_by exact step_length_lt _hr _h

theorem finish_of_rest_nil {s : State} (h : s.cursor.rest = []) : finish s = .ok s := by
  unfold finish; simp [h]

theorem finish_of_step {s s' : State} (hr : s.cursor.rest ≠ []) (h : step s = .ok s') :
    finish s = finish s' := by
  rw [finish, dif_neg hr]; split <;> simp_all

theorem finish_of_error {s : State} {e : Unterminated} (hr : s.cursor.rest ≠ [])
    (h : step s = .error e) : finish s = .error e := by
  rw [finish, dif_neg hr]; split <;> simp_all

end Lexer

/-- The tokens of a text, in order. -/
def lexemes (text : List Char) : Except Unterminated (List Lexeme) :=
  (Lexer.finish (.start text)).map fun s => s.lexemes.reverse

end PackageMap.Source
