import Mathlib.Logic.Relation
import PackageMap.Source.Lexer

/-!
# The scanner

The lexer told by offsets into the text: one loop over the tokens and, within it, one for each thing
that is skipped or read. A transition is one turn of a loop. What is read is cut out of the text in
the end, and a cut that does not lie in the text is a fault, as is a brace that closes none.
-/

namespace PackageMap.Source.Scanner

open PackageMap.Text
open Relation (ReflTransGen)

/-- The loop that the scanner is in, with what is kept while it turns. -/
inductive Loop where
  /-- Between two tokens. -/
  | tokens
  /-- In what is left of a line. -/
  | line
  | comment (opened : Place)
  | quoted (quote : Char) (opened : Place) (start : Nat)
  | template (opened : Place) (start : Nat)
  /-- Ahead of the position, to see whether a slash opens a regular expression. -/
  | regex (inClass : Bool) (ahead : Nat)
  | flags (ahead : Nat)
  /-- Behind a regular expression that has not been found. -/
  | division
  | word (start : Nat)
  | number (start : Nat)
deriving DecidableEq, Repr

structure State where
  loop : Loop
  offset : Nat
  line : Nat
  /-- The tokens read so far, newest first. -/
  lexemes : List Lexeme
  /-- The braces open in each open interpolation, innermost first. -/
  depths : List Nat
deriving DecidableEq, Repr

inductive Fault where
  /-- A cut that does not lie in the text. -/
  | slice (start stop : Nat)
  /-- A brace that is closed where none is open. -/
  | depth
deriving DecidableEq, Repr

inductive Outcome where
  | next (s : State)
  | done (ls : List Lexeme)
  | failed (e : Unterminated)
  | fault (f : Fault)
deriving DecidableEq, Repr

namespace State

def place (s : State) : Place := ⟨s.offset, s.line⟩

/-- Add a token and go on between two tokens. -/
def push (s : State) (token : Token) (opened : Place) (offset : Nat) : State :=
  { s with loop := .tokens, offset, lexemes := ⟨token, opened⟩ :: s.lexemes }

/-- Enter the loop over template text, which starts behind a backtick or a brace. -/
def enterTemplate (s : State) (depths : List Nat) : State :=
  { s with loop := .template s.place (s.offset + 1), offset := s.offset + 1, depths }

end State

/-! ## Transitions -/

variable (text : List Char)

/-- Cut out the text from `start` to `stop` and go on with it. -/
def cut (start stop : Nat) (goOn : List Char → State) : Outcome :=
  if start ≤ stop ∧ stop ≤ text.length then .next (goOn ((text.take stop).drop start))
  else .fault (.slice start stop)

/-- Count one brace less and go on. -/
def lower (depth : Nat) (goOn : Nat → State) : Outcome :=
  match depth with
  | 0 => .fault .depth
  | n + 1 => .next (goOn n)

/-- The width of the line end at an offset, or 0. A carriage return and a line feed are one. -/
def lineEndWidth (i : Nat) : Nat :=
  if text[i]? = some '\r' ∧ text[i + 1]? = some '\n' then 2
  else if (text[i]?).any isLineEnd then 1
  else 0

/-- Skip a backslash and what it escapes. -/
def skipEscape (s : State) : State :=
  match lineEndWidth text (s.offset + 1) with
  | 0 => { s with offset := s.offset + 2 }
  | width => { s with offset := s.offset + 1 + width, line := s.line + 1 }

def commentTurn (s : State) (opened : Place) : Outcome :=
  match text[s.offset]? with
  | none => .failed ⟨.blockComment, opened⟩
  | some c =>
    if c = '*' ∧ text[s.offset + 1]? = some '/' then
      .next { s with loop := .tokens, offset := s.offset + 2 }
    else if c = '\n' then .next { s with offset := s.offset + 1, line := s.line + 1 }
    else .next { s with offset := s.offset + 1 }

def quotedTurn (s : State) (quote : Char) (opened : Place) (start : Nat) : Outcome :=
  match text[s.offset]? with
  | none => .failed ⟨.stringLiteral, opened⟩
  | some c =>
    if c = '\n' then .failed ⟨.stringLiteral, opened⟩
    else if c = '\\' then .next (skipEscape text s)
    else if c = quote then
      cut text start (min s.offset text.length) fun value =>
        s.push (.literal (String.ofList value)) opened (s.offset + 1)
    else .next { s with offset := s.offset + 1 }

/-- Only a template that starts behind a backtick and has no interpolation is a literal. -/
def templateTurn (s : State) (opened : Place) (start : Nat) : Outcome :=
  match text[s.offset]? with
  | none => .failed ⟨.templateLiteral, opened⟩
  | some c =>
    if c = '\\' then .next (skipEscape text s)
    else if c = '\n' then .next { s with offset := s.offset + 1, line := s.line + 1 }
    else if c = '`' then
      if text[start - 1]? = some '`' then
        cut text start s.offset fun value =>
          s.push (.literal (String.ofList value)) opened (s.offset + 1)
      else .next (s.push .other opened (s.offset + 1))
    else if c = '$' ∧ text[s.offset + 1]? = some '\x7b' then
      .next { s.push .other opened (s.offset + 2) with depths := 0 :: s.depths }
    else .next { s with offset := s.offset + 1 }

def regexTurn (s : State) (inClass : Bool) (ahead : Nat) : Outcome :=
  match text[ahead]? with
  | none => .next { s with loop := .division }
  | some c =>
    if c = '\n' then .next { s with loop := .division }
    else if c = '\\' then .next { s with loop := .regex inClass (ahead + 2) }
    else if c = '[' then .next { s with loop := .regex true (ahead + 1) }
    else if c = ']' then .next { s with loop := .regex false (ahead + 1) }
    else if c = '/' && !inClass then .next { s with loop := .flags (ahead + 1) }
    else .next { s with loop := .regex inClass (ahead + 1) }

/-- A turn at a slash between two tokens. -/
def slashTurn (s : State) : Outcome :=
  if text[s.offset + 1]? = some '/' then .next { s with loop := .line }
  else if text[s.offset + 1]? = some '*' then
    .next { s with loop := .comment s.place, offset := s.offset + 2 }
  else if regexAllowed ((s.lexemes.take 3).map Lexeme.token) then
    .next { s with loop := .regex false (s.offset + 1) }
  else .next (s.push (.punct '/') s.place (s.offset + 1))

/-- A turn at a closing brace between two tokens. -/
def braceTurn (s : State) : Outcome :=
  match s.depths with
  | [] => .next (s.push (.punct '\x7d') s.place (s.offset + 1))
  | depth :: outer =>
    if depth = 0 then .next (s.enterTemplate outer)
    else
      lower depth fun n =>
        { s.push (.punct '\x7d') s.place (s.offset + 1) with depths := n :: outer }

def tokenTurn (s : State) : Outcome :=
  match text[s.offset]? with
  | none => .done s.lexemes.reverse
  | some c =>
    if c = '\n' then .next { s with offset := s.offset + 1, line := s.line + 1 }
    else if isBlank c then .next { s with offset := s.offset + 1 }
    else if c = '/' then slashTurn text s
    else if c = '"' ∨ c = '\'' then
      .next { s with loop := .quoted c s.place (s.offset + 1), offset := s.offset + 1 }
    else if c = '`' then .next (s.enterTemplate s.depths)
    else if c = '\x7b' then
      .next { s.push (.punct '\x7b') s.place (s.offset + 1) with
        depths := match s.depths with
          | [] => []
          | n :: outer => (n + 1) :: outer }
    else if c = '\x7d' then braceTurn s
    else if isIdentStart c then .next { s with loop := .word s.offset }
    else if c.isDigit then .next { s with loop := .number s.offset }
    else .next (s.push (.punct c) s.place (s.offset + 1))

/-- One turn of the loop that the scanner is in. -/
def turn (s : State) : Outcome :=
  match s.loop with
  | .tokens => tokenTurn text s
  | .line =>
    if (text[s.offset]?).any (· != '\n') then .next { s with offset := s.offset + 1 }
    else .next { s with loop := .tokens }
  | .comment opened => commentTurn text s opened
  | .quoted quote opened start => quotedTurn text s quote opened start
  | .template opened start => templateTurn text s opened start
  | .regex inClass ahead => regexTurn text s inClass ahead
  | .flags ahead =>
    if (text[ahead]?).any Char.isAlpha then .next { s with loop := .flags (ahead + 1) }
    else .next (s.push .other s.place ahead)
  | .division => .next (s.push (.punct '/') s.place (s.offset + 1))
  | .word start =>
    if (text[s.offset]?).any isIdentPart then .next { s with offset := s.offset + 1 }
    else
      cut text start s.offset fun name =>
        s.push (.ident (String.ofList name)) ⟨start, s.line⟩ s.offset
  | .number start =>
    if (text[s.offset]?).any Lexer.isNumberPart then .next { s with offset := s.offset + 1 }
    else .next (s.push .other ⟨start, s.line⟩ s.offset)

/-- A first line that begins with `#!` is skipped. -/
def start : State :=
  ⟨if text[0]? = some '#' ∧ text[1]? = some '!' then .line else .tokens, 0, 1, [], []⟩

def Next (s t : State) : Prop := turn text s = .next t

/-- Some turns lead from one state to the other. -/
abbrev Path : State → State → Prop := ReflTransGen (Next text)

def Reachable (s : State) : Prop := Path text (start text) s

end PackageMap.Source.Scanner
