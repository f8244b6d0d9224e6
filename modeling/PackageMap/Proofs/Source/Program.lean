import PackageMap.Proofs.Source.Construct
import PackageMap.Proofs.Source.Seam
import PackageMap.Source.Reference

/-!
# Programs as texts

A program is a list of statements that each refer to a module, with strings and comments between
them. Its text may be spaced in any way that keeps names apart. The lexer reads back the symbols of
each statement, with the specifier where it stands in the text.
-/

namespace PackageMap.Source

open PackageMap.Text

/-! ## Symbols and the spaces between them -/

/-- What stands between symbols. A line comment brings its line end along. -/
inductive Trivia where
  | blank (c : Char) (h : isBlank c = true)
  | lineComment (body : String) (h : '\n' ∉ body.toList)
  | blockComment (body : String) (h : ¬ ['*', '/'] <:+: body.toList)

def Trivia.text : Trivia → List Char
  | .blank c _ => [c]
  | .lineComment body _ => '/' :: '/' :: (body.toList ++ ['\n'])
  | .blockComment body _ => '/' :: '*' :: (body.toList ++ ['*', '/'])

def Trivia.texts (ts : List Trivia) : List Char := ts.flatMap Trivia.text

/-- A symbol of a statement other than its specifier. -/
inductive Symbol where
  | word (name : String) (h : isWord name.toList = true)
  | mark (c : Char) (h : Lexer.isMark c = true)

namespace Symbol

def text : Symbol → List Char
  | .word name _ => name.toList
  | .mark c _ => [c]

def token : Symbol → Token
  | .word name _ => .ident name
  | .mark c _ => .punct c

/-- Two words with nothing between them are kept apart by a space. -/
def space : Symbol → List Symbol → List Trivia → List Char
  | .word _ _, .word _ _ :: _, [] => [' ']
  | _, _, _ => []

/-- The text of some symbols: `gap` tells what stands before each, by its number. -/
def texts (gap : Nat → List Trivia) : Nat → List Symbol → List Char
  | _, [] => []
  | i, x :: xs =>
    Trivia.texts (gap i) ++ (x.text ++ (x.space xs (gap (i + 1)) ++ texts gap (i + 1) xs))

end Symbol

/-! ## Statements -/

/-- A name that a clause binds. -/
structure Name where
  text : String
  isWord_text : isWord text.toList = true
  ne_import : text ≠ "import"
  ne_export : text ≠ "export"

def Name.symbol (n : Name) : Symbol := .word n.text n.isWord_text

/-- A name in braces, which may stand under another name. -/
structure Binding where
  name : Name
  alias? : Option Name

def Binding.symbols (b : Binding) : List Symbol :=
  match b.alias? with
  | none => [b.name.symbol]
  | some n => [b.name.symbol, .word "as" (by decide), n.symbol]

inductive Bindings where
  /-- The clause `* as n`. -/
  | whole (n : Name)
  /-- A list in braces. -/
  | named (bs : List Binding)

def Bindings.symbols : Bindings → List Symbol
  | .whole n => [.mark '*' (by decide), .word "as" (by decide), n.symbol]
  | .named bs =>
    .mark '\x7b' (by decide) ::
      ([.mark ',' (by decide)].intercalate (bs.map Binding.symbols) ++ [.mark '\x7d' (by decide)])

inductive ImportClause where
  | default (n : Name)
  | bindings (b : Bindings)
  | both (n : Name) (b : Bindings)

def ImportClause.symbols : ImportClause → List Symbol
  | .default n => [n.symbol]
  | .bindings b => b.symbols
  | .both n b => n.symbol :: .mark ',' (by decide) :: b.symbols

inductive ExportClause where
  | everything
  | bindings (b : Bindings)

def ExportClause.symbols : ExportClause → List Symbol
  | .everything => [.mark '*' (by decide)]
  | .bindings b => b.symbols

/-- The ways to refer to a module. What stands before `from` is shorter than the search for it. -/
inductive Form where
  | require
  | importCall
  | importOnly
  | importFrom (clause : ImportClause) (h : clause.symbols.length ≤ 511)
  | exportFrom (clause : ExportClause) (h : clause.symbols.length ≤ 511)

namespace Form

def kind : Form → ReferenceKind
  | .require => .cjsRequire
  | .importCall => .esmDynamicImport
  | .importOnly => .esmImport
  | .importFrom _ _ => .esmImport
  | .exportFrom _ _ => .esmExport

/-- The symbols before the specifier. -/
def opening : Form → List Symbol
  | .require => [.word "require" (by decide), .mark '(' (by decide)]
  | .importCall => [.word "import" (by decide), .mark '(' (by decide)]
  | .importOnly => [.word "import" (by decide)]
  | .importFrom clause _ =>
    .word "import" (by decide) :: (clause.symbols ++ [.word "from" (by decide)])
  | .exportFrom clause _ =>
    .word "export" (by decide) :: (clause.symbols ++ [.word "from" (by decide)])

/-- The symbols between the specifier and the semicolon. -/
def closing : Form → List Symbol
  | .require => [.mark ')' (by decide)]
  | .importCall => [.mark ')' (by decide)]
  | .importOnly => []
  | .importFrom _ _ => []
  | .exportFrom _ _ => []

end Form

/-- A statement that refers to a module, with what stands before each of its symbols. -/
structure Statement where
  form : Form
  quote : Quote
  specifier : String
  specifier_ne : specifier ≠ ""
  plain : ∀ c ∈ specifier.toList, c ∉ ['\'', '"', '`', '\\', '\n']
  gap : Nat → List Trivia

namespace Statement

/-- The text before the specifier's opening quote. -/
def before (s : Statement) : List Char :=
  Symbol.texts s.gap 0 s.form.opening ++ Trivia.texts (s.gap s.form.opening.length)

/-- The text after the specifier's closing quote. -/
def after (s : Statement) : List Char :=
  Symbol.texts s.gap (s.form.opening.length + 1) s.form.closing ++
    Trivia.texts (s.gap (s.form.opening.length + 1 + s.form.closing.length)) ++ [';']

def literal (s : Statement) : List Char :=
  s.quote.char :: (s.specifier.toList ++ [s.quote.char])

def text (s : Statement) : List Char := s.before ++ (s.literal ++ s.after)

end Statement

/-! ## Programs -/

/-- A statement, a statement that is only a string, or what stands between statements. -/
inductive Piece where
  | statement (s : Statement)
  | string (quote : Quote) (body : String) (h : quote.encloses body.toList = true)
  | trivia (t : Trivia)

def Piece.text : Piece → List Char
  | .statement s => s.text
  | .string quote body _ => quote.char :: (body.toList ++ [quote.char, ';'])
  | .trivia t => t.text

/-- The reference that a piece at the place `p` makes. -/
def Piece.references (p : Place) : Piece → List Reference
  | .statement s => [⟨s.specifier, s.form.kind, p.past s.before⟩]
  | .string _ _ _ => []
  | .trivia _ => []

/-- Pieces, and a comment in the last line if there is one that no line end follows. -/
structure Program where
  pieces : List Piece
  comment : Option { body : String // '\n' ∉ body.toList }

namespace Program

def text (p : Program) : List Char :=
  p.pieces.flatMap Piece.text ++ match p.comment with
    | none => []
    | some body => '/' :: '/' :: body.val.toList

/-- The references of some pieces that stand at the place `p`, one for each statement. -/
def referencesFrom : Place → List Piece → List Reference
  | _, [] => []
  | p, x :: xs => x.references p ++ referencesFrom (p.past x.text) xs

def references (p : Program) : List Reference := referencesFrom ⟨0, 1⟩ p.pieces

end Program

/-! ## Reading symbols -/

section Heads

variable {r : List Char}

/-- What stands between symbols begins with a blank or a slash. -/
theorem Trivia.head {P : Char → Prop} (hblank : ∀ c, isBlank c = true → P c) (hslash : P '/')
    (t : Trivia) : ∀ c ∈ (t.text ++ r).head?, P c := by
  rintro c hc
  cases t with
  | blank b h =>
    obtain rfl : b = c := Option.some.inj hc
    exact hblank b h
  | lineComment body h =>
    obtain rfl : '/' = c := Option.some.inj hc
    exact hslash
  | blockComment body h =>
    obtain rfl : '/' = c := Option.some.inj hc
    exact hslash

theorem Trivia.head_texts {P : Char → Prop} (hblank : ∀ c, isBlank c = true → P c) (hslash : P '/')
    (ts : List Trivia) (hr : ∀ c ∈ r.head?, P c) : ∀ c ∈ (Trivia.texts ts ++ r).head?, P c := by
  cases ts with
  | nil => exact hr
  | cons t ts =>
    rw [Trivia.texts, List.flatMap_cons, List.append_assoc]
    exact t.head hblank hslash

theorem Lexer.isIdentPart_of_isMark {c : Char} (h : isMark c = true) : isIdentPart c = false := by
  have hmem : c ∈ ['(', ')', '\x7b', '\x7d', ',', '*', ';'] := List.contains_iff_mem.1 h
  simp only [List.mem_cons, List.not_mem_nil, or_false] at hmem
  rcases hmem with rfl | rfl | rfl | rfl | rfl | rfl | rfl <;> decide

/-- A word does not run on into what follows it. -/
theorem Symbol.isIdentPart_head_space {name : String} {h : isWord name.toList = true}
    (gap : Nat → List Trivia) (i : Nat) (xs : List Symbol)
    (hr : ∀ c ∈ r.head?, isIdentPart c = false) :
    ∀ c ∈ (space (.word name h) xs (gap i) ++ (texts gap i xs ++ r)).head?,
      isIdentPart c = false := by
  cases xs with
  | nil => exact hr
  | cons x xs =>
    cases hgap : gap i with
    | nil =>
      cases x with
      | word name' h' =>
        rintro c hc
        obtain rfl : ' ' = c := Option.some.inj hc
        decide
      | mark m hm =>
        rintro c hc
        rw [texts, hgap] at hc
        obtain rfl : m = c := Option.some.inj hc
        exact Lexer.isIdentPart_of_isMark hm
    | cons t ts =>
      have hspace : space (.word name h) (x :: xs) (t :: ts) = [] := by cases x <;> rfl
      rw [hspace, texts, hgap, List.nil_append, Trivia.texts, List.flatMap_cons, List.append_assoc,
        List.append_assoc]
      exact t.head (fun _ => isIdentPart_of_isBlank) (by decide)

end Heads

namespace Lexer

variable (p : Place) (ls : List Lexeme) (r : List Char)

theorem finish_trivia (t : Trivia) : finish (.reading p ls [] (t.text ++ r)) =
    finish (.reading (p.past t.text) ls [] r) := by
  cases t with
  | blank c h => exact finish_blank p ls [] r h
  | lineComment body h =>
    have hline : ('/' :: '/' :: (body.toList ++ ['\n'])) = ('/' :: '/' :: body.toList) ++ ['\n'] :=
      rfl
    have hfeed : isBlank '\n' = true := by decide
    rw [Trivia.text, hline, Place.past_append, ← finish_blank _ _ _ _ hfeed, List.append_assoc]
    refine finish_lineComment p ls [] _ h fun c hc => (Option.some.inj hc).symm
  | blockComment body h =>
    have hopen : '/' :: '*' :: (body.toList ++ ['*', '/']) ++ r =
        '/' :: '*' :: (body.toList ++ '*' :: '/' :: r) := by simp
    rw [Trivia.text, hopen]
    exact finish_blockComment p ls [] r h

theorem finish_trivias (ts : List Trivia) : finish (.reading p ls [] (Trivia.texts ts ++ r)) =
    finish (.reading (p.past (Trivia.texts ts)) ls [] r) := by
  induction ts generalizing p with
  | nil => rfl
  | cons t ts ih =>
    rw [Trivia.texts, List.flatMap_cons, List.append_assoc, finish_trivia, Place.past_append]
    exact ih _

theorem finish_symbol (x : Symbol)
    (hr : ∀ name h, x = .word name h → ∀ c ∈ r.head?, isIdentPart c = false) :
    finish (.reading p ls [] (x.text ++ r)) =
      finish (.reading (p.past x.text) (⟨x.token, p⟩ :: ls) [] r) := by
  cases x with
  | word name h =>
    have hword := finish_word p ls [] r h (hr name h rfl)
    rwa [String.ofList_toList] at hword
  | mark c h => exact finish_mark p ls r h

theorem finish_space (x : Symbol) (xs : List Symbol) (ts : List Trivia) :
    finish (.reading p ls [] (x.space xs ts ++ r)) =
      finish (.reading (p.past (x.space xs ts)) ls [] r) := by
  unfold Symbol.space
  split
  · exact finish_blank p ls [] r (by decide)
  · rfl

/-- The symbols are read one after the other, each where it stands. -/
theorem finish_symbols (gap : Nat → List Trivia) (i : Nat) (xs : List Symbol) :
    ∃ new : List Lexeme, new.map Lexeme.token = xs.map Symbol.token ∧
      ∀ ls r, (∀ c ∈ r.head?, isIdentPart c = false) →
        finish (.reading p ls [] (Symbol.texts gap i xs ++ r)) =
          finish (.reading (p.past (Symbol.texts gap i xs)) (new.reverse ++ ls) [] r) := by
  induction xs generalizing p i with
  | nil => exact ⟨[], rfl, fun ls r _ => rfl⟩
  | cons x xs ih =>
    obtain ⟨new, htokens, hnew⟩ := ih (((p.past (Trivia.texts (gap i))).past x.text).past
      (x.space xs (gap (i + 1)))) (i + 1)
    refine ⟨⟨x.token, p.past (Trivia.texts (gap i))⟩ :: new, ?_, fun ls r hr => ?_⟩
    · rw [List.map_cons, List.map_cons, htokens]
    · rw [Symbol.texts, List.append_assoc, finish_trivias, List.append_assoc, finish_symbol,
        List.append_assoc, finish_space, hnew _ _ hr]
      · rw [Place.past_append, Place.past_append, Place.past_append, List.reverse_cons,
          List.append_assoc]
        rfl
      · rintro name h rfl
        rw [List.append_assoc]
        exact Symbol.isIdentPart_head_space gap (i + 1) xs hr

/-! ## Reading pieces -/

/-- The lexer reads the characters `u` at the place `p` as the tokens `new`, whatever follows. -/
def ReadsAs (p : Place) (u : List Char) (new : List Lexeme) : Prop :=
  ∀ ls r, finish (.reading p ls [] (u ++ r)) = finish (.reading (p.past u) (new.reverse ++ ls) [] r)

variable {p} {u v : List Char} {new new' : List Lexeme}

theorem ReadsAs.append (h : ReadsAs p u new) (h' : ReadsAs (p.past u) v new') :
    ReadsAs p (u ++ v) (new ++ new') := by
  intro ls r
  rw [List.append_assoc, h, h', Place.past_append, List.reverse_append, List.append_assoc]

theorem readsAs_semicolon (p : Place) : ReadsAs p [';'] [⟨.punct ';', p⟩] :=
  fun ls r => finish_mark p ls r (by decide)

theorem readsAs_quoted {q : Quote} {body : String} (h : q.encloses body.toList = true) (p : Place) :
    ReadsAs p (q.char :: (body.toList ++ [q.char])) [⟨.literal body, p⟩] := by
  intro ls r
  have hquoted := finish_quoted p ls [] r h
  rw [String.ofList_toList] at hquoted
  rw [List.cons_append, List.append_assoc]
  exact hquoted

/-- Symbols are read before a character that is in no name, with anything between. -/
theorem readsAs_symbols {c : Char} (gap : Nat → List Trivia) (i : Nat) (xs : List Symbol)
    (ts : List Trivia) (hc : isIdentPart c = false)
    (h : ReadsAs (p.past (Symbol.texts gap i xs ++ Trivia.texts ts)) (c :: v) new') :
    ∃ new : List Lexeme, new.map Lexeme.token = xs.map Symbol.token ∧
      ReadsAs p (Symbol.texts gap i xs ++ Trivia.texts ts ++ c :: v) (new ++ new') := by
  obtain ⟨new, htokens, hnew⟩ := finish_symbols p gap i xs
  have hsymbols : ReadsAs p (Symbol.texts gap i xs ++ Trivia.texts ts ++ c :: v) (new ++ new') := by
    intro ls r
    rw [List.append_assoc, List.append_assoc, hnew, finish_trivias, ← Place.past_append, h,
      ← Place.past_append, List.reverse_append]
    · simp only [List.append_assoc]
    refine Trivia.head_texts (fun _ => isIdentPart_of_isBlank) (by decide) ts fun d hd => ?_
    obtain rfl : c = d := Option.some.inj hd
    exact hc
  exact ⟨new, htokens, hsymbols⟩

theorem encloses_of_plain {q : Quote} {u : List Char}
    (h : ∀ c ∈ u, c ∉ ['\'', '"', '`', '\\', '\n']) : q.encloses u = true := by
  induction u with
  | nil => rfl
  | cons c u ih =>
    obtain ⟨hc, hu⟩ := List.forall_mem_cons.1 h
    simp only [List.mem_cons, List.not_mem_nil, or_false, not_or] at hc
    obtain ⟨hsingle, hdouble, -, hescape, hfeed⟩ := hc
    have hq : c ≠ q.char := by cases q <;> assumption
    rw [Quote.encloses_cons hescape, ih hu]
    simp [hq, hfeed]

end Lexer

open Lexer in
/-- A statement is read as the symbols that open it, its specifier, those that close it and the
semicolon. -/
theorem Statement.readsAs (s : Statement) (p : Place) :
    ∃ (opening closing : List Lexeme) (q : Place),
      opening.map Lexeme.token = s.form.opening.map Symbol.token ∧
      closing.map Lexeme.token = s.form.closing.map Symbol.token ∧
      ReadsAs p s.text
        (opening ++ ⟨.literal s.specifier, p.past s.before⟩ :: (closing ++ [⟨.punct ';', q⟩])) := by
  have hopen : s.quote.encloses s.specifier.toList = true := encloses_of_plain s.plain
  have hquote : isIdentPart s.quote.char = false := by cases s.quote <;> decide
  -- from the end: the semicolon ends what closes the specifier, the quote what opens it
  obtain ⟨closing, hclosing, hafter⟩ := readsAs_symbols s.gap (s.form.opening.length + 1)
    s.form.closing (s.gap (s.form.opening.length + 1 + s.form.closing.length)) (by decide)
    (readsAs_semicolon (((p.past s.before).past s.literal).past _))
  obtain ⟨opening, hopening, hread⟩ := readsAs_symbols s.gap 0 s.form.opening
    (s.gap s.form.opening.length) hquote ((readsAs_quoted hopen (p.past s.before)).append hafter)
  exact ⟨opening, closing, _, hopening, hclosing, hread⟩

/-! ## The start of a program -/

theorem isIdentStart_head {word : List Char} (h : isWord word = true) (r : List Char) :
    ∀ c ∈ (word ++ r).head?, isIdentStart c = true := by
  rintro c hc
  cases word with
  | nil => cases h
  | cons d more =>
    obtain rfl : d = c := Option.some.inj hc
    exact (Bool.and_eq_true_iff.1 h).1

theorem Form.opening_eq (f : Form) : ∃ name h xs, f.opening = .word name h :: xs := by
  cases f <;> exact ⟨_, _, _, rfl⟩

/-- No piece begins like a first line that is skipped. -/
theorem Piece.head_ne (x : Piece) (r : List Char) : ∀ c ∈ (x.text ++ r).head?, c ≠ '#' := by
  have hblank : ∀ c, isBlank c = true → c ≠ '#' := by
    rintro c hc rfl
    cases hc
  cases x with
  | statement s =>
    obtain ⟨name, h, xs, hopening⟩ := s.form.opening_eq
    rw [text, Statement.text, Statement.before, hopening, Symbol.texts]
    simp only [List.append_assoc]
    refine Trivia.head_texts hblank (by decide) _ ?_
    rintro c hc rfl
    cases isIdentStart_head h _ _ hc
  | string q body h =>
    rintro c hc
    obtain rfl : q.char = c := Option.some.inj hc
    cases q <;> decide
  | trivia t => exact t.head hblank (by decide)

theorem Program.start_text (p : Program) :
    Lexer.State.start p.text = .reading ⟨0, 1⟩ [] [] p.text := by
  refine Lexer.start_of_ne fun r hr => ?_
  have hhead : ∀ c ∈ p.text.head?, c ≠ '#' := by
    unfold text
    cases p.pieces with
    | nil =>
      cases p.comment with
      | none => nofun
      | some body =>
        rintro c hc
        obtain rfl : '/' = c := Option.some.inj hc
        decide
    | cons x xs =>
      rw [List.flatMap_cons, List.append_assoc]
      exact x.head_ne _
  rw [hr] at hhead
  exact hhead '#' rfl rfl

end PackageMap.Source
