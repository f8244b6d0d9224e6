import PackageMap.Text.Class

/-!
# Cursors in a source text

A cursor is the rest of a text together with where it starts. The functions below read one
construct each, from just after its opening delimiter, and leave a shorter rest.
-/

namespace PackageMap.Source

open PackageMap.Text

/-- A place in a text: the number of characters before it and its line, counted from 1 and below
2^32. -/
structure Place where
  offset : Nat
  line : Nat
deriving DecidableEq, Repr

/-- The text still to be read, and the place where it starts. -/
structure Cursor where
  rest : List Char
  offset : Nat
  line : Nat
deriving DecidableEq, Repr

namespace Cursor

def ofText (text : List Char) : Cursor := ⟨text, 0, 1⟩

def place (c : Cursor) : Place := ⟨c.offset, c.line⟩

end Cursor

/-- The cursor before the next line feed, or at the end of the text. -/
def skipLine : List Char → Nat → Nat → Cursor
  | [], offset, line => ⟨[], offset, line⟩
  | c :: r, offset, line => if c = '\n' then ⟨c :: r, offset, line⟩ else skipLine r (offset + 1) line

theorem skipLine_length_le (r : List Char) (offset line : Nat) :
    (skipLine r offset line).rest.length ≤ r.length := by
  induction r generalizing offset with
  | nil => simp [skipLine]
  | cons c r ih =>
    unfold skipLine
    split
    · simp
    · exact Nat.le_succ_of_le (ih _)

/-- The cursor after the first `*/`, or `none` if there is none. -/
def skipComment : List Char → Nat → Nat → Option Cursor
  | [], _, _ => none
  | '*' :: '/' :: r, offset, line => some ⟨r, offset + 2, line⟩
  | c :: r, offset, line => skipComment r (offset + 1) (if c = '\n' then line + 1 else line)

theorem skipComment_length_lt {r : List Char} {offset line : Nat} {c : Cursor}
    (h : skipComment r offset line = some c) : c.rest.length < r.length := by
  fun_induction skipComment r offset line with
  | case1 => simp at h
  | case2 => cases h; simp only [List.length_cons]; omega
  | case3 => rename_i ih; exact Nat.lt_succ_of_lt (ih h)

/--
The text before the closing quote and the cursor after it. A backslash takes the next character
with it, or the next two if they are a carriage return and a line feed; a line feed of its own, or
the end of the text, leaves the literal open. The text read so far is `taken`, newest first.
-/
def readString (quote : Char) : List Char → Nat → Nat → List Char → Option (List Char × Cursor)
  | [], _, _, _ => none
  | '\\' :: '\r' :: '\n' :: r, offset, line, taken =>
    readString quote r (offset + 3) (line + 1) ('\n' :: '\r' :: '\\' :: taken)
  | '\\' :: c :: r, offset, line, taken =>
    readString quote r (offset + 2) (if isLineEnd c then line + 1 else line) (c :: '\\' :: taken)
  | c :: r, offset, line, taken =>
    if c = '\n' then none
    else if c = quote then some (taken.reverse, ⟨r, offset + 1, line⟩)
    else readString quote r (offset + 1) line (c :: taken)

theorem readString_escape {quote a : Char} {r taken : List Char} {offset line : Nat}
    (h : ∀ r', a = '\r' → r = '\n' :: r' → False) :
    readString quote ('\\' :: a :: r) offset line taken =
      readString quote r (offset + 2) (if isLineEnd a then line + 1 else line)
        (a :: '\\' :: taken) := by
  rw [readString]
  exact h

theorem readString_cons {quote c : Char} {r taken : List Char} {offset line : Nat}
    (h : c ≠ '\\') :
    readString quote (c :: r) offset line taken =
      if c = '\n' then none
      else if c = quote then some (taken.reverse, ⟨r, offset + 1, line⟩)
      else readString quote r (offset + 1) line (c :: taken) := by
  rw [readString] <;> simp [h]

theorem readString_length_lt {quote : Char} {r taken text : List Char} {offset line : Nat}
    {c : Cursor} (h : readString quote r offset line taken = some (text, c)) :
    c.rest.length < r.length := by
  fun_induction readString quote r offset line taken with
  | case1 => simp at h
  | case2 _ _ _ _ ih => have := ih h; simp only [List.length_cons]; omega
  | case3 _ _ _ _ _ _ ih => have := ih h; simp only [List.length_cons]; omega
  | case4 => simp at h
  | case5 => cases h; simp
  | case6 => rename_i ih; exact Nat.lt_succ_of_lt (ih h)

/-- How a stretch of template text ends: with the closing backtick, or by opening a `${`. -/
inductive TemplateEnd where
  | closed
  | interpolation
deriving DecidableEq, Repr

/-- The stretch of template text up to the closing backtick or the next interpolation, and the
cursor after that. Escapes are as in strings; a line feed is text. -/
def readTemplate : List Char → Nat → Nat → List Char →
    Option (List Char × TemplateEnd × Cursor)
  | [], _, _, _ => none
  | '\\' :: '\r' :: '\n' :: r, offset, line, taken =>
    readTemplate r (offset + 3) (line + 1) ('\n' :: '\r' :: '\\' :: taken)
  | '\\' :: c :: r, offset, line, taken =>
    readTemplate r (offset + 2) (if isLineEnd c then line + 1 else line) (c :: '\\' :: taken)
  | '$' :: '{' :: r, offset, line, taken =>
    some (taken.reverse, .interpolation, ⟨r, offset + 2, line⟩)
  | c :: r, offset, line, taken =>
    if c = '`' then some (taken.reverse, .closed, ⟨r, offset + 1, line⟩)
    else readTemplate r (offset + 1) (if c = '\n' then line + 1 else line) (c :: taken)

theorem readTemplate_escape {a : Char} {r taken : List Char} {offset line : Nat}
    (h : ∀ r', a = '\r' → r = '\n' :: r' → False) :
    readTemplate ('\\' :: a :: r) offset line taken =
      readTemplate r (offset + 2) (if isLineEnd a then line + 1 else line)
        (a :: '\\' :: taken) := by
  rw [readTemplate]
  exact h

theorem readTemplate_cons {c : Char} {r taken : List Char} {offset line : Nat} (h : c ≠ '\\')
    (h' : ∀ r', c = '$' → r = '\x7b' :: r' → False) :
    readTemplate (c :: r) offset line taken =
      if c = '`' then some (taken.reverse, .closed, ⟨r, offset + 1, line⟩)
      else readTemplate r (offset + 1) (if c = '\n' then line + 1 else line) (c :: taken) := by
  rw [readTemplate] <;> simp_all

theorem readTemplate_length_lt {r taken text : List Char} {offset line : Nat} {how : TemplateEnd}
    {c : Cursor} (h : readTemplate r offset line taken = some (text, how, c)) :
    c.rest.length < r.length := by
  fun_induction readTemplate r offset line taken with
  | case1 => simp at h
  | case2 _ _ _ _ ih => have := ih h; simp only [List.length_cons]; omega
  | case3 _ _ _ _ _ _ ih => have := ih h; simp only [List.length_cons]; omega
  | case4 => cases h; simp only [List.length_cons]; omega
  | case5 => cases h; simp
  | case6 => rename_i ih; exact Nat.lt_succ_of_lt (ih h)

/--
The rest after a regular expression and the number of characters it takes, flags included, or
`none` if a line feed or the end of the text comes first. A slash inside a class does not close it.
-/
def skipRegex : Bool → List Char → Nat → Option (List Char × Nat)
  | _, [], _ => none
  | inClass, '\\' :: _ :: r, width => skipRegex inClass r (width + 2)
  | inClass, c :: r, width =>
    if c = '\n' then none
    else if c = '[' then skipRegex true r (width + 1)
    else if c = ']' then skipRegex false r (width + 1)
    else if c = '/' && !inClass then
      some (r.dropWhile Char.isAlpha, width + 1 + (r.takeWhile Char.isAlpha).length)
    else skipRegex inClass r (width + 1)

theorem skipRegex_cons {inClass : Bool} {c : Char} {r : List Char} {width : Nat} (h : c ≠ '\\') :
    skipRegex inClass (c :: r) width =
      if c = '\n' then none
      else if c = '[' then skipRegex true r (width + 1)
      else if c = ']' then skipRegex false r (width + 1)
      else if c = '/' && !inClass then
        some (r.dropWhile Char.isAlpha, width + 1 + (r.takeWhile Char.isAlpha).length)
      else skipRegex inClass r (width + 1) := by
  rw [skipRegex]; simp [h]

theorem skipRegex_length_lt {inClass : Bool} {r rest : List Char} {width total : Nat}
    (h : skipRegex inClass r width = some (rest, total)) : rest.length < r.length := by
  fun_induction skipRegex inClass r width with
  | case1 => simp at h
  | case2 _ _ _ _ ih => have := ih h; simp only [List.length_cons]; omega
  | case3 => simp at h
  | case4 => rename_i ih; exact Nat.lt_succ_of_lt (ih h)
  | case5 => rename_i ih; exact Nat.lt_succ_of_lt (ih h)
  | case6 => cases h; exact Nat.lt_succ_of_le (List.dropWhile_suffix _).length_le
  | case7 => rename_i ih; exact Nat.lt_succ_of_lt (ih h)

end PackageMap.Source
