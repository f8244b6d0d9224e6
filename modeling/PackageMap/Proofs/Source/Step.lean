import PackageMap.Source.Lexer

/-!
# What a step does

A step does one of ten things, and its first character decides which (`exists_reads`). What holds
of every step is proved by cases on `Reads`, so that the branches of the step are told apart here
only.
-/

namespace PackageMap.Source.Lexer

open PackageMap.Text

/-- The cursor behind one character, from which the text `r` goes on. -/
def State.after (s : State) (r : List Char) : Cursor := ⟨r, s.cursor.offset + 1, s.cursor.line⟩

/-- The characters that are read in a way of their own, and the line feed. -/
def special : List Char := ['\n', '/', '"', '\'', '`', '\x7b', '\x7d']

/-- What a step does that begins at a character, given the text behind it. -/
inductive Reads : Char → (State → List Char → Except Unterminated State) → Prop
  | feed : Reads '\n' fun s r => .ok (s.moveTo ⟨r, s.cursor.offset + 1, s.cursor.line + 1⟩)
  | blank {c : Char} (hc : c ∉ special) (hblank : isBlank c) :
      Reads c fun s r => .ok (s.moveTo (s.after r))
  | slash : Reads '/' slash
  | quote {c : Char} (hc : c = '"' ∨ c = '\'') : Reads c fun s r => quoted s c r
  | template : Reads '`' fun s r => template s false r
  | opening : Reads '\x7b' fun s r => .ok (openBrace s r)
  | closing : Reads '\x7d' closeBrace
  | word {c : Char} (hc : c ∉ special) (hword : isIdentStart c) :
      Reads c fun s r => .ok (run s isIdentPart (.ident ∘ String.ofList) c r)
  | number {c : Char} (hc : c ∉ special) (hdigit : c.isDigit) :
      Reads c fun s r => .ok (run s isNumberPart (fun _ => .other) c r)
  | mark {c : Char} (hc : c ∉ special) : Reads c fun s r => .ok (s.emit (.punct c) (s.after r))

theorem not_mem_special_of_isBlank {c : Char} (hn : c ≠ '\n') (hblank : isBlank c) :
    c ∉ special := by
  intro hmem
  simp only [special, List.mem_cons, List.not_mem_nil, or_false] at hmem
  rcases hmem with rfl | rfl | rfl | rfl | rfl | rfl | rfl
  · exact hn rfl
  all_goals exact absurd hblank (by decide)

/-- Every character is read in one of these ways, whatever has been read before. -/
theorem exists_reads (c : Char) :
    ∃ f, Reads c f ∧ ∀ s r, s.cursor.rest = c :: r → step s = f s r := by
  by_cases hn : c = '\n'
  · subst hn
    exact ⟨_, .feed, fun s r hs => by simp [step, hs]⟩
  by_cases hblank : isBlank c
  · exact ⟨_, .blank (not_mem_special_of_isBlank hn hblank) hblank,
      fun s r hs => by simp [step, hs, hn, hblank, State.after]⟩
  by_cases hslash : c = '/'
  · subst hslash
    exact ⟨_, .slash, fun s r hs => by simp [step, hs, hblank]⟩
  by_cases hquote : c = '"' ∨ c = '\''
  · exact ⟨_, .quote hquote, fun s r hs => by simp [step, hs, hn, hblank, hslash, hquote]⟩
  by_cases htick : c = '`'
  · subst htick
    exact ⟨_, .template, fun s r hs => by simp [step, hs, hblank]⟩
  by_cases hopen : c = '\x7b'
  · subst hopen
    exact ⟨_, .opening, fun s r hs => by simp [step, hs, hblank]⟩
  by_cases hclose : c = '\x7d'
  · subst hclose
    exact ⟨_, .closing, fun s r hs => by simp [step, hs, hblank]⟩
  have hc : c ∉ special := by
    obtain ⟨hdouble, hsingle⟩ := not_or.1 hquote
    simp only [special, List.mem_cons, List.not_mem_nil, or_false, not_or]
    exact ⟨hn, hslash, hdouble, hsingle, htick, hopen, hclose⟩
  have hplain (s : State) (r : List Char) (hs : s.cursor.rest = c :: r) : step s =
      if isIdentStart c then .ok (run s isIdentPart (.ident ∘ String.ofList) c r)
      else if c.isDigit then .ok (run s isNumberPart (fun _ => .other) c r)
      else .ok (s.emit (.punct c) (s.after r)) := by
    simp [step, hs, hn, hblank, hslash, hquote, htick, hopen, hclose, State.after]
  by_cases hword : isIdentStart c
  · exact ⟨_, .word hc hword, fun s r hs => (hplain s r hs).trans (if_pos hword)⟩
  by_cases hdigit : c.isDigit
  · exact ⟨_, .number hc hdigit,
      fun s r hs => (hplain s r hs).trans ((if_neg hword).trans (if_pos hdigit))⟩
  · exact ⟨_, .mark hc,
      fun s r hs => (hplain s r hs).trans ((if_neg hword).trans (if_neg hdigit))⟩

theorem step_of_rest_nil {s : State} (h : s.cursor.rest = []) : step s = .ok s := by
  unfold step
  rw [h]

end PackageMap.Source.Lexer
