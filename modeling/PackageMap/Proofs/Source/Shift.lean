import PackageMap.Source.Reference
import PackageMap.Proofs.Source.Step

/-!
# Reading a text at another place

A text is read in the same way wherever it starts and whatever stands before it, as long as the
tokens before it decide alike about the slashes in it. Only the places of its tokens move.
-/

namespace PackageMap.Source

variable {o l : Nat}

def Place.shift (o l : Nat) (p : Place) : Place := ⟨o + p.offset, l + p.line⟩

def Cursor.shift (o l : Nat) (c : Cursor) : Cursor := ⟨c.rest, o + c.offset, l + c.line⟩

def Lexeme.shift (o l : Nat) (x : Lexeme) : Lexeme := ⟨x.token, x.place.shift o l⟩

/-! ## Readers -/

theorem skipLine_shift (r : List Char) (offset line : Nat) :
    skipLine r (o + offset) (l + line) = (skipLine r offset line).shift o l := by
  induction r generalizing offset with
  | nil => rfl
  | cons c r ih =>
    unfold skipLine
    by_cases hc : c = '\n'
    · rw [if_pos hc, if_pos hc]
      rfl
    · rw [if_neg hc, if_neg hc]
      exact ih (offset + 1)

/-- A line count that may go up by one. -/
theorem add_line {p : Prop} [Decidable p] (line : Nat) :
    (if p then l + line + 1 else l + line) = l + (if p then line + 1 else line) := by
  split <;> rfl

theorem skipComment_shift (r : List Char) (offset line : Nat) :
    skipComment r (o + offset) (l + line) = (skipComment r offset line).map (Cursor.shift o l) := by
  fun_induction skipComment r offset line with
  | case1 => rfl
  | case2 => rfl
  | case3 c r offset line hne ih =>
    rw [skipComment, add_line]
    · exact ih
    · exact hne

theorem readString_shift (quote : Char) (r : List Char) (offset line : Nat) (taken : List Char) :
    readString quote r (o + offset) (l + line) taken =
      (readString quote r offset line taken).map fun (text, c) => (text, c.shift o l) := by
  fun_induction readString quote r offset line taken with
  | case1 => rfl
  | case2 r offset line taken ih => exact ih
  | case3 c r offset line taken hne ih =>
    rw [readString_escape hne, add_line]
    exact ih
  | case4 r offset line taken => rfl
  | case5 r offset line taken hcr hesc hn =>
    rw [readString, if_neg hn, if_pos rfl]
    · rfl
    · exact hcr
    · exact hesc
  | case6 c r offset line taken hcr hesc hn hq ih =>
    rw [readString, if_neg hn, if_neg hq]
    · exact ih
    · exact hcr
    · exact hesc

theorem readTemplate_shift (r : List Char) (offset line : Nat) (taken : List Char) :
    readTemplate r (o + offset) (l + line) taken =
      (readTemplate r offset line taken).map fun (text, how, c) => (text, how, c.shift o l) := by
  fun_induction readTemplate r offset line taken with
  | case1 => rfl
  | case2 r offset line taken ih => exact ih
  | case3 c r offset line taken hne ih =>
    rw [readTemplate_escape hne, add_line]
    exact ih
  | case4 => rfl
  | case5 => rfl
  | case6 c r offset line taken hcr hesc hd hq ih =>
    rw [readTemplate, if_neg hq, add_line]
    · exact ih
    · exact hcr
    · exact hesc
    · exact hd

/-! ## States -/

namespace Lexer

/-- Two readers of one text: they have found the same tokens since they had `base` and `base'`, the
second `o` characters and `l` lines later. -/
structure Shifted (o l : Nat) (base base' : List Lexeme) (s s' : State) : Prop where
  cursor : s'.cursor = s.cursor.shift o l
  depths : s'.depths = s.depths
  lexemes : ∃ new, s.lexemes = new ++ base ∧ s'.lexemes = new.map (Lexeme.shift o l) ++ base'

/-- Whatever tokens follow them, both lists decide alike whether a regular expression may open. -/
def SlashAlike (base base' : List Lexeme) : Prop :=
  ∀ new : List Token, regexAllowed ((new ++ base.map Lexeme.token).take 3) =
    regexAllowed ((new ++ base'.map Lexeme.token).take 3)

variable {base base' : List Lexeme} {s s' t : State}

theorem Shifted.rest (h : Shifted o l base base' s s') : s'.cursor.rest = s.cursor.rest := by
  rw [h.cursor]
  rfl

theorem Shifted.offset (h : Shifted o l base base' s s') :
    s'.cursor.offset = o + s.cursor.offset := by
  rw [h.cursor]
  rfl

theorem Shifted.line (h : Shifted o l base base' s s') : s'.cursor.line = l + s.cursor.line := by
  rw [h.cursor]
  rfl

theorem Shifted.after (h : Shifted o l base base' s s') (r : List Char) :
    s'.after r = (s.after r).shift o l := by
  unfold State.after
  rw [h.offset, h.line, Nat.add_assoc]
  rfl

theorem Shifted.moveTo (h : Shifted o l base base' s s') (c : Cursor) :
    Shifted o l base base' (s.moveTo c) (s'.moveTo (c.shift o l)) :=
  ⟨rfl, h.depths, h.lexemes⟩

theorem Shifted.emit (h : Shifted o l base base' s s') (token : Token) (c : Cursor) :
    Shifted o l base base' (s.emit token c) (s'.emit token (c.shift o l)) := by
  obtain ⟨new, hs, hs'⟩ := h.lexemes
  refine ⟨rfl, h.depths, ⟨token, s.cursor.place⟩ :: new, ?_, ?_⟩
  · rw [State.emit, hs]
    rfl
  · rw [State.emit, hs', h.cursor]
    rfl

theorem Shifted.withDepths (h : Shifted o l base base' s s') (depths : List Nat) :
    Shifted o l base base' { s with depths } { s' with depths } :=
  ⟨h.cursor, rfl, h.lexemes⟩

theorem Shifted.regexAllowed (hb : SlashAlike base base') (h : Shifted o l base base' s s') :
    regexAllowed ((s'.lexemes.take 3).map Lexeme.token) =
      regexAllowed ((s.lexemes.take 3).map Lexeme.token) := by
  obtain ⟨new, hs, hs'⟩ := h.lexemes
  have htokens : (new.map (Lexeme.shift o l)).map Lexeme.token = new.map Lexeme.token := by
    rw [List.map_map]
    rfl
  rw [List.map_take, List.map_take, hs, hs', List.map_append, List.map_append, htokens]
  exact (hb _).symm

/-! ## Steps -/

theorem slash_shifted (hb : SlashAlike base base') (h : Shifted o l base base' s s')
    {r : List Char} (hs : slash s r = .ok t) :
    ∃ t', slash s' r = .ok t' ∧ Shifted o l base base' t t' := by
  unfold slash at hs ⊢
  rw [h.regexAllowed hb, h.offset, h.line]
  split at hs
  · cases hs
    refine ⟨_, rfl, ?_⟩
    rw [Nat.add_assoc, skipLine_shift]
    exact h.moveTo _
  · rw [Nat.add_assoc, skipComment_shift]
    split at hs
    · next hc =>
      cases hs
      rw [hc]
      exact ⟨_, rfl, h.moveTo _⟩
    · cases hs
  · split at hs
    · next hreg =>
      rw [if_pos hreg]
      split at hs
      · cases hs
        rw [Nat.add_assoc]
        exact ⟨_, rfl, h.emit _ _⟩
      · cases hs
        exact ⟨_, rfl, h.emit _ _⟩
    · next hreg =>
      cases hs
      rw [if_neg hreg]
      exact ⟨_, rfl, h.emit _ _⟩

theorem quoted_shifted (h : Shifted o l base base' s s') {quote : Char} {r : List Char}
    (hs : quoted s quote r = .ok t) :
    ∃ t', quoted s' quote r = .ok t' ∧ Shifted o l base base' t t' := by
  unfold quoted at hs ⊢
  rw [h.offset, h.line, Nat.add_assoc, readString_shift]
  split at hs
  · next hr =>
    cases hs
    rw [hr]
    exact ⟨_, rfl, h.emit _ _⟩
  · cases hs

theorem template_shifted (h : Shifted o l base base' s s') {resumed : Bool} {r : List Char}
    (hs : template s resumed r = .ok t) :
    ∃ t', template s' resumed r = .ok t' ∧ Shifted o l base base' t t' := by
  unfold template at hs ⊢
  rw [h.offset, h.line, Nat.add_assoc, readTemplate_shift]
  split at hs
  · next hr =>
    cases hs
    rw [hr]
    exact ⟨_, rfl, h.emit _ _⟩
  · next hr =>
    cases hs
    rw [hr, h.depths]
    exact ⟨_, rfl, (h.emit _ _).withDepths _⟩
  · cases hs

theorem closeBrace_shifted (h : Shifted o l base base' s s') {r : List Char}
    (hs : closeBrace s r = .ok t) :
    ∃ t', closeBrace s' r = .ok t' ∧ Shifted o l base base' t t' := by
  unfold closeBrace at hs ⊢
  rw [h.depths, h.offset, h.line, Nat.add_assoc]
  split at hs
  · cases hs
    exact ⟨_, rfl, h.emit _ _⟩
  · exact template_shifted (h.withDepths _) hs
  · cases hs
    exact ⟨_, rfl, (h.emit _ _).withDepths _⟩

theorem openBrace_shifted (h : Shifted o l base base' s s') (r : List Char) :
    Shifted o l base base' (openBrace s r) (openBrace s' r) := by
  unfold openBrace
  rw [h.depths, h.offset, h.line, Nat.add_assoc]
  exact (h.emit _ _).withDepths _

theorem run_shifted (h : Shifted o l base base' s s') (part : Char → Bool)
    (token : List Char → Token) (c : Char) (r : List Char) :
    Shifted o l base base' (run s part token c r) (run s' part token c r) := by
  simp only [run, h.offset, h.line, Nat.add_assoc]
  exact h.emit _ _

theorem step_shifted (hb : SlashAlike base base') (h : Shifted o l base base' s s')
    (hs : step s = .ok t) : ∃ t', step s' = .ok t' ∧ Shifted o l base base' t t' := by
  cases hr : s.cursor.rest with
  | nil =>
    rw [step_of_rest_nil hr] at hs
    cases hs
    exact ⟨s', step_of_rest_nil (h.rest.trans hr), h⟩
  | cons c r =>
    obtain ⟨f, hf, hstep⟩ := exists_reads c
    rw [hstep s r hr] at hs
    rw [hstep s' r (h.rest.trans hr)]
    cases hf with
    | feed =>
      cases hs
      refine ⟨_, rfl, ?_⟩
      rw [h.offset, h.line, Nat.add_assoc]
      exact h.moveTo _
    | blank =>
      cases hs
      refine ⟨_, rfl, ?_⟩
      rw [h.after]
      exact h.moveTo _
    | slash => exact slash_shifted hb h hs
    | quote => exact quoted_shifted h hs
    | template => exact template_shifted h hs
    | opening => cases hs; exact ⟨_, rfl, openBrace_shifted h r⟩
    | closing => exact closeBrace_shifted h hs
    | word => cases hs; exact ⟨_, rfl, run_shifted h _ _ _ _⟩
    | number => cases hs; exact ⟨_, rfl, run_shifted h _ _ _ _⟩
    | mark =>
      cases hs
      refine ⟨_, rfl, ?_⟩
      rw [h.after]
      exact h.emit _ _

/-- Readers that read alike so far read alike to the end. -/
theorem finish_shifted (hb : SlashAlike base base') (h : Shifted o l base base' s s')
    (hs : finish s = .ok t) : ∃ t', finish s' = .ok t' ∧ Shifted o l base base' t t' := by
  fun_induction finish s generalizing s' with
  | case1 s hr =>
    cases hs
    exact ⟨s', finish_of_rest_nil (h.rest.trans hr), h⟩
  | case2 => cases hs
  | case3 s hr u hu ih =>
    obtain ⟨u', hu', hsu⟩ := step_shifted hb h hu
    rw [finish_of_step (by rwa [h.rest]) hu']
    exact ih hsu hs

end Lexer

end PackageMap.Source
