import PackageMap.Proofs.Source.Step

/-!
# Steps move on

A step takes some characters off the text before the cursor and counts them, and the token that it
may add opens where it began. So the places of the tokens increase.
-/

namespace PackageMap.Source

/-- The second cursor is some characters after the first, and has counted them. -/
def Cursor.Ahead (c c' : Cursor) : Prop :=
  ∃ u, c.rest = u ++ c'.rest ∧ c'.offset = c.offset + u.length

namespace Cursor.Ahead

variable {c c' c'' : Cursor}

theorem refl (c : Cursor) : c.Ahead c := ⟨[], rfl, rfl⟩

theorem trans (h : c.Ahead c') (h' : c'.Ahead c'') : c.Ahead c'' := by
  obtain ⟨u, hu, ho⟩ := h
  obtain ⟨v, hv, ho'⟩ := h'
  refine ⟨u ++ v, ?_, ?_⟩
  · rw [hu, hv, List.append_assoc]
  · rw [ho', ho, List.length_append, Nat.add_assoc]

/-- What is ahead of a cursor that has passed some characters is ahead of it. -/
theorem past (u : List Char) {r : List Char} {line : Nat} (hr : c.rest = u ++ r)
    (h : Cursor.Ahead ⟨r, c.offset + u.length, line⟩ c') : c.Ahead c' := by
  obtain ⟨v, rfl, ho⟩ := h
  refine ⟨u ++ v, ?_, ?_⟩
  · rw [hr, List.append_assoc]
  · rw [ho, List.length_append, Nat.add_assoc]

theorem cons {a : Char} {r : List Char} {line : Nat} (hr : c.rest = a :: r)
    (h : Cursor.Ahead ⟨r, c.offset + 1, line⟩ c') : c.Ahead c' := past [a] hr h

theorem offset_le (h : c.Ahead c') : c.offset ≤ c'.offset := by
  obtain ⟨u, -, ho⟩ := h
  omega

theorem offset_lt (h : c.Ahead c') (hlen : c'.rest.length < c.rest.length) :
    c.offset < c'.offset := by
  obtain ⟨u, hu, ho⟩ := h
  rw [hu, List.length_append] at hlen
  omega

end Cursor.Ahead

/-! ## Readers -/

open Cursor (Ahead)

variable {offset line : Nat} {r taken text : List Char} {c : Cursor}

theorem skipLine_ahead (r : List Char) (offset line : Nat) :
    Ahead ⟨r, offset, line⟩ (skipLine r offset line) := by
  induction r generalizing offset with
  | nil => exact .refl _
  | cons a r ih =>
    unfold skipLine
    split
    · exact .refl _
    · exact .cons rfl (ih (offset + 1))

theorem skipComment_ahead (h : skipComment r offset line = some c) :
    Ahead ⟨r, offset, line⟩ c := by
  fun_induction skipComment r offset line with
  | case1 => cases h
  | case2 r offset line => cases h; exact ⟨['*', '/'], rfl, rfl⟩
  | case3 a r offset line hne ih => exact .cons rfl (ih h)

theorem readString_ahead {quote : Char}
    (h : readString quote r offset line taken = some (text, c)) : Ahead ⟨r, offset, line⟩ c := by
  fun_induction readString quote r offset line taken with
  | case1 => cases h
  | case2 r offset line taken ih => exact .past ['\\', '\r', '\n'] rfl (ih h)
  | case3 a r offset line taken hne ih => exact .past ['\\', a] rfl (ih h)
  | case4 => cases h
  | case5 => cases h; exact .cons rfl (.refl _)
  | case6 a r offset line taken hcr hesc hn hq ih => exact .cons rfl (ih h)

theorem readTemplate_ahead {how : TemplateEnd}
    (h : readTemplate r offset line taken = some (text, how, c)) :
    Ahead ⟨r, offset, line⟩ c := by
  fun_induction readTemplate r offset line taken with
  | case1 => cases h
  | case2 r offset line taken ih => exact .past ['\\', '\r', '\n'] rfl (ih h)
  | case3 a r offset line taken hne ih => exact .past ['\\', a] rfl (ih h)
  | case4 => cases h; exact ⟨['$', '\x7b'], rfl, rfl⟩
  | case5 => cases h; exact .cons rfl (.refl _)
  | case6 a r offset line taken hcr hesc hd hq ih => exact .cons rfl (ih h)

theorem skipRegex_ahead {inClass : Bool} {rest : List Char} {width total : Nat}
    (h : skipRegex inClass r width = some (rest, total)) :
    Ahead ⟨r, offset + width, line⟩ ⟨rest, offset + total, line⟩ := by
  fun_induction skipRegex inClass r width with
  | case1 => cases h
  | case2 inClass a r width ih => exact .past ['\\', a] rfl (ih h)
  | case3 => cases h
  | case4 inClass r width _ hn ih => exact .cons rfl (ih h)
  | case5 inClass r width _ hn ho ih => exact .cons rfl (ih h)
  | case6 inClass a r width _ hn ho hc hs =>
    cases h
    refine ⟨a :: r.takeWhile Char.isAlpha, ?_, ?_⟩
    · rw [List.cons_append, List.takeWhile_append_dropWhile]
    · simp only [List.length_cons]
      omega
  | case7 inClass a r width hesc hn ho hc hs ih => exact .cons rfl (ih h)

/-! ## Steps -/

namespace Lexer

variable {s t u : State} {text : List Char}

/-- The second state is after the first, and the tokens found between the two open no earlier than
the cursor stood. -/
structure Moves (s t : State) : Prop where
  ahead : s.cursor.Ahead t.cursor
  lexemes : ∃ new, t.lexemes = new ++ s.lexemes ∧
    ∀ x ∈ new, s.cursor.offset ≤ x.place.offset ∧ x.place.offset < t.cursor.offset

/-- The step adds at most one token, which opens where the step begins. -/
structure Steps (s t : State) : Prop where
  ahead : s.cursor.Ahead t.cursor
  lexemes : t.lexemes = s.lexemes ∨ ∃ token, t.lexemes = ⟨token, s.cursor.place⟩ :: s.lexemes

theorem Steps.moveTo {c : Cursor} (h : s.cursor.Ahead c) : Steps s (s.moveTo c) := ⟨h, .inl rfl⟩

theorem Steps.emit {token : Token} {c : Cursor} (h : s.cursor.Ahead c) :
    Steps s (s.emit token c) := ⟨h, .inr ⟨token, rfl⟩⟩

section

variable {a : Char} {r : List Char} (hr : s.cursor.rest = a :: r)

include hr

theorem slash_steps (h : slash s r = .ok t) : Steps s t := by
  unfold slash at h
  split at h
  · next r =>
    cases h
    exact .moveTo (.past [a, '/'] hr (skipLine_ahead _ _ _))
  · split at h
    · next hc =>
      cases h
      exact .moveTo (.past [a, '*'] hr (skipComment_ahead hc))
    · cases h
  · split at h
    · split at h
      · next hw => cases h; exact .emit (.cons hr (skipRegex_ahead hw))
      · cases h; exact .emit (.cons hr (.refl _))
    · cases h; exact .emit (.cons hr (.refl _))

theorem quoted_steps {quote : Char} (h : quoted s quote r = .ok t) : Steps s t := by
  unfold quoted at h
  split at h
  · next hs => cases h; exact .emit (.cons hr (readString_ahead hs))
  · cases h

theorem template_steps {resumed : Bool} (h : template s resumed r = .ok t) : Steps s t := by
  unfold template at h
  split at h
  · next ht => cases h; exact .emit (.cons hr (readTemplate_ahead ht))
  · next ht =>
    cases h
    exact ⟨.cons hr (readTemplate_ahead ht), .inr ⟨.other, rfl⟩⟩
  · cases h

theorem closeBrace_steps (h : closeBrace s r = .ok t) : Steps s t := by
  unfold closeBrace at h
  split at h
  · cases h; exact .emit (.cons hr (.refl _))
  · next outer _ =>
    obtain ⟨hahead, hlexemes⟩ := template_steps (s := { s with depths := outer }) hr h
    exact ⟨hahead, hlexemes⟩
  · cases h
    exact ⟨.cons hr (.refl _), .inr ⟨.punct '\x7d', rfl⟩⟩

theorem run_steps (part : Char → Bool) (token : List Char → Token) :
    Steps s (run s part token a r) := by
  have hsplit : r = r.takeWhile part ++ r.dropWhile part := List.takeWhile_append_dropWhile.symm
  refine .emit ⟨a :: r.takeWhile part, ?_, ?_⟩
  · rw [hr, List.cons_append, ← hsplit]
  · show s.cursor.offset + 1 + _ = _
    rw [List.length_cons]
    omega

end

theorem step_steps (h : step s = .ok t) : Steps s t := by
  cases hr : s.cursor.rest with
  | nil =>
    rw [step_of_rest_nil hr] at h
    cases h
    exact ⟨.refl _, .inl rfl⟩
  | cons a r =>
    obtain ⟨f, hf, hstep⟩ := exists_reads a
    rw [hstep s r hr] at h
    cases hf with
    | feed => cases h; exact .moveTo (.cons hr (.refl _))
    | blank => cases h; exact .moveTo (.cons hr (.refl _))
    | slash => exact slash_steps hr h
    | quote => exact quoted_steps hr h
    | template => exact template_steps hr h
    | opening => cases h; exact ⟨.cons hr (.refl _), .inr ⟨.punct '\x7b', rfl⟩⟩
    | closing => exact closeBrace_steps hr h
    | word => cases h; exact run_steps hr _ _
    | number => cases h; exact run_steps hr _ _
    | mark => cases h; exact .emit (.cons hr (.refl _))

/-! ## Runs -/

theorem Moves.refl (s : State) : Moves s s := ⟨.refl _, [], rfl, nofun⟩

theorem Moves.trans (h : Moves s t) (h' : Moves t u) : Moves s u := by
  obtain ⟨hahead, new, hnew, hplace⟩ := h
  obtain ⟨hahead', new', hnew', hplace'⟩ := h'
  refine ⟨hahead.trans hahead', new' ++ new, by rw [hnew', hnew, List.append_assoc], ?_⟩
  intro x hx
  rcases List.mem_append.1 hx with hx | hx
  · have ⟨hle, hlt⟩ := hplace' x hx
    exact ⟨Nat.le_trans hahead.offset_le hle, hlt⟩
  · have ⟨hle, hlt⟩ := hplace x hx
    exact ⟨hle, Nat.lt_of_lt_of_le hlt hahead'.offset_le⟩

theorem step_moves (hr : s.cursor.rest ≠ []) (h : step s = .ok t) : Moves s t := by
  obtain ⟨hahead, hlexemes⟩ := step_steps h
  have hlt := hahead.offset_lt (step_length_lt hr h)
  rcases hlexemes with hlexemes | ⟨token, hlexemes⟩
  · exact ⟨hahead, [], hlexemes, nofun⟩
  · refine ⟨hahead, [⟨token, s.cursor.place⟩], hlexemes, fun x hx => ?_⟩
    rw [List.mem_singleton.1 hx]
    exact ⟨Nat.le_refl _, hlt⟩

theorem finish_moves (h : finish s = .ok t) : Moves s t := by
  fun_induction finish s with
  | case1 => cases h; exact .refl _
  | case2 => cases h
  | case3 s hr u hu ih => exact (step_moves hr hu).trans (ih h)

theorem start_ahead (text : List Char) : (Cursor.ofText text).Ahead (State.start text).cursor := by
  unfold State.start
  split
  · exact .past ['#', '!'] rfl (skipLine_ahead _ _ _)
  · exact .refl _

/-- The states that the lexer is in between its steps over a text. -/
inductive Visits (text : List Char) : State → Prop
  | start : Visits text (.start text)
  | step {s t : State} (h : Visits text s) (hr : s.cursor.rest ≠ []) (hs : Lexer.step s = .ok t) :
    Visits text t

theorem Visits.of_finish (h : Visits text s) (hs : Lexer.finish s = .ok t) : Visits text t := by
  fun_induction Lexer.finish s with
  | case1 => cases hs; exact h
  | case2 => cases hs
  | case3 s hr u hu ih => exact ih (h.step hr hu) hs

end Lexer

end PackageMap.Source
