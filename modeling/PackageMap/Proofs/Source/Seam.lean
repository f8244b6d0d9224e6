import PackageMap.Proofs.Source.Step

/-!
# What the lexer does not look at

A step that ends before `post` takes the same characters when an empty line stands in its place.
The readers are followed first, each by its own recursion. That a step ends before `post` is said
by its rest, `v ++ post`, so none of the cases in which a reader goes past the seam can occur.
-/

namespace PackageMap.Source

variable {u v post x : List Char}

theorem eq_cons_of_append {a : Char} {r : List Char} (h : u ++ post = a :: r)
    (hlen : post.length ≤ r.length) : ∃ u', u = a :: u' ∧ u' ++ post = r := by
  cases u with
  | nil =>
    rw [List.nil_append] at h
    rw [h, List.length_cons] at hlen
    omega
  | cons b u =>
    rw [List.cons_append] at h
    cases h
    exact ⟨u, rfl, rfl⟩

theorem length_le_of_eq_append {r : List Char} (h : r = v ++ post) : post.length ≤ r.length := by
  rw [h, List.length_append]; omega

theorem ne_cons_of_seam {c : Char} (hc : c ≠ '\n') (h : ∀ r, u ++ post = c :: r → False) :
    ∀ r, u ++ '\n' :: x = c :: r → False := by
  intro r hr
  cases u with
  | nil => exact hc (List.cons.inj hr).1.symm
  | cons b u =>
    obtain ⟨rfl, -⟩ := List.cons.inj hr
    exact h _ rfl

/-! ## Runs of a class -/

/-- A line feed outside the class ends a run where it ended before. -/
theorem dropWhile_seam {p : Char → Bool} (hp : p '\n' = false)
    (h : (u ++ post).dropWhile p = v ++ post) :
    (u ++ '\n' :: x).dropWhile p = v ++ '\n' :: x ∧
      (u ++ '\n' :: x).takeWhile p = (u ++ post).takeWhile p := by
  induction u with
  | nil =>
    rw [List.nil_append] at h
    have hlen := (List.dropWhile_suffix (l := post) p).length_le
    rw [h, List.length_append] at hlen
    obtain rfl : v = [] := List.eq_nil_of_length_eq_zero (by omega)
    have hsplit := List.takeWhile_append_dropWhile (p := p) (l := post)
    rw [h, List.nil_append] at hsplit
    have htake : post.takeWhile p = [] := List.append_left_eq_self.1 hsplit
    simp [hp, htake]
  | cons a u ih =>
    rw [List.cons_append, List.dropWhile_cons] at h
    rw [List.cons_append, List.cons_append, List.dropWhile_cons, List.takeWhile_cons,
      List.takeWhile_cons]
    by_cases ha : p a
    · rw [if_pos ha] at h
      obtain ⟨hd, ht⟩ := ih h
      rw [if_pos ha, if_pos ha, if_pos ha, hd, ht]
      exact ⟨rfl, rfl⟩
    · rw [if_neg ha, ← List.cons_append] at h
      rw [if_neg ha, if_neg ha, if_neg ha, ← List.append_cancel_right h]
      exact ⟨rfl, rfl⟩

/-! ## Comments -/

theorem skipLine_seam {offset line : Nat} (h : (skipLine (u ++ post) offset line).rest = v ++ post) :
    skipLine (u ++ '\n' :: x) offset line =
      { skipLine (u ++ post) offset line with rest := v ++ '\n' :: x } := by
  induction u generalizing offset with
  | nil =>
    cases post with
    | nil => simp_all [skipLine]
    | cons c post =>
      by_cases hc : c = '\n'
      · simp_all [skipLine]
      · have hlen := skipLine_length_le post (offset + 1) line
        simp only [List.nil_append, skipLine, if_neg hc] at h
        have := length_le_of_eq_append h
        rw [List.length_cons] at this
        omega
  | cons c u ih =>
    by_cases hc : c = '\n'
    · simp only [List.cons_append, skipLine, if_pos hc] at h ⊢
      rw [← List.cons_append] at h
      rw [← List.append_cancel_right h]
      rfl
    · simp only [List.cons_append, skipLine, if_neg hc] at h ⊢
      exact ih h

theorem skipComment_seam {offset line : Nat} {c : Cursor}
    (h : skipComment (u ++ post) offset line = some c) (hv : c.rest = v ++ post) :
    skipComment (u ++ '\n' :: x) offset line = some { c with rest := v ++ '\n' :: x } := by
  generalize hr : u ++ post = r at h
  fun_induction skipComment r offset line generalizing u with
  | case1 => cases h
  | case2 r offset line =>
    cases h
    dsimp only at hv
    have hlen := length_le_of_eq_append hv
    obtain ⟨u₁, rfl, h₁⟩ := eq_cons_of_append hr (Nat.le_succ_of_le hlen)
    obtain ⟨u₂, rfl, h₂⟩ := eq_cons_of_append h₁ hlen
    rw [List.append_cancel_right (h₂.trans hv)]
    rfl
  | case3 a r offset line hne ih =>
    have hlt := skipComment_length_lt h
    have hle := length_le_of_eq_append hv
    obtain ⟨u₁, rfl, h₁⟩ := eq_cons_of_append hr (by omega)
    subst h₁
    rw [List.cons_append, skipComment]
    · exact ih rfl h
    · intro r' ha
      exact ne_cons_of_seam (by decide) (fun r' => hne r' ha) r'

/-! ## Literals -/

/-- A pair of escaped line ends that stands before the seam is the one that was read. -/
theorem not_crlf_of_seam {a : Char} {r : List Char} (hr : u ++ post = r)
    (hlen : post.length < r.length) (h : ∀ r', a = '\r' → r = '\n' :: r' → False) :
    ∀ r', a = '\r' → u ++ '\n' :: x = '\n' :: r' → False := by
  intro r' ha hs
  cases u with
  | nil =>
    rw [List.nil_append] at hr
    rw [hr] at hlen
    omega
  | cons b u =>
    cases hs
    exact h _ ha hr.symm

theorem readString_seam {quote : Char} {offset line : Nat} {taken text : List Char} {c : Cursor}
    (hq : quote ≠ '\\') (h : readString quote (u ++ post) offset line taken = some (text, c))
    (hv : c.rest = v ++ post) :
    readString quote (u ++ '\n' :: x) offset line taken =
      some (text, { c with rest := v ++ '\n' :: x }) := by
  generalize hr : u ++ post = r at h
  have hle := length_le_of_eq_append hv
  fun_induction readString quote r offset line taken generalizing u with
  | case1 => cases h
  | case2 r offset line taken ih =>
    have hlt := readString_length_lt h
    obtain ⟨u₁, rfl, h₁⟩ := eq_cons_of_append hr (by simp only [List.length_cons]; omega)
    obtain ⟨u₂, rfl, h₂⟩ := eq_cons_of_append h₁ (by simp only [List.length_cons]; omega)
    obtain ⟨u₃, rfl, h₃⟩ := eq_cons_of_append h₂ (by omega)
    exact ih h₃ h
  | case3 a r offset line taken hne ih =>
    have hlt := readString_length_lt h
    obtain ⟨u₁, rfl, h₁⟩ := eq_cons_of_append hr (by simp only [List.length_cons]; omega)
    obtain ⟨u₂, rfl, h₂⟩ := eq_cons_of_append h₁ (by omega)
    rw [List.cons_append, List.cons_append,
      readString_escape (not_crlf_of_seam h₂ (by omega) hne)]
    exact ih h₂ h
  | case4 => cases h
  | case5 r offset line taken _ _ hn =>
    cases h
    obtain ⟨u₁, rfl, h₁⟩ := eq_cons_of_append hr hle
    rw [List.append_cancel_right (h₁.trans hv), List.cons_append, readString_cons hq, if_neg hn,
      if_pos rfl]
  | case6 a r offset line taken _ hesc hn hnq ih =>
    have hlt := readString_length_lt h
    have ha : a ≠ '\\' := by
      rintro rfl
      cases r with
      | nil => cases h
      | cons b r => exact hesc b r rfl rfl
    obtain ⟨u₁, rfl, h₁⟩ := eq_cons_of_append hr (by omega)
    rw [List.cons_append, readString_cons ha, if_neg hn, if_neg hnq]
    exact ih h₁ h

theorem readTemplate_seam {offset line : Nat} {taken text : List Char} {how : TemplateEnd}
    {c : Cursor} (h : readTemplate (u ++ post) offset line taken = some (text, how, c))
    (hv : c.rest = v ++ post) :
    readTemplate (u ++ '\n' :: x) offset line taken =
      some (text, how, { c with rest := v ++ '\n' :: x }) := by
  generalize hr : u ++ post = r at h
  have hle := length_le_of_eq_append hv
  fun_induction readTemplate r offset line taken generalizing u with
  | case1 => cases h
  | case2 r offset line taken ih =>
    have hlt := readTemplate_length_lt h
    obtain ⟨u₁, rfl, h₁⟩ := eq_cons_of_append hr (by simp only [List.length_cons]; omega)
    obtain ⟨u₂, rfl, h₂⟩ := eq_cons_of_append h₁ (by simp only [List.length_cons]; omega)
    obtain ⟨u₃, rfl, h₃⟩ := eq_cons_of_append h₂ (by omega)
    exact ih h₃ h
  | case3 a r offset line taken hne ih =>
    have hlt := readTemplate_length_lt h
    obtain ⟨u₁, rfl, h₁⟩ := eq_cons_of_append hr (by simp only [List.length_cons]; omega)
    obtain ⟨u₂, rfl, h₂⟩ := eq_cons_of_append h₁ (by omega)
    rw [List.cons_append, List.cons_append,
      readTemplate_escape (not_crlf_of_seam h₂ (by omega) hne)]
    exact ih h₂ h
  | case4 r offset line taken =>
    cases h
    obtain ⟨u₁, rfl, h₁⟩ := eq_cons_of_append hr (Nat.le_succ_of_le hle)
    obtain ⟨u₂, rfl, h₂⟩ := eq_cons_of_append h₁ hle
    rw [List.append_cancel_right (h₂.trans hv)]
    rfl
  | case5 r offset line taken =>
    cases h
    obtain ⟨u₁, rfl, h₁⟩ := eq_cons_of_append hr hle
    rw [List.append_cancel_right (h₁.trans hv), List.cons_append,
      readTemplate_cons (by decide) (by simp), if_pos rfl]
  | case6 a r offset line taken _ hesc hdollar hn ih =>
    have hlt := readTemplate_length_lt h
    have ha : a ≠ '\\' := by
      rintro rfl
      cases r with
      | nil => cases h
      | cons b r => exact hesc b r rfl rfl
    obtain ⟨u₁, rfl, h₁⟩ := eq_cons_of_append hr (by omega)
    subst h₁
    have hbrace : ∀ r', a = '$' → u₁ ++ '\n' :: x = '\x7b' :: r' → False := by
      intro r' hd
      exact ne_cons_of_seam (by decide) (fun r' => hdollar r' hd) r'
    rw [List.cons_append, readTemplate_cons ha hbrace, if_neg hn]
    exact ih rfl h

/-! ## Regular expressions -/

theorem skipRegex_seam {inClass : Bool} {width total : Nat}
    (h : skipRegex inClass (u ++ post) width = some (v ++ post, total)) :
    skipRegex inClass (u ++ '\n' :: x) width = some (v ++ '\n' :: x, total) := by
  generalize hr : u ++ post = r at h
  have hle : post.length ≤ (v ++ post).length := by rw [List.length_append]; omega
  fun_induction skipRegex inClass r width generalizing u with
  | case1 => cases h
  | case2 inClass a r width ih =>
    have hlt := skipRegex_length_lt h
    obtain ⟨u₁, rfl, h₁⟩ := eq_cons_of_append hr (by simp only [List.length_cons]; omega)
    obtain ⟨u₂, rfl, h₂⟩ := eq_cons_of_append h₁ (by omega)
    exact ih h₂ h
  | case3 => cases h
  | case4 inClass r width _ hn ih =>
    have hlt := skipRegex_length_lt h
    obtain ⟨u₁, rfl, h₁⟩ := eq_cons_of_append hr (by omega)
    rw [List.cons_append, skipRegex_cons (by decide), if_neg hn, if_pos rfl]
    exact ih h₁ h
  | case5 inClass r width _ hn ho ih =>
    have hlt := skipRegex_length_lt h
    obtain ⟨u₁, rfl, h₁⟩ := eq_cons_of_append hr (by omega)
    rw [List.cons_append, skipRegex_cons (by decide), if_neg hn, if_neg ho, if_pos rfl]
    exact ih h₁ h
  | case6 inClass a r width _ hn ho hc hs =>
    obtain ⟨hd, htotal⟩ := Prod.mk.inj (Option.some.inj h)
    have hlen := (List.dropWhile_suffix (l := r) Char.isAlpha).length_le
    rw [hd] at hlen
    obtain ⟨u₁, rfl, h₁⟩ := eq_cons_of_append hr (by omega)
    have ha : a ≠ '\\' := by rintro rfl; simp at hs
    subst h₁
    obtain ⟨hdrop, htake⟩ := dropWhile_seam (x := x) (by decide) hd
    rw [List.cons_append, skipRegex_cons ha, if_neg hn, if_neg ho, if_neg hc, if_pos hs, hdrop,
      htake, htotal]
  | case7 inClass a r width hesc hn ho hc hs ih =>
    have hlt := skipRegex_length_lt h
    have ha : a ≠ '\\' := by
      rintro rfl
      cases r with
      | nil => cases h
      | cons b r => exact hesc b r rfl rfl
    obtain ⟨u₁, rfl, h₁⟩ := eq_cons_of_append hr (by omega)
    rw [List.cons_append, skipRegex_cons ha, if_neg hn, if_neg ho, if_neg hc, if_neg hs]
    exact ih h₁ h

/-- An empty line leaves a regular expression open, even after a backslash. -/
theorem skipRegex_seam_none {inClass : Bool} {width : Nat}
    (h : skipRegex inClass (u ++ post) width = none) :
    skipRegex inClass (u ++ '\n' :: '\n' :: x) width = none := by
  induction hn : u.length using Nat.strongRecOn generalizing u inClass width with
  | _ n ih =>
    subst hn
    cases u with
    | nil => rw [List.nil_append, skipRegex_cons (by decide), if_pos rfl]
    | cons a u =>
      by_cases ha : a = '\\'
      · subst ha
        cases u with
        | nil =>
          show skipRegex inClass ('\n' :: x) (width + 2) = none
          rw [skipRegex_cons (by decide), if_pos rfl]
        | cons b u =>
          show skipRegex inClass (u ++ '\n' :: '\n' :: x) (width + 2) = none
          exact ih u.length (by simp only [List.length_cons]; omega) h rfl
      · have hlt : u.length < (a :: u).length := Nat.lt_succ_self _
        rw [List.cons_append, skipRegex_cons ha] at h ⊢
        by_cases hnl : a = '\n'
        · rw [if_pos hnl]
        by_cases ho : a = '['
        · rw [if_neg hnl, if_pos ho] at h ⊢
          exact ih _ hlt h rfl
        by_cases hc : a = ']'
        · rw [if_neg hnl, if_neg ho, if_pos hc] at h ⊢
          exact ih _ hlt h rfl
        by_cases hs : (a = '/' && !inClass) = true
        · rw [if_neg hnl, if_neg ho, if_neg hc, if_pos hs] at h
          cases h
        · rw [if_neg hnl, if_neg ho, if_neg hc, if_neg hs] at h ⊢
          exact ih _ hlt h rfl

/-! ## Steps -/

namespace Lexer

def State.withRest (s : State) (r : List Char) : State :=
  { s with cursor := { s.cursor with rest := r } }

theorem slash_of_ne {s : State} {r : List Char} (hl : ∀ r', r = '/' :: r' → False)
    (hb : ∀ r', r = '*' :: r' → False) :
    slash s r =
      if regexAllowed ((s.lexemes.take 3).map Lexeme.token) then
        match skipRegex false r 1 with
        | some (rest, width) => .ok (s.emit .other ⟨rest, s.cursor.offset + width, s.cursor.line⟩)
        | none => .ok (s.emit (.punct '/') ⟨r, s.cursor.offset + 1, s.cursor.line⟩)
      else .ok (s.emit (.punct '/') ⟨r, s.cursor.offset + 1, s.cursor.line⟩) := by
  unfold slash
  split
  · exact (hl _ rfl).elim
  · exact (hb _ rfl).elim
  · rfl

theorem slash_seam {s s' : State} (h : slash s (u ++ post) = .ok s')
    (hv : s'.cursor.rest = v ++ post) :
    slash s (u ++ '\n' :: '\n' :: x) = .ok (s'.withRest (v ++ '\n' :: '\n' :: x)) := by
  have hle := length_le_of_eq_append hv
  generalize hr : u ++ post = r at h
  unfold slash at h
  split at h
  · next r =>
    have hlen := skipLine_length_le r (s.cursor.offset + 2) s.cursor.line
    cases h
    obtain ⟨u₁, rfl, rfl⟩ := eq_cons_of_append hr (Nat.le_trans hle hlen)
    simp only [List.cons_append, slash, skipLine_seam hv]
    rfl
  · split at h
    · next r c hc =>
      have hlen := skipComment_length_lt hc
      cases h
      obtain ⟨u₁, rfl, rfl⟩ := eq_cons_of_append hr (Nat.le_trans hle (Nat.le_of_lt hlen))
      simp only [List.cons_append, slash, skipComment_seam hc hv]
      rfl
    · cases h
  · next hl hb =>
    subst hr
    rw [slash_of_ne (ne_cons_of_seam (by decide) hl) (ne_cons_of_seam (by decide) hb)]
    split at h
    · next hreg =>
      rw [if_pos hreg]
      split at h
      · next rest width hw =>
        cases h
        obtain rfl : rest = v ++ post := hv
        rw [skipRegex_seam hw]
        rfl
      · next hw =>
        cases h
        rw [skipRegex_seam_none hw, List.append_cancel_right hv]
        rfl
    · next hreg =>
      cases h
      rw [if_neg hreg, List.append_cancel_right hv]
      rfl

theorem quoted_seam {s s' : State} {quote : Char} (hq : quote ≠ '\\')
    (h : quoted s quote (u ++ post) = .ok s') (hv : s'.cursor.rest = v ++ post) :
    quoted s quote (u ++ '\n' :: x) = .ok (s'.withRest (v ++ '\n' :: x)) := by
  unfold quoted at h ⊢
  split at h
  · next hr =>
    cases h
    rw [readString_seam hq hr hv]
    rfl
  · cases h

theorem template_seam {s s' : State} {resumed : Bool}
    (h : template s resumed (u ++ post) = .ok s') (hv : s'.cursor.rest = v ++ post) :
    template s resumed (u ++ '\n' :: x) = .ok (s'.withRest (v ++ '\n' :: x)) := by
  unfold template at h ⊢
  split at h
  · next hr =>
    cases h
    rw [readTemplate_seam hr hv]
    rfl
  · next hr =>
    cases h
    rw [readTemplate_seam hr hv]
    rfl
  · cases h

theorem closeBrace_seam {s s' : State} (h : closeBrace s (u ++ post) = .ok s')
    (hv : s'.cursor.rest = v ++ post) :
    closeBrace s (u ++ '\n' :: x) = .ok (s'.withRest (v ++ '\n' :: x)) := by
  unfold closeBrace at h ⊢
  split at h
  · cases h
    rw [List.append_cancel_right hv]
    rfl
  · exact template_seam h hv
  · cases h
    rw [List.append_cancel_right hv]
    rfl

theorem run_seam {s : State} {part : Char → Bool} {token : List Char → Token} {c : Char}
    (hp : part '\n' = false) (hv : (run s part token c (u ++ post)).cursor.rest = v ++ post) :
    run s part token c (u ++ '\n' :: x) =
      (run s part token c (u ++ post)).withRest (v ++ '\n' :: x) := by
  obtain ⟨hdrop, htake⟩ := dropWhile_seam (x := x) hp hv
  simp only [run, hdrop, htake]
  rfl

/-- A step that ends before the seam does not look past it. -/
theorem step_seam {s s' : State} (hs : s.cursor.rest = u ++ post) (hu : u ≠ [])
    (h : step s = .ok s') (hv : s'.cursor.rest = v ++ post) :
    step (s.withRest (u ++ '\n' :: '\n' :: x)) = .ok (s'.withRest (v ++ '\n' :: '\n' :: x)) := by
  obtain ⟨c, u, rfl⟩ := List.exists_cons_of_ne_nil hu
  obtain ⟨f, hf, hstep⟩ := exists_reads c
  rw [hstep s (u ++ post) hs] at h
  rw [hstep (s.withRest (c :: u ++ '\n' :: '\n' :: x)) (u ++ '\n' :: '\n' :: x) rfl]
  cases hf with
  | slash => exact slash_seam h hv
  | quote hc => exact quoted_seam (by rcases hc with rfl | rfl <;> decide) h hv
  | template => exact template_seam h hv
  | closing => exact closeBrace_seam h hv
  | word => cases h; exact congrArg Except.ok (run_seam (by decide) hv)
  | number => cases h; exact congrArg Except.ok (run_seam (by decide) hv)
  | _ =>
    cases h
    rw [List.append_cancel_right hv]
    rfl

/-- A run over a whole text stops at the same place when an empty line and more text follow. -/
theorem finish_seam {s s' : State} (h : finish s = .ok s') :
    finish (s.withRest (s.cursor.rest ++ '\n' :: '\n' :: x)) =
      finish (s'.withRest ('\n' :: '\n' :: x)) := by
  fun_induction finish s with
  | case1 s hr =>
    cases h
    rw [hr]
    rfl
  | case2 => cases h
  | case3 s hr t ht ih =>
    have hstep : step (s.withRest (s.cursor.rest ++ '\n' :: '\n' :: x)) =
        .ok (t.withRest (t.cursor.rest ++ '\n' :: '\n' :: x)) :=
      step_seam (List.append_nil _).symm hr ht (List.append_nil _).symm
    rw [finish_of_step (by simp [State.withRest]) hstep]
    exact ih h

theorem start_of_ne {text : List Char} (h : ∀ r, text = '#' :: '!' :: r → False) :
    State.start text = ⟨.ofText text, [], []⟩ := by
  unfold State.start
  split
  · exact (h _ rfl).elim
  · rfl

/-- A first line that is skipped and ends before the seam ends there too. -/
theorem start_seam_within (h : (State.start (u ++ post)).cursor.rest = v ++ post) :
    State.start (u ++ '\n' :: x) = (State.start (u ++ post)).withRest (v ++ '\n' :: x) := by
  by_cases hline : ∃ r, u ++ post = '#' :: '!' :: r
  · obtain ⟨r, hr⟩ := hline
    rw [hr] at h
    have hlen := length_le_of_eq_append h
    have hskip : (skipLine r 2 1).rest.length ≤ r.length := skipLine_length_le r 2 1
    obtain ⟨u₁, rfl, h₁⟩ := eq_cons_of_append hr (Nat.le_succ_of_le (Nat.le_trans hlen hskip))
    obtain ⟨u₂, rfl, rfl⟩ := eq_cons_of_append h₁ (Nat.le_trans hlen hskip)
    simp only [List.cons_append, State.start, skipLine_seam h]
    rfl
  · have hne : ∀ r, u ++ post = '#' :: '!' :: r → False := fun r hr => hline ⟨r, hr⟩
    have hne' : ∀ r, u ++ '\n' :: x = '#' :: '!' :: r → False := by
      intro r hr
      match u with
      | [] => cases hr
      | [a] => cases hr
      | a :: b :: u => cases hr; exact hne _ rfl
    rw [start_of_ne hne] at h
    rw [start_of_ne hne, start_of_ne hne', List.append_cancel_right h]
    rfl

theorem start_seam (text : List Char) :
    State.start (text ++ '\n' :: x) =
      (State.start text).withRest ((State.start text).cursor.rest ++ '\n' :: x) := by
  have h : (State.start (text ++ [])).cursor.rest = (State.start text).cursor.rest ++ [] := by
    rw [List.append_nil, List.append_nil]
  rw [start_seam_within h, List.append_nil]

end Lexer

end PackageMap.Source
