import Mathlib.Logic.Function.Basic
import PackageMap.Proofs.Source.Progress

/-!
# Carriage returns

A reader of a text whose lines end in a line feed, and one of the same text with a carriage return
in front of each line feed: from related cursors they get to related cursors (`Cursor.Twin`). A
regular expression is the same for both if it stays on its line.
-/

namespace PackageMap.Source

/-! ## Carriage returns -/

/-- The text with a carriage return put in front of each line feed. -/
def crlf (cs : List Char) : List Char := cs.flatMap fun c => if c = '\n' then ['\r', '\n'] else [c]

theorem crlf_feed (r : List Char) : crlf ('\n' :: r) = '\r' :: '\n' :: crlf r := rfl

theorem crlf_cons {c : Char} (h : c ≠ '\n') (r : List Char) : crlf (c :: r) = c :: crlf r := by
  unfold crlf
  rw [List.flatMap_cons, if_neg h]
  rfl

/-- What is not a line end starts the one text where it starts the other. -/
theorem exists_of_crlf_eq_cons {a : Char} {r r' : List Char} (ha : a ≠ '\r')
    (h : crlf r = a :: r') : ∃ r'', r = a :: r'' ∧ r' = crlf r'' := by
  cases r with
  | nil => cases h
  | cons c r =>
    by_cases hc : c = '\n'
    · subst hc
      exact absurd (List.cons.inj h).1.symm ha
    · rw [crlf_cons hc] at h
      obtain ⟨rfl, rfl⟩ := List.cons.inj h
      exact ⟨r, rfl, rfl⟩

/-- The text with the carriage returns in front of line feeds taken out. -/
def lf : List Char → List Char
  | [] => []
  | '\r' :: '\n' :: r => '\n' :: lf r
  | c :: r => c :: lf r

theorem lf_crlf : Function.LeftInverse lf crlf := by
  intro r
  induction r with
  | nil => rfl
  | cons c r ih =>
    by_cases hc : c = '\n'
    · subst hc
      rw [crlf_feed, lf, ih]
    · rw [crlf_cons hc, lf, ih]
      intro r' _ hr
      obtain ⟨r'', rfl, -⟩ := exists_of_crlf_eq_cons (by decide) hr
      rw [crlf_feed] at hr
      cases hr

theorem takeWhile_crlf {p : Char → Bool} (hn : p '\n' = false) (hr : p '\r' = false)
    (r : List Char) : (crlf r).takeWhile p = r.takeWhile p := by
  induction r with
  | nil => rfl
  | cons c r ih =>
    by_cases hc : c = '\n'
    · subst hc
      rw [crlf_feed, List.takeWhile_cons_of_neg (by simp [hr]),
        List.takeWhile_cons_of_neg (by simp [hn])]
    · rw [crlf_cons hc, List.takeWhile_cons, List.takeWhile_cons, ih]

theorem dropWhile_crlf {p : Char → Bool} (hn : p '\n' = false) (hr : p '\r' = false)
    (r : List Char) : (crlf r).dropWhile p = crlf (r.dropWhile p) := by
  induction r with
  | nil => rfl
  | cons c r ih =>
    by_cases hc : c = '\n'
    · subst hc
      rw [crlf_feed, List.dropWhile_cons_of_neg (by simp [hr]),
        List.dropWhile_cons_of_neg (by simp [hn]), crlf_feed]
    · rw [crlf_cons hc, List.dropWhile_cons, List.dropWhile_cons, ih]
      split
      · rfl
      · rw [crlf_cons hc]

/-- The same for a text with its newest character first. -/
def crlfBack (taken : List Char) : List Char :=
  taken.flatMap fun c => if c = '\n' then ['\n', '\r'] else [c]

theorem crlfBack_cons {c : Char} (h : c ≠ '\n') (taken : List Char) :
    crlfBack (c :: taken) = c :: crlfBack taken := by
  unfold crlfBack
  rw [List.flatMap_cons, if_neg h]
  rfl

theorem reverse_crlfBack (taken : List Char) : (crlfBack taken).reverse = crlf taken.reverse := by
  unfold crlfBack crlf
  rw [List.reverse_flatMap]
  congr 1
  funext c
  dsimp only [Function.comp_apply]
  split <;> rfl

/-! ## Cursors -/

/-- The rests of two related texts: the second reader may have passed a carriage return already. -/
inductive Rewritten : List Char → List Char → Prop
  | all (r : List Char) : Rewritten r (crlf r)
  | feed (r : List Char) : Rewritten ('\n' :: r) ('\n' :: crlf r)

/-- Cursors on one line of two related texts. -/
structure Cursor.Twin (c c' : Cursor) : Prop where
  rest : Rewritten c.rest c'.rest
  line : c'.line = c.line

section Readers

variable {r : List Char} (o o' l : Nat)

theorem twin_mk (r : List Char) : Cursor.Twin ⟨r, o, l⟩ ⟨crlf r, o', l⟩ := ⟨.all r, rfl⟩

/-- A comment to the end of the line ends before the line feed, whatever ends the line. -/
theorem skipLine_twin (r : List Char) : (skipLine r o l).Twin (skipLine (crlf r) o' l) := by
  induction r generalizing o o' with
  | nil => exact twin_mk o o' l []
  | cons c r ih =>
    by_cases hc : c = '\n'
    · subst hc
      exact ⟨.feed r, rfl⟩
    · rw [crlf_cons hc, skipLine, if_neg hc, skipLine, if_neg hc]
      exact ih _ _

theorem skipComment_cons {c : Char} (h : ∀ r', c = '*' → r = '/' :: r' → False) :
    skipComment (c :: r) o l = skipComment r (o + 1) (if c = '\n' then l + 1 else l) := by
  rw [skipComment]
  exact h

theorem skipComment_twin (r : List Char) :
    Option.Rel Cursor.Twin (skipComment r o l) (skipComment (crlf r) o' l) := by
  fun_induction skipComment r o l generalizing o' with
  | case1 => exact .none
  | case2 r o l => exact .some (twin_mk _ _ l r)
  | case3 c r o l hne ih =>
    by_cases hc : c = '\n'
    · subst hc
      rw [crlf_feed, skipComment_cons _ _ (by simp), skipComment_cons _ _ (by simp)]
      exact ih _
    · rw [crlf_cons hc, skipComment_cons]
      · exact ih _
      · intro r' hstar hr
        obtain ⟨r'', rfl, -⟩ := exists_of_crlf_eq_cons (by decide) hr
        exact hne r'' hstar rfl

/-- A backslash at the end of the one text is at the end of the other. -/
theorem crlf_lone {c : Char} {r : List Char} (h : ∀ a r', c = '\\' → r = a :: r' → False) (a : Char)
    (r' : List Char) (hc : c = '\\') (hr : crlf r = a :: r') : False := by
  cases r with
  | nil => cases hr
  | cons b r => exact h b r hc rfl

/-- What two readers of strings have got: the text, and a cursor behind it. -/
def StringTwin (x x' : List Char × Cursor) : Prop := x'.1 = crlf x.1 ∧ x.2.Twin x'.2

theorem readString_twin {quote : Char} (hq : quote ≠ '\r') {r : List Char} (hr : '\r' ∉ r)
    (taken : List Char) :
    Option.Rel StringTwin (readString quote r o l taken)
      (readString quote (crlf r) o' l (crlfBack taken)) := by
  fun_induction readString quote r o l taken generalizing o' with
  | case1 => exact .none
  | case2 => simp at hr
  | case3 c r o l taken hne ih =>
    obtain ⟨hc, hr'⟩ : c ≠ '\r' ∧ '\r' ∉ r := by simpa [eq_comm] using hr
    rw [crlf_cons (by decide)]
    by_cases hn : c = '\n'
    · subst hn
      exact ih _ hr'
    · rw [crlf_cons hn, readString_escape fun _ h => absurd h hc, ← crlfBack_cons (by decide),
        ← crlfBack_cons hn]
      exact ih _ hr'
  | case4 =>
    rw [crlf_feed, readString_cons (by decide), if_neg (by decide), if_neg hq.symm,
      readString_cons (by decide), if_pos rfl]
    exact .none
  | case5 r o l taken hcr hesc hn =>
    rw [crlf_cons hn, readString, if_neg hn, if_pos rfl]
    · exact .some ⟨reverse_crlfBack taken, twin_mk _ _ l r⟩
    · exact fun _ => crlf_lone hesc _ _
    · exact crlf_lone hesc
  | case6 c r o l taken hcr hesc hn hquote ih =>
    obtain ⟨hc, hr'⟩ : c ≠ '\r' ∧ '\r' ∉ r := by simpa [eq_comm] using hr
    rw [crlf_cons hn, readString, if_neg hn, if_neg hquote, ← crlfBack_cons hn]
    · exact ih _ hr'
    · exact fun _ => crlf_lone hesc _ _
    · exact crlf_lone hesc

/-- What two readers of template text have got. -/
def TemplateTwin (x x' : List Char × TemplateEnd × Cursor) : Prop :=
  x'.1 = crlf x.1 ∧ x'.2.1 = x.2.1 ∧ x.2.2.Twin x'.2.2

theorem readTemplate_twin {r : List Char} (hr : '\r' ∉ r) (taken : List Char) :
    Option.Rel TemplateTwin (readTemplate r o l taken)
      (readTemplate (crlf r) o' l (crlfBack taken)) := by
  fun_induction readTemplate r o l taken generalizing o' with
  | case1 => exact .none
  | case2 => simp at hr
  | case3 c r o l taken hne ih =>
    obtain ⟨hc, hr'⟩ : c ≠ '\r' ∧ '\r' ∉ r := by simpa [eq_comm] using hr
    rw [crlf_cons (by decide)]
    by_cases hn : c = '\n'
    · subst hn
      exact ih _ hr'
    · rw [crlf_cons hn, readTemplate_escape fun _ h => absurd h hc, ← crlfBack_cons (by decide),
        ← crlfBack_cons hn]
      exact ih _ hr'
  | case4 r o l taken => exact .some ⟨reverse_crlfBack taken, rfl, twin_mk _ _ l r⟩
  | case5 r o l taken => exact .some ⟨reverse_crlfBack taken, rfl, twin_mk _ _ l r⟩
  | case6 c r o l taken hcr hesc hd hq ih =>
    obtain ⟨hc, hr'⟩ : c ≠ '\r' ∧ '\r' ∉ r := by simpa [eq_comm] using hr
    by_cases hn : c = '\n'
    · subst hn
      have hquote : ¬ '\r' = '`' := by decide
      have hfeed : ¬ '\r' = '\n' := by decide
      rw [crlf_feed, readTemplate_cons (by decide) (by simp), if_neg hquote, if_neg hfeed,
        readTemplate_cons (by decide) (by simp), if_neg hq]
      exact ih _ hr'
    · rw [crlf_cons hn, readTemplate, if_neg hq, ← crlfBack_cons hn]
      · exact ih _ hr'
      · exact fun _ => crlf_lone hesc _ _
      · exact crlf_lone hesc
      · intro r' hdollar hbrace
        obtain ⟨r'', rfl, -⟩ := exists_of_crlf_eq_cons (by decide) hbrace
        exact hd r'' hdollar rfl

end Readers

/-! ## Regular expressions -/

section Regex

variable {inClass : Bool} {r rest : List Char} {width total : Nat}

theorem exists_skipRegex_append (h : skipRegex inClass r width = some (rest, total)) :
    ∃ u, r = u ++ rest ∧ total = width + u.length := by
  have hahead : Cursor.Ahead ⟨r, 0 + width, 0⟩ ⟨rest, 0 + total, 0⟩ := skipRegex_ahead h
  obtain ⟨u, hu, htotal⟩ := hahead
  exact ⟨u, hu, by simpa using htotal⟩

/-- Neither text has a regular expression where the one has none. -/
theorem skipRegex_crlf_none (h : skipRegex inClass r width = none) :
    skipRegex inClass (crlf r) width = none := by
  have hfeed (inClass : Bool) (r : List Char) (width : Nat) :
      skipRegex inClass ('\n' :: r) width = none := by
    rw [skipRegex_cons (by decide), if_pos rfl]
  fun_induction skipRegex inClass r width with
  | case1 => rfl
  | case2 inClass c r width ih =>
    rw [crlf_cons (by decide)]
    by_cases hn : c = '\n'
    · subst hn
      rw [crlf_feed, skipRegex]
      exact hfeed _ _ _
    · rw [crlf_cons hn, skipRegex]
      exact ih h
  | case3 =>
    rw [crlf_feed, skipRegex_cons (by decide), if_neg (by decide), if_neg (by decide),
      if_neg (by decide), if_neg (by simp)]
    exact hfeed _ _ _
  | case4 inClass r width _ hn ih =>
    rw [crlf_cons hn, skipRegex_cons (by decide), if_neg hn, if_pos rfl]
    exact ih h
  | case5 inClass r width _ hn ho ih =>
    rw [crlf_cons hn, skipRegex_cons (by decide), if_neg hn, if_neg ho, if_pos rfl]
    exact ih h
  | case6 => cases h
  | case7 inClass c r width hesc hn ho hc hs ih =>
    rw [crlf_cons hn, skipRegex, if_neg hn, if_neg ho, if_neg hc, if_neg hs]
    · exact ih h
    · exact crlf_lone hesc

/-- A regular expression on one line is the same in both texts. -/
theorem skipRegex_crlf (h : skipRegex inClass r width = some (rest, total))
    (hline : ∀ u, r = u ++ rest → '\n' ∉ u) :
    skipRegex inClass (crlf r) width = some (crlf rest, total) := by
  fun_induction skipRegex inClass r width with
  | case1 => cases h
  | case2 inClass c r width ih =>
    obtain ⟨u, hu, -⟩ := exists_skipRegex_append h
    have hn : c ≠ '\n' := by
      rintro rfl
      exact hline ('\\' :: '\n' :: u) (by rw [hu]; rfl) (by simp)
    rw [crlf_cons (by decide), crlf_cons hn, skipRegex]
    refine ih h fun v hv => ?_
    have hfree := hline ('\\' :: c :: v) (by rw [hv]; rfl)
    exact fun hmem => hfree (.tail _ (.tail _ hmem))
  | case3 => cases h
  | case4 inClass r width _ hn ih =>
    rw [crlf_cons hn, skipRegex_cons (by decide), if_neg hn, if_pos rfl]
    exact ih h fun v hv hmem => hline ('[' :: v) (by rw [hv]; rfl) (.tail _ hmem)
  | case5 inClass r width _ hn ho ih =>
    rw [crlf_cons hn, skipRegex_cons (by decide), if_neg hn, if_neg ho, if_pos rfl]
    exact ih h fun v hv hmem => hline (']' :: v) (by rw [hv]; rfl) (.tail _ hmem)
  | case6 inClass c r width _ hn ho hc hs =>
    cases h
    have hslash : c ≠ '\\' := by rintro rfl; simp at hs
    rw [crlf_cons hn, skipRegex_cons hslash, if_neg hn, if_neg ho, if_neg hc, if_pos hs,
      takeWhile_crlf (by decide) (by decide), dropWhile_crlf (by decide) (by decide)]
  | case7 inClass c r width hesc hn ho hc hs ih =>
    rw [crlf_cons hn, skipRegex, if_neg hn, if_neg ho, if_neg hc, if_neg hs]
    · exact ih h fun v hv hmem => hline (c :: v) (by rw [hv]; rfl) (.tail _ hmem)
    · exact crlf_lone hesc

end Regex

end PackageMap.Source
