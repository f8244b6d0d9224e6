import PackageMap.Proofs.Source.Closed
import PackageMap.Proofs.Source.Feeds

/-!
# What a text leaves open

The lexer fails where it begins to read something that the rest of the text does not close: a
comment, a string, or a stretch of template text (`step_fails`). A stretch behind an interpolation
belongs to a template that has opened before, and the lexer has been inside of it since
(`Visits.exists_inside`). The place that is reported is where the last stretch begins, and the line
feeds in the stretches and interpolations before it are between this line and that of the template
(`scan_fails_at`).
-/

namespace PackageMap.Source

namespace Lexer

/-! ## Where a step fails -/

/-- A construct opens at the state, and the text does not close it. -/
inductive Unclosed (s : State) : Construct → Prop
  | comment {r : List Char} (hs : s.cursor.rest = '/' :: '*' :: r) (h : ¬ ['*', '/'] <:+: r) :
      Unclosed s .blockComment
  | string {quote : Char} {r : List Char} (hquote : quote = '"' ∨ quote = '\'')
      (hs : s.cursor.rest = quote :: r) (h : UnclosedString quote r) : Unclosed s .stringLiteral
  | template {r : List Char} (hs : s.cursor.rest = '`' :: r) (h : UnclosedTemplate r) :
      Unclosed s .templateLiteral

/-- An interpolation ends at the state, and the template text behind it does not end. -/
structure Resumes (s : State) : Prop where
  ends : s.depths.head? = some 0
  text : ∃ r, s.cursor.rest = '\x7d' :: r ∧ UnclosedTemplate r

variable {s t : State} {a : Char} {r : List Char} {e : Unterminated}

theorem slash_fails (hs : s.cursor.rest = '/' :: r) (h : slash s r = .error e) :
    e.place = s.cursor.place ∧ Unclosed s e.construct := by
  unfold slash at h
  split at h
  · cases h
  · split at h
    · cases h
    · next hskip => cases h; exact ⟨rfl, .comment hs (unclosed_of_skipComment hskip)⟩
  · split at h
    · split at h
      · cases h
      · cases h
    · cases h

theorem quoted_fails (ha : a = '"' ∨ a = '\'') (hs : s.cursor.rest = a :: r)
    (h : quoted s a r = .error e) : e.place = s.cursor.place ∧ Unclosed s e.construct := by
  unfold quoted at h
  split at h
  · cases h
  · next hread => cases h; exact ⟨rfl, .string ha hs (unclosed_of_readString ha hread)⟩

theorem template_fails {resumed : Bool} (h : template s resumed r = .error e) :
    e = ⟨.templateLiteral, s.cursor.place⟩ ∧ UnclosedTemplate r := by
  unfold template at h
  split at h
  · cases h
  · cases h
  · next hread => cases h; exact ⟨rfl, unclosed_of_readTemplate hread⟩

theorem closeBrace_fails (hs : s.cursor.rest = '\x7d' :: r) (h : closeBrace s r = .error e) :
    e = ⟨.templateLiteral, s.cursor.place⟩ ∧ Resumes s := by
  unfold closeBrace at h
  split at h
  · cases h
  · next outer hd =>
    obtain ⟨rfl, hopen⟩ := template_fails h
    exact ⟨rfl, by rw [hd]; rfl, r, hs, hopen⟩
  · cases h

/-- A step fails at its own place, at a construct that opens there or at a template that goes on
there. -/
theorem step_fails (h : step s = .error e) :
    e.place = s.cursor.place ∧
      (Unclosed s e.construct ∨ e.construct = .templateLiteral ∧ Resumes s) := by
  cases hs : s.cursor.rest with
  | nil =>
    rw [step_of_rest_nil hs] at h
    cases h
  | cons a r =>
    obtain ⟨f, hf, hstep⟩ := exists_reads a
    rw [hstep s r hs] at h
    cases hf with
    | slash => exact (slash_fails hs h).imp_right .inl
    | quote ha => exact (quoted_fails ha hs h).imp_right .inl
    | template =>
      obtain ⟨rfl, hopen⟩ := template_fails h
      exact ⟨rfl, .inl (.template hs hopen)⟩
    | closing =>
      obtain ⟨rfl, hresumes⟩ := closeBrace_fails hs h
      exact ⟨rfl, .inr ⟨rfl, hresumes⟩⟩
    | _ => cases h

/-! ## Templates around a state -/

/-- The template that opens at `s₀` is still open at the other state, which is inside one of its
interpolations: since its first stretch the lexer has not come back out to where it opened. -/
inductive Inside (s₀ : State) : State → Prop
  | opened {s : State} (hs₀ : s₀.cursor.rest.head? = some '`') (hs : Lexer.step s₀ = .ok s)
      (hlen : s.depths.length = s₀.depths.length + 1) : Inside s₀ s
  | step {s t : State} (h : Inside s₀ s) (hs : Lexer.step s = .ok t)
      (hlen : s₀.depths.length < t.depths.length) : Inside s₀ t

theorem Inside.offset_le {s₀ : State} (h : Inside s₀ s) : s₀.cursor.offset ≤ s.cursor.offset := by
  induction h with
  | opened _ hs => exact (step_steps hs).ahead.offset_le
  | step _ hs _ ih => exact Nat.le_trans ih (step_steps hs).ahead.offset_le

/-- A step opens an interpolation only in a template that opens there. -/
theorem Takes.length {depths depths' : List Nat} {u : List Char} (h : Takes depths depths' u) :
    depths'.length ≤ depths.length ∨
      depths'.length = depths.length + 1 ∧ u.head? = some '`' := by
  cases h with
  | plain _ hlen => exact .inl (Nat.le_of_eq hlen)
  | brace hlen => exact .inl (Nat.le_of_eq hlen)
  | template _ how =>
    cases how with
    | closed => exact .inl (Nat.le_refl _)
    | interpolation => exact .inr ⟨rfl, rfl⟩
  | resume _ how =>
    cases how with
    | closed => exact .inl (Nat.le_succ _)
    | interpolation => exact .inl (Nat.le_refl _)
  | _ => exact .inl (Nat.le_refl _)

/-- For each interpolation that is open at a state there is the template that it stands in. -/
theorem Visits.exists_inside {text : List Char} (h : Visits text s) {k : Nat}
    (hk : k < s.depths.length) :
    ∃ s₀, Visits text s₀ ∧ Inside s₀ s ∧ s₀.depths.length = k := by
  induction h with
  | start => cases hk
  | @step s t h hr hs ih =>
    by_cases hlt : k < s.depths.length
    · obtain ⟨s₀, hs₀, hinside, rfl⟩ := ih hlt
      exact ⟨s₀, hs₀, hinside.step hs hk, rfl⟩
    · -- the interpolation opens in this step
      obtain ⟨u, hu, htakes⟩ := step_takes hr hs
      rcases htakes.length with hle | ⟨hlen, hhead⟩
      · omega
      · refine ⟨s, h, .opened ?_ hs hlen, by omega⟩
        rw [hu, List.head?_append, hhead]
        rfl

/-- The construct opens at `s₀`, and what the text does not close is read from the other state on:
all of the construct, or the text of a template behind its last interpolation. -/
inductive LeavesOpen : Construct → State → State → Prop
  | whole {c : Construct} {s : State} (h : Unclosed s c) : LeavesOpen c s s
  | resumed {s₀ s : State} (hinside : Inside s₀ s)
      (hlen : s.depths.length = s₀.depths.length + 1) (h : Resumes s) :
      LeavesOpen .templateLiteral s₀ s

theorem LeavesOpen.offset_le {c : Construct} (h : LeavesOpen c s t) :
    s.cursor.offset ≤ t.cursor.offset := by
  cases h with
  | whole => exact Nat.le_refl _
  | resumed hinside => exact hinside.offset_le

theorem Visits.of_error {text : List Char} (h : Visits text s) (hs : Lexer.finish s = .error e) :
    ∃ t, Visits text t ∧ Lexer.step t = .error e := by
  fun_induction Lexer.finish s with
  | case1 => cases hs
  | case2 s hr e' he => cases hs; exact ⟨s, h, he⟩
  | case3 s hr u hu ih => exact ih (h.step hr hu) hs

theorem Visits.leavesOpen {text : List Char} (h : Visits text s) (hs : Lexer.step s = .error e) :
    ∃ s₀, Visits text s₀ ∧ LeavesOpen e.construct s₀ s := by
  obtain ⟨-, hopen | ⟨hconstruct, hresumes⟩⟩ := step_fails hs
  · exact ⟨s, h, .whole hopen⟩
  · have hpos : 0 < s.depths.length :=
      List.length_pos_of_mem (List.mem_of_head? hresumes.ends)
    obtain ⟨s₀, hs₀, hinside, hlen⟩ := h.exists_inside (Nat.sub_lt hpos Nat.one_pos)
    rw [hconstruct]
    exact ⟨s₀, hs₀, .resumed hinside (by omega) hresumes⟩

end Lexer

theorem count_take_of_le {m n : Nat} (h : m ≤ n) (a : Char) (text : List Char) :
    (text.take n).count a = (text.take m).count a + ((text.take n).drop m).count a := by
  have hsplit := List.take_append_drop m (text.take n)
  rw [List.take_take, Nat.min_eq_left h] at hsplit
  rw [← List.count_append, hsplit]

open Lexer in
/--
Let no line of a text end in anything but a line feed, and let no regular expression be skipped in
it. If its scan fails, the text leaves a construct open. The line that is reported is the one on
which the construct opens, plus the line feeds in the stretches and interpolations of a template
before the last stretch.
-/
theorem scan_fails_at {text : String} {e : Unterminated}
    (hplain : ∀ a ∈ ['\r', '\u2028', '\u2029'], a ∉ text.toList)
    (hregex : regexes (.start text.toList) = []) (h : scan text = .error e) :
    ∃ s₀ s, Visits text.toList s₀ ∧ Visits text.toList s ∧ LeavesOpen e.construct s₀ s ∧
      e.place = s.cursor.place ∧
      e.place.line = 1 + (text.toList.take s₀.cursor.offset).count '\n' +
        ((text.toList.take s.cursor.offset).drop s₀.cursor.offset).count '\n' := by
  obtain ⟨s, hs, hstep⟩ := Visits.start.of_error (scan_eq_error_iff.1 h)
  obtain ⟨s₀, hs₀, hopen⟩ := hs.leavesOpen hstep
  have hplace := (step_fails hstep).1
  refine ⟨s₀, s, hs₀, hs, hopen, hplace, ?_⟩
  have hline := hs.cursor_line (.of_not_mem hplain)
  have hnil : regexesBefore s.cursor.offset (.start text.toList) = [] := by
    rw [hs.regexes_eq_append, List.append_eq_nil_iff] at hregex
    exact hregex.1
  rw [hnil, List.flatten_nil, List.count_nil, Nat.add_zero] at hline
  rw [hplace, Nat.add_assoc, ← count_take_of_le hopen.offset_le, ← hline]
  rfl

/-- A template with a complete interpolation, and in its next one another such template. -/
def openTwice : String := "`\n$\x7ba\x7d\n$\x7b`\n$\x7bb\x7d"

open Lexer in
/-- The inner template opens on line 3, and line 4 is reported. -/
theorem scan_fails_at_nested :
    (∀ a ∈ ['\r', '\u2028', '\u2029'], a ∉ openTwice.toList) ∧
      regexes (.start openTwice.toList) = [] ∧
      scan openTwice = .error ⟨.templateLiteral, ⟨14, 4⟩⟩ ∧
      ∃ s₀ s, Visits openTwice.toList s₀ ∧ LeavesOpen .templateLiteral s₀ s ∧
        s.cursor.place = ⟨14, 4⟩ ∧
        4 = 1 + (openTwice.toList.take s₀.cursor.offset).count '\n' +
          ((openTwice.toList.take s.cursor.offset).drop s₀.cursor.offset).count '\n' := by
  have hplain : ∀ a ∈ ['\r', '\u2028', '\u2029'], a ∉ openTwice.toList := by simp [openTwice]
  have hregex : regexes (.start openTwice.toList) = [] := by cbv
  have h : scan openTwice = .error ⟨.templateLiteral, ⟨14, 4⟩⟩ := by cbv
  obtain ⟨s₀, s, hs₀, -, hopen, hplace, hline⟩ := scan_fails_at hplain hregex h
  exact ⟨hplain, hregex, h, s₀, s, hs₀, hopen, hplace.symm, hline⟩

open Lexer in
/-- The template opens on line 1, and the line of the brace behind its interpolation is reported. -/
theorem scan_fails_behind :
    (∀ a ∈ ['\r', '\u2028', '\u2029'], a ∉ "`\n$\x7ba\x7d".toList) ∧
      regexes (.start "`\n$\x7ba\x7d".toList) = [] ∧
      scan "`\n$\x7ba\x7d" = .error ⟨.templateLiteral, ⟨5, 2⟩⟩ ∧
      (∃ s, LeavesOpen .templateLiteral (.start "`\n$\x7ba\x7d".toList) s ∧
        s.cursor.place = ⟨5, 2⟩) ∧
      1 + ("`\n$\x7ba\x7d".toList.take
        (State.start "`\n$\x7ba\x7d".toList).cursor.offset).count '\n' = 1 := by
  refine ⟨by simp, by cbv, by cbv,
    ⟨⟨⟨['\x7d'], 5, 2⟩, [⟨.ident "a", ⟨4, 2⟩⟩, ⟨.other, ⟨0, 1⟩⟩], [0]⟩, ?_, rfl⟩, by cbv⟩
  have hopened : Inside (.start "`\n$\x7ba\x7d".toList)
      ⟨⟨['a', '\x7d'], 4, 2⟩, [⟨.other, ⟨0, 1⟩⟩], [0]⟩ := .opened (by cbv) (by cbv) rfl
  refine .resumed (hopened.step ?_ ?_) rfl ⟨rfl, [], rfl, .nil, .nil⟩
  · cbv
  · exact Nat.lt_succ_self 0

end PackageMap.Source
