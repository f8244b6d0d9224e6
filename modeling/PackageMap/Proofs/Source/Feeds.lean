import PackageMap.Proofs.Source.LineEnds
import PackageMap.Proofs.Source.Order

/-!
# Lines of references

In a text whose lines end in line feeds alone the lexer counts the lines that it passes, but for the
line feeds that a backslash takes into a regular expression (`step_counted`). So the line of a
reference is that of its literal, less the line feeds in the regular expressions that have been
skipped before (`scan_counts_lines`).
-/

namespace PackageMap.Source

open PackageMap.Text

/-! ## Readers -/

/-- Lines end in line feeds alone. -/
def FeedsOnly (r : List Char) : Prop := ∀ a ∈ r, isLineEnd a = true → a = '\n'

/-- The second cursor is some characters after the first and has counted them and their lines. -/
def Cursor.Counts (c c' : Cursor) : Prop :=
  ∃ u, c.rest = u ++ c'.rest ∧ c'.place = c.place.past u

variable {offset line : Nat} {r taken text : List Char} {a : Char} {c c' : Cursor}

namespace Cursor.Counts

theorem refl (c : Cursor) : c.Counts c := ⟨[], rfl, rfl⟩

theorem past (u : List Char) (hr : c.rest = u ++ r)
    (h : Counts ⟨r, c.offset + u.length, c.line + u.count '\n'⟩ c') : c.Counts c' := by
  obtain ⟨v, rfl, hv⟩ := h
  refine ⟨u ++ v, ?_, ?_⟩
  · rw [hr, List.append_assoc]
  · rw [hv, Place.past_append]
    rfl

theorem cons (h : Counts ⟨r, offset + 1, if a = '\n' then line + 1 else line⟩ c') :
    Counts ⟨a :: r, offset, line⟩ c' := by
  have hline : (if a = '\n' then line + 1 else line) = line + [a].count '\n' := by
    rw [List.count_singleton]
    by_cases ha : a = '\n' <;> simp [ha]
  rw [hline] at h
  exact .past [a] rfl h

theorem cons_of_ne (ha : a ≠ '\n') (h : Counts ⟨r, offset + 1, line⟩ c') :
    Counts ⟨a :: r, offset, line⟩ c' := by
  refine .cons ?_
  rwa [if_neg ha]

/-- A backslash and the character behind it. -/
theorem pair (ha : isLineEnd a = true → a = '\n')
    (h : Counts ⟨r, offset + 2, if isLineEnd a then line + 1 else line⟩ c') :
    Counts ⟨'\\' :: a :: r, offset, line⟩ c' := by
  refine .cons_of_ne (by decide) (.cons ?_)
  have hend : isLineEnd a = true ↔ a = '\n' := ⟨ha, by rintro rfl; decide⟩
  simpa only [hend] using h

end Cursor.Counts

open Cursor (Counts)

theorem FeedsOnly.of_not_mem (h : ∀ a ∈ ['\r', '\u2028', '\u2029'], a ∉ r) : FeedsOnly r := by
  intro a ha hend
  simp only [isLineEnd, Bool.or_eq_true, beq_iff_eq] at hend
  rcases hend with ((hn | hr) | hs) | hp
  · exact hn
  · exact absurd ha (h a (by simp [hr]))
  · exact absurd ha (h a (by simp [hs]))
  · exact absurd ha (h a (by simp [hp]))

theorem FeedsOnly.tail (h : FeedsOnly (a :: r)) : FeedsOnly r := fun b hb => h b (.tail _ hb)

theorem FeedsOnly.of_append {u : List Char} (h : FeedsOnly (u ++ r)) : FeedsOnly r :=
  fun b hb => h b (List.mem_append_right u hb)

theorem FeedsOnly.not_crlf (h : FeedsOnly ('\\' :: '\r' :: '\n' :: r)) : False :=
  absurd (h '\r' (by simp) (by decide)) (by decide)

theorem skipLine_counts (r : List Char) (offset line : Nat) :
    Counts ⟨r, offset, line⟩ (skipLine r offset line) := by
  induction r generalizing offset with
  | nil => exact .refl _
  | cons a r ih =>
    unfold skipLine
    split
    · exact .refl _
    · next ha => exact .cons_of_ne ha (ih (offset + 1))

theorem skipComment_counts (h : skipComment r offset line = some c) :
    Counts ⟨r, offset, line⟩ c := by
  fun_induction skipComment r offset line with
  | case1 => cases h
  | case2 r offset line => cases h; exact ⟨['*', '/'], rfl, rfl⟩
  | case3 a r offset line hne ih => exact .cons (ih h)

theorem readString_counts {quote : Char} (hplain : FeedsOnly r) (hquote : quote ≠ '\n')
    (h : readString quote r offset line taken = some (text, c)) : Counts ⟨r, offset, line⟩ c := by
  fun_induction readString quote r offset line taken with
  | case1 => cases h
  | case2 r offset line taken ih => exact hplain.not_crlf.elim
  | case3 a r offset line taken hne ih =>
    exact .pair (hplain a (by simp)) (ih hplain.tail.tail h)
  | case4 => cases h
  | case5 => cases h; exact .cons_of_ne hquote (.refl _)
  | case6 a r offset line taken hcr hesc hn hq ih => exact .cons_of_ne hn (ih hplain.tail h)

theorem readTemplate_counts {how : TemplateEnd} (hplain : FeedsOnly r)
    (h : readTemplate r offset line taken = some (text, how, c)) :
    Counts ⟨r, offset, line⟩ c := by
  fun_induction readTemplate r offset line taken with
  | case1 => cases h
  | case2 r offset line taken ih => exact hplain.not_crlf.elim
  | case3 a r offset line taken hne ih =>
    exact .pair (hplain a (by simp)) (ih hplain.tail.tail h)
  | case4 => cases h; exact ⟨['$', '\x7b'], rfl, rfl⟩
  | case5 => cases h; exact .cons_of_ne (by decide) (.refl _)
  | case6 a r offset line taken hcr hesc hd hq ih => exact .cons (ih hplain.tail h)

/-! ## Steps -/

namespace Lexer

variable {s t : State}

/-- The step counts the lines that it passes, but for those in a regular expression. -/
def Counted (s t : State) : Prop :=
  ∃ u, s.cursor.rest = u ++ t.cursor.rest ∧ t.cursor.offset = s.cursor.offset + u.length ∧
    t.cursor.line + s.regex?.toList.flatten.count '\n' = s.cursor.line + u.count '\n'

theorem Counted.of_counts (hnone : s.regex? = none) (h : s.cursor.Counts t.cursor) :
    Counted s t := by
  obtain ⟨u, hu, hplace⟩ := h
  obtain ⟨hoffset, hline⟩ := Place.mk.inj hplace
  refine ⟨u, hu, hoffset, ?_⟩
  rw [hnone]
  exact hline

theorem State.regex?_of_ne (hs : s.cursor.rest = a :: r) (ha : a ≠ '/') : s.regex? = none := by
  unfold regex?
  rw [hs]
  split
  · next heq => exact absurd (List.cons.inj heq).1 ha
  · rfl

theorem State.cursor_of_rest (hs : s.cursor.rest = r) :
    s.cursor = ⟨r, s.cursor.offset, s.cursor.line⟩ := by
  rw [← hs]

section

variable (hs : s.cursor.rest = a :: r)

include hs

theorem counts_cons (ha : a ≠ '\n') (h : Counts ⟨r, s.cursor.offset + 1, s.cursor.line⟩ c) :
    s.cursor.Counts c := by
  rw [State.cursor_of_rest hs]
  exact .cons_of_ne ha h

theorem quoted_counts {quote : Char} (ha : a ≠ '\n') (hquote : quote ≠ '\n') (hplain : FeedsOnly r)
    (h : quoted s quote r = .ok t) : s.cursor.Counts t.cursor := by
  unfold quoted at h
  split at h
  · next hread => cases h; exact counts_cons hs ha (readString_counts hplain hquote hread)
  · cases h

theorem template_counts {resumed : Bool} (ha : a ≠ '\n') (hplain : FeedsOnly r)
    (h : template s resumed r = .ok t) : s.cursor.Counts t.cursor := by
  unfold template at h
  split at h
  · next hread => cases h; exact counts_cons hs ha (readTemplate_counts hplain hread)
  · next hread => cases h; exact counts_cons hs ha (readTemplate_counts hplain hread)
  · cases h

theorem closeBrace_counts (ha : a ≠ '\n') (hplain : FeedsOnly r) (h : closeBrace s r = .ok t) :
    s.cursor.Counts t.cursor := by
  unfold closeBrace at h
  split at h
  · cases h; exact counts_cons hs ha (.refl _)
  · next outer _ => exact template_counts (s := { s with depths := outer }) hs ha hplain h
  · cases h; exact counts_cons hs ha (.refl _)

theorem run_counts {part : Char → Bool} (hpart : part '\n' = false) (ha : a ≠ '\n')
    (token : List Char → Token) : s.cursor.Counts (run s part token a r).cursor := by
  have hfeed : '\n' ∉ r.takeWhile part := by
    intro hmem
    rw [List.mem_takeWhile_imp hmem] at hpart
    cases hpart
  refine counts_cons hs ha ⟨r.takeWhile part, List.takeWhile_append_dropWhile.symm, ?_⟩
  rw [Place.past_of_not_mem _ hfeed]
  rfl

end

theorem State.regex?_of_comment (hs : s.cursor.rest = '/' :: r)
    (hr : r.head? = some '/' ∨ r.head? = some '*') : s.regex? = none := by
  unfold regex?
  rw [hs]
  exact if_pos hr

/-- A slash that divides opens no regular expression. -/
theorem State.regex?_of_divides (hs : s.cursor.rest = '/' :: r)
    (h : regexAllowed ((s.lexemes.take 3).map Lexeme.token) = true →
      skipRegex false r 1 = none) : s.regex? = none := by
  simp only [regex?, hs]
  split
  · rfl
  split
  · next hallowed => rw [h hallowed, Option.map_none]
  · rfl

theorem slash_counted (hs : s.cursor.rest = '/' :: r) (h : slash s r = .ok t) : Counted s t := by
  by_cases hl : ∃ r', r = '/' :: r'
  · obtain ⟨r', rfl⟩ := hl
    rw [slash_line] at h
    cases h
    refine .of_counts (State.regex?_of_comment hs (.inl rfl)) (counts_cons hs (by decide) ?_)
    exact .cons_of_ne (by decide) (skipLine_counts _ _ _)
  by_cases hb : ∃ r', r = '*' :: r'
  · obtain ⟨r', rfl⟩ := hb
    rw [slash_comment] at h
    split at h
    · next hskip =>
      cases h
      refine .of_counts (State.regex?_of_comment hs (.inr rfl)) (counts_cons hs (by decide) ?_)
      exact .cons_of_ne (by decide) (skipComment_counts hskip)
    · cases h
  have hafter : s.cursor.Counts (s.after r) := counts_cons hs (by decide) (.refl _)
  rw [slash_of_ne (fun r' hr => hl ⟨r', hr⟩) fun r' hr => hb ⟨r', hr⟩] at h
  split at h
  · next hallowed =>
    split at h
    · next rest width hskip =>
      -- the characters are counted here, and their lines are not
      cases h
      have hregex := s.regex?_of_skipRegex hs hl hb hallowed hskip
      obtain ⟨u, rfl, rfl⟩ := exists_skipRegex_append hskip
      have htake : ('/' :: (u ++ rest)).take (1 + u.length) = '/' :: u := by
        rw [Nat.add_comm, List.take_succ_cons, List.take_left]
      rw [htake] at hregex
      refine ⟨'/' :: u, hs, ?_, ?_⟩
      · show s.cursor.offset + (1 + u.length) = _
        rw [List.length_cons, Nat.add_comm 1]
      · show s.cursor.line + _ = _
        rw [hregex, Option.toList_some, List.flatten_singleton]
    · next hskip => cases h; exact .of_counts (State.regex?_of_divides hs fun _ => hskip) hafter
  · next hallowed =>
    cases h
    exact .of_counts (State.regex?_of_divides hs fun htrue => absurd htrue hallowed) hafter

theorem step_counted (hplain : FeedsOnly s.cursor.rest) (h : step s = .ok t) : Counted s t := by
  cases hs : s.cursor.rest with
  | nil =>
    rw [step_of_rest_nil hs] at h
    cases h
    refine .of_counts ?_ (.refl _)
    unfold State.regex?
    rw [hs]
  | cons a r =>
    rw [hs] at hplain
    by_cases hslash : a = '/'
    · subst hslash
      refine slash_counted hs ?_
      rw [← h]
      unfold step
      rw [hs]
      rfl
    refine .of_counts (State.regex?_of_ne hs hslash) ?_
    obtain ⟨f, hf, hstep⟩ := exists_reads a
    rw [hstep s r hs] at h
    cases hf with
    | feed =>
      cases h
      rw [State.cursor_of_rest hs]
      exact .cons (.refl _)
    | blank hc => cases h; exact counts_cons hs (fun hn => hc (hn ▸ by decide)) (.refl _)
    | slash => exact absurd rfl hslash
    | quote hc =>
      have hfeed : a ≠ '\n' := by rcases hc with rfl | rfl <;> decide
      exact quoted_counts hs hfeed hfeed hplain.tail h
    | template => exact template_counts hs (by decide) hplain.tail h
    | opening => cases h; exact counts_cons hs (by decide) (.refl _)
    | closing => exact closeBrace_counts hs (by decide) hplain.tail h
    | word hc => cases h; exact run_counts hs (by decide) (fun hn => hc (hn ▸ by decide)) _
    | number hc => cases h; exact run_counts hs (by decide) (fun hn => hc (hn ▸ by decide)) _
    | mark hc => cases h; exact counts_cons hs (fun hn => hc (hn ▸ by decide)) (.refl _)

/-! ## Runs -/

/-- The regular expressions that are skipped from a state on, before `n` characters of the text have
been read. -/
def regexesBefore (n : Nat) (s : State) : List (List Char) :=
  if _hr : s.cursor.rest = [] ∨ n ≤ s.cursor.offset then []
  else
    s.regex?.toList ++
      match _h : step s with
      | .error _ => []
      | .ok t => regexesBefore n t
termination_by s.cursor.rest.length
decreasing_by exact step_length_lt (not_or.1 _hr).1 _h

theorem regexesBefore_of_le {n : Nat} (h : n ≤ s.cursor.offset) : regexesBefore n s = [] := by
  rw [regexesBefore, dif_pos (.inr h)]

theorem regexesBefore_of_step {n : Nat} (hr : s.cursor.rest ≠ []) (hn : s.cursor.offset < n)
    (h : step s = .ok t) : regexesBefore n s = s.regex?.toList ++ regexesBefore n t := by
  have hne : ¬ (s.cursor.rest = [] ∨ n ≤ s.cursor.offset) := not_or.2 ⟨hr, Nat.not_le.2 hn⟩
  rw [regexesBefore.eq_1 n s, dif_neg hne]
  split <;> simp_all

theorem start_counts (text : List Char) :
    (Cursor.ofText text).Counts (State.start text).cursor := by
  unfold State.start
  split
  · exact .cons_of_ne (by decide) (.cons_of_ne (by decide) (skipLine_counts _ _ _))
  · exact .refl _

namespace Visits

/-- What lists the regular expressions that are skipped from a state on lists at the start those
before a visited state and then those from there on. -/
theorem eq_regexesBefore_append (h : Visits text s) {n : Nat} (hn : s.cursor.offset ≤ n)
    {g : State → List (List Char)} (hg : ∀ u v, u.cursor.rest ≠ [] → u.cursor.offset < n →
      Lexer.step u = .ok v → g u = u.regex?.toList ++ g v) :
    g (.start text) = regexesBefore s.cursor.offset (.start text) ++ g s := by
  induction h generalizing n g with
  | start =>
    rw [regexesBefore_of_le (Nat.le_refl _)]
    rfl
  | @step s t h hr hs ih =>
    have hlt := (step_steps hs).ahead.offset_lt (step_length_lt hr hs)
    have hle := Nat.le_of_lt hlt
    have hbefore := ih hle fun u v hr hu hs => regexesBefore_of_step hr hu hs
    rw [ih (Nat.le_trans hle hn) hg, hg s t hr (Nat.lt_of_lt_of_le hlt hn) hs, hbefore,
      regexesBefore_of_step hr hlt hs, regexesBefore_of_le (Nat.le_refl _), List.append_nil,
      List.append_assoc]

theorem regexesBefore_append (h : Visits text s) {n : Nat} (hn : s.cursor.offset ≤ n) :
    regexesBefore n (.start text) =
      regexesBefore s.cursor.offset (.start text) ++ regexesBefore n s :=
  h.eq_regexesBefore_append hn fun _ _ hr hu hs => regexesBefore_of_step hr hu hs

theorem regexes_eq_append (h : Visits text s) :
    regexes (.start text) = regexesBefore s.cursor.offset (.start text) ++ regexes s :=
  h.eq_regexesBefore_append (Nat.le_refl _) fun _ _ hr _ hs => regexes_of_step hr hs

/-- The line of the cursor is the number of line feeds before it, less those in the regular
expressions that have been skipped, counted from 1. -/
theorem cursor_line (hplain : FeedsOnly text) (h : Visits text s) :
    s.cursor.line + (regexesBefore s.cursor.offset (.start text)).flatten.count '\n' =
      1 + (text.take s.cursor.offset).count '\n' := by
  induction h with
  | start =>
    obtain ⟨u, hu, hplace⟩ := start_counts text
    obtain ⟨hoffset, hline⟩ := Place.mk.inj hplace
    have htake : text.take (State.start text).cursor.offset = u := by
      rw [hoffset, show text = u ++ _ from hu]
      exact List.take_left' (Nat.zero_add _).symm
    rw [regexesBefore_of_le (Nat.le_refl _), htake, hline]
    rfl
  | @step s t h hr hs ih =>
    have hlt := (step_steps hs).ahead.offset_lt (step_length_lt hr hs)
    rw [h.regexesBefore_append (Nat.le_of_lt hlt), regexesBefore_of_step hr hlt hs,
      regexesBefore_of_le (Nat.le_refl _), List.append_nil]
    obtain ⟨u, rfl, hoffset⟩ := h.exists_eq_append
    obtain ⟨v, hv, hoffset', hline⟩ := step_counted hplain.of_append hs
    have htake : (u ++ s.cursor.rest).take s.cursor.offset = u := List.take_left' hoffset.symm
    have htake' : (u ++ s.cursor.rest).take t.cursor.offset = u ++ v := by
      rw [hv, ← List.append_assoc]
      refine List.take_left' ?_
      rw [hoffset', hoffset, List.length_append]
    rw [htake] at ih
    rw [htake', List.flatten_append, List.count_append, List.count_append]
    omega

end Visits

end Lexer

open Lexer in
/--
Let no line of a text end in anything but a line feed. Then the line of a reference is 1 plus the
number of line feeds before the quote that opens its literal, less those in the regular expressions
that are skipped before this quote.
-/
theorem scan_counts_lines {text : String} {rs : List Reference}
    (hplain : ∀ a ∈ ['\r', '\u2028', '\u2029'], a ∉ text.toList) (h : scan text = .ok rs) :
    ∀ r ∈ rs, QuotedAt text.toList r.place.offset r.specifier.toList ∧
      r.place.line +
          (regexesBefore r.place.offset (.start text.toList)).flatten.count '\n' =
        1 + (text.toList.take r.place.offset).count '\n' := by
  intro r hr
  obtain ⟨s, hvisits, -, -, hliterals⟩ := exists_visits_of_scan h
  have hliteral : r.literal ∈ s.lexemes :=
    List.mem_reverse.1 (hliterals.subset (List.mem_map_of_mem hr))
  refine ⟨hvisits.quotedAt _ hliteral _ rfl, ?_⟩
  obtain ⟨t, ht, hplace⟩ := hvisits.exists_of_mem hliteral
  obtain ⟨hoffset, hline⟩ := Place.mk.inj (show r.place = t.cursor.place from hplace)
  rw [hoffset, hline]
  exact ht.cursor_line (.of_not_mem hplain)

open Lexer in
/-- A template and a comment over two lines are counted before the first reference, and a regular
expression over two lines is not counted before the second. -/
theorem scan_counts_lines_clauses :
    (∀ a ∈ ['\r', '\u2028', '\u2029'], a ∉ "`\n`/*\n*/;require('a')\nx=/\\\n/;import'b'".toList) ∧
      scan "`\n`/*\n*/;require('a')\nx=/\\\n/;import'b'" =
        .ok [⟨"a", .cjsRequire, ⟨17, 3⟩⟩, ⟨"b", .esmImport, ⟨35, 4⟩⟩] ∧
      regexesBefore 35 (.start "`\n`/*\n*/;require('a')\nx=/\\\n/;import'b'".toList) =
        ["/\\\n/".toList] ∧
      4 + (regexesBefore 35 (.start
          "`\n`/*\n*/;require('a')\nx=/\\\n/;import'b'".toList)).flatten.count '\n' =
        1 + ("`\n`/*\n*/;require('a')\nx=/\\\n/;import'b'".toList.take 35).count '\n' := by
  have hplain : ∀ a ∈ ['\r', '\u2028', '\u2029'],
      a ∉ "`\n`/*\n*/;require('a')\nx=/\\\n/;import'b'".toList := by simp
  have h : scan "`\n`/*\n*/;require('a')\nx=/\\\n/;import'b'" =
      .ok [⟨"a", .cjsRequire, ⟨17, 3⟩⟩, ⟨"b", .esmImport, ⟨35, 4⟩⟩] := by cbv
  have hcounts := scan_counts_lines hplain h
  exact ⟨hplain, h, by cbv, (hcounts ⟨"b", .esmImport, ⟨35, 4⟩⟩ (.tail _ List.mem_cons_self)).2⟩

/-- What divides an object here is a string over two lines. It is skipped as a regular expression,
and its line feed is not counted. -/
theorem scan_miscounts_divided :
    (∀ a ∈ ['\r', '\u2028', '\u2029'], a ∉ "x=\x7b\x7d/'a\\\nb'/1;require('./a')".toList) ∧
      scan "x=\x7b\x7d/'a\\\nb'/1;require('./a')" = .ok [⟨"./a", .cjsRequire, ⟨22, 1⟩⟩] ∧
      QuotedAt "x=\x7b\x7d/'a\\\nb'/1;require('./a')".toList 22 "./a".toList ∧
      1 + ("x=\x7b\x7d/'a\\\nb'/1;require('./a')".toList.take 22).count '\n' = 2 := by
  refine ⟨by simp, by cbv, ?_, by cbv⟩
  refine ⟨'\'', by decide, "x=\x7b\x7d/'a\\\nb'/1;require(".toList, [')'], rfl, rfl, ?_⟩
  exact .cons (by decide) (by decide) (.cons (by decide) (by decide)
    (.cons (by decide) (by decide) (.nil _)))

end PackageMap.Source
