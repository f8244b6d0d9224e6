import PackageMap.Proofs.Source.Recoded
import PackageMap.Proofs.Source.Returns
import PackageMap.Proofs.Source.Trivia

/-!
# Line ends

A text whose lines end in a line feed is read as the one whose lines end in a carriage return and a
line feed: the same references on the same lines, or the same construct left open on the same line
(`told_crlf`). A regular expression that a backslash takes over a line end is the exception, since
the backslash takes one character only.

1. A step of the one lexer is a step or two of the other (`finish_step_twin`), and so the runs keep
   together (`finish_twin`).
2. The tokens differ in the texts of literals and in their offsets, of which the references keep the
   former and lose the latter (`collect_twin`).
-/

namespace PackageMap.Source

open PackageMap.Text

/-! ## States -/

namespace Lexer

/-- The regular expression that the next step skips, with its slashes and flags. -/
def State.regex? (s : State) : Option (List Char) :=
  match s.cursor.rest with
  | '/' :: r =>
    if r.head? = some '/' ∨ r.head? = some '*' then none
    else if regexAllowed ((s.lexemes.take 3).map Lexeme.token) then
      (skipRegex false r 1).map fun (_, width) => s.cursor.rest.take width
    else none
  | _ => none

theorem State.regex?_of_skipRegex (s : State) {r rest : List Char} {width : Nat}
    (hs : s.cursor.rest = '/' :: r) (hl : ¬ ∃ r', r = '/' :: r') (hb : ¬ ∃ r', r = '*' :: r')
    (hallowed : regexAllowed ((s.lexemes.take 3).map Lexeme.token) = true)
    (hskip : skipRegex false r 1 = some (rest, width)) :
    s.regex? = some (('/' :: r).take width) := by
  have hhead : ¬ (r.head? = some '/' ∨ r.head? = some '*') := by
    rintro (hr | hr)
    · exact hl ⟨_, List.eq_cons_of_mem_head? hr⟩
    · exact hb ⟨_, List.eq_cons_of_mem_head? hr⟩
  simp only [regex?, hs, if_neg hhead, hallowed, if_true, hskip, Option.map_some]

/-- What is skipped is no longer than the regular expression. -/
theorem not_mem_of_regex {r rest : List Char} {width : Nat} {c : Char}
    (hskip : skipRegex false r 1 = some (rest, width)) (h : c ∉ ('/' :: r).take width)
    (u : List Char) (hu : r = u ++ rest) : c ∉ u := by
  obtain ⟨v, hv, rfl⟩ := exists_skipRegex_append hskip
  obtain rfl : u = v := List.append_cancel_right (hu.symm.trans hv)
  intro hmem
  refine h ?_
  rw [hu, Nat.add_comm, List.take_succ_cons, List.take_left]
  exact .tail _ hmem

/-- The regular expressions that are skipped from a state on, in order. -/
def regexes (s : State) : List (List Char) :=
  if _hr : s.cursor.rest = [] then []
  else
    s.regex?.toList ++
      match _h : step s with
      | .error _ => []
      | .ok s' => regexes s'
termination_by s.cursor.rest.length
decreasing_by exact step_length_lt _hr _h

theorem regexes_of_step {s t : State} (hr : s.cursor.rest ≠ []) (h : step s = .ok t) :
    regexes s = s.regex?.toList ++ regexes t := by
  rw [regexes.eq_1 s, dif_neg hr]
  split <;> simp_all

theorem mem_regexes {s : State} {regex : List Char} (hr : s.cursor.rest ≠ [])
    (h : regex ∈ s.regex?) : regex ∈ regexes s := by
  rw [regexes, dif_neg hr]
  exact List.mem_append_left _ (Option.mem_toList.2 h)

/-- The text of a literal with a carriage return in front of each line feed. -/
def crlfText (text : String) : String := String.ofList (crlf text.toList)

theorem crlfText_ofList (cs : List Char) :
    crlfText (String.ofList cs) = String.ofList (crlf cs) := by
  unfold crlfText
  rw [String.toList_ofList]

/-- A token on a line, wherever it opens there. -/
def onLine (x : Lexeme) : Lexeme := x.move fun p => ⟨0, p.line⟩

/-- Two readers of related texts: they stand at related cursors and have found the same tokens on
the same lines, but for the texts of literals. -/
structure Twin (s s' : State) : Prop where
  cursor : s.cursor.Twin s'.cursor
  depths : s'.depths = s.depths
  lexemes : s'.lexemes.map onLine = (s.lexemes.map onLine).map (Lexeme.recode crlfText)

variable {s s' t : State}

namespace Twin

theorem moveTo (h : Twin s s') {c c' : Cursor} (hc : c.Twin c') :
    Twin (s.moveTo c) (s'.moveTo c') :=
  ⟨hc, h.depths, h.lexemes⟩

theorem emit (h : Twin s s') (token : Token) {c c' : Cursor} (hc : c.Twin c') :
    Twin (s.emit token c) (s'.emit (token.recode crlfText) c') := by
  refine ⟨hc, h.depths, ?_⟩
  have hx : onLine ⟨token.recode crlfText, s'.cursor.place⟩ =
      (onLine ⟨token, s.cursor.place⟩).recode crlfText := by
    show Lexeme.mk _ ⟨0, s'.cursor.line⟩ = Lexeme.mk _ ⟨0, s.cursor.line⟩
    rw [h.cursor.line]
    rfl
  show onLine _ :: s'.lexemes.map onLine = _
  rw [hx, h.lexemes]
  rfl

theorem after (h : Twin s s') (r : List Char) : (s.after r).Twin (s'.after (crlf r)) :=
  ⟨.all r, h.cursor.line⟩

theorem withDepths (h : Twin s s') (depths : List Nat) :
    Twin { s with depths } { s' with depths } :=
  ⟨h.cursor, rfl, h.lexemes⟩

theorem regexAllowed (h : Twin s s') : regexAllowed ((s'.lexemes.take 3).map Lexeme.token) =
    regexAllowed ((s.lexemes.take 3).map Lexeme.token) := by
  have htokens : s'.lexemes.map Lexeme.token = (s.lexemes.map Lexeme.token).map
      (Token.recode crlfText) := by
    have htoken := congrArg (List.map Lexeme.token) h.lexemes
    rw [List.map_map, List.map_map, List.map_map] at htoken
    rw [List.map_map]
    exact htoken
  rw [List.map_take, List.map_take, htokens, ← List.map_take, regexAllowed_recode]

theorem rest_nil (h : Twin s s') (hs : s.cursor.rest = []) : s'.cursor.rest = [] := by
  have hrest := h.cursor.rest
  rw [hs] at hrest
  generalize s'.cursor.rest = rest' at hrest
  cases hrest
  rfl

theorem rest_cons (h : Twin s s') {c : Char} {r : List Char} (hs : s.cursor.rest = c :: r)
    (hn : c ≠ '\n') : s'.cursor.rest = c :: crlf r := by
  have hrest := h.cursor.rest
  rw [hs] at hrest
  generalize s'.cursor.rest = rest' at hrest
  cases hrest with
  | all => exact crlf_cons hn r
  | feed => exact absurd rfl hn

end Twin

/-! ## Steps -/

theorem step_feed {r : List Char} (hs : s.cursor.rest = '\n' :: r) :
    step s = .ok (s.moveTo ⟨r, s.cursor.offset + 1, s.cursor.line + 1⟩) := by
  unfold step
  rw [hs]
  rfl

/-- What becomes of two related readers: they stay related, or leave the same construct open on the
same line. -/
inductive Agree : Except Unterminated State → Except Unterminated State → Prop
  | ok {t t'} (h : Twin t t') : Agree (.ok t) (.ok t')
  | error {e e' : Unterminated} (hconstruct : e'.construct = e.construct)
    (hline : e'.place.line = e.place.line) : Agree (.error e) (.error e')

theorem slash_line (s : State) (r : List Char) : slash s ('/' :: r) =
    .ok (s.moveTo (skipLine r (s.cursor.offset + 2) s.cursor.line)) := rfl

theorem slash_comment (s : State) (r : List Char) : slash s ('*' :: r) =
    match skipComment r (s.cursor.offset + 2) s.cursor.line with
    | some cursor => .ok (s.moveTo cursor)
    | none => .error ⟨.blockComment, s.cursor.place⟩ := rfl

theorem Agree.here (h : Twin s s') (construct : Construct) :
    Agree (.error ⟨construct, s.cursor.place⟩) (.error ⟨construct, s'.cursor.place⟩) :=
  .error rfl h.cursor.line

section

variable (h : Twin s s') {r : List Char}

include h

theorem quoted_twin {quote : Char} (hq : quote ≠ '\r') (hr : '\r' ∉ r) :
    Agree (quoted s quote r) (quoted s' quote (crlf r)) := by
  have hread : Option.Rel StringTwin
      (readString quote r (s.cursor.offset + 1) s.cursor.line [])
      (readString quote (crlf r) (s'.cursor.offset + 1) s.cursor.line []) :=
    readString_twin _ _ _ hq hr []
  unfold quoted
  rw [h.cursor.line]
  revert hread
  generalize readString quote r _ _ [] = x
  generalize readString quote (crlf r) _ _ [] = x'
  rintro (@⟨⟨text, c⟩, ⟨text', c'⟩, htext, hcursor⟩ | _)
  · obtain rfl : text' = crlf text := htext
    have hemit := h.emit (.literal (String.ofList text)) hcursor
    rw [Token.recode, crlfText_ofList] at hemit
    exact .ok hemit
  · exact .here h _

theorem template_twin {resumed : Bool} (hr : '\r' ∉ r) :
    Agree (template s resumed r) (template s' resumed (crlf r)) := by
  have hread : Option.Rel TemplateTwin
      (readTemplate r (s.cursor.offset + 1) s.cursor.line [])
      (readTemplate (crlf r) (s'.cursor.offset + 1) s.cursor.line []) :=
    readTemplate_twin _ _ _ hr []
  unfold template
  rw [h.cursor.line, h.depths]
  revert hread
  generalize readTemplate r _ _ [] = x
  generalize readTemplate (crlf r) _ _ [] = x'
  rintro (@⟨⟨text, how, c⟩, ⟨text', how', c'⟩, htext, hhow, hcursor⟩ | _)
  · obtain rfl : how' = how := hhow
    obtain rfl : text' = crlf text := htext
    cases how' with
    | closed =>
      have hemit := h.emit (if resumed then .other else .literal (String.ofList text)) hcursor
      have htoken :
          (if resumed then Token.other else .literal (String.ofList text)).recode crlfText =
            if resumed then .other else .literal (String.ofList (crlf text)) := by
        cases resumed with
        | true => rfl
        | false => exact congrArg Token.literal (crlfText_ofList text)
      rw [htoken] at hemit
      exact .ok hemit
    | interpolation => exact .ok ((h.emit .other hcursor).withDepths _)
  · exact .here h _

theorem closeBrace_twin (hr : '\r' ∉ r) : Agree (closeBrace s r) (closeBrace s' (crlf r)) := by
  unfold closeBrace
  rw [h.depths]
  split
  · exact .ok (h.emit (.punct '\x7d') (h.after r))
  · exact template_twin (h.withDepths _) hr
  · exact .ok ((h.emit (.punct '\x7d') (h.after r)).withDepths _)

theorem openBrace_twin : Twin (openBrace s r) (openBrace s' (crlf r)) := by
  unfold openBrace
  rw [h.depths]
  exact (h.emit (.punct '\x7b') (h.after r)).withDepths _

theorem run_twin {part : Char → Bool} (hn : part '\n' = false) (hr : part '\r' = false)
    {token : List Char → Token} (htoken : ∀ cs, (token cs).recode crlfText = token cs) (c : Char) :
    Twin (run s part token c r) (run s' part token c (crlf r)) := by
  have hemit := h.emit (token (c :: r.takeWhile part))
    (twin_mk (s.cursor.offset + 1 + (r.takeWhile part).length)
      (s'.cursor.offset + 1 + (r.takeWhile part).length) s.cursor.line (r.dropWhile part))
  rw [htoken] at hemit
  simp only [run, h.cursor.line, takeWhile_crlf hn hr, dropWhile_crlf hn hr]
  exact hemit

theorem slash_twin (hr : '\r' ∉ r) (hs : s.cursor.rest = '/' :: r)
    (hline : ∀ regex ∈ s.regex?, '\n' ∉ regex) : Agree (slash s r) (slash s' (crlf r)) := by
  have hafter := twin_mk (s.cursor.offset + 1) (s'.cursor.offset + 1) s.cursor.line r
  by_cases hl : ∃ r', r = '/' :: r'
  · obtain ⟨r, rfl⟩ := hl
    have hcursor := skipLine_twin (s.cursor.offset + 2) (s'.cursor.offset + 2) s.cursor.line r
    rw [crlf_cons (by decide), slash_line, slash_line, h.cursor.line]
    exact .ok (h.moveTo hcursor)
  by_cases hb : ∃ r', r = '*' :: r'
  · obtain ⟨r, rfl⟩ := hb
    have hread := skipComment_twin (s.cursor.offset + 2) (s'.cursor.offset + 2) s.cursor.line r
    rw [crlf_cons (by decide), slash_comment, slash_comment, h.cursor.line]
    revert hread
    generalize skipComment r _ _ = x
    generalize skipComment (crlf r) _ _ = x'
    rintro (hcursor | _)
    · exact .ok (h.moveTo hcursor)
    · exact .here h _
  · have hl' (r' : List Char) (hr' : crlf r = '/' :: r') : False := by
      obtain ⟨r'', hr'', -⟩ := exists_of_crlf_eq_cons (by decide) hr'
      exact hl ⟨r'', hr''⟩
    have hb' (r' : List Char) (hr' : crlf r = '*' :: r') : False := by
      obtain ⟨r'', hr'', -⟩ := exists_of_crlf_eq_cons (by decide) hr'
      exact hb ⟨r'', hr''⟩
    rw [slash_of_ne (fun r' hr' => hl ⟨r', hr'⟩) fun r' hr' => hb ⟨r', hr'⟩, slash_of_ne hl' hb',
      h.regexAllowed, h.cursor.line]
    split
    · next hallowed =>
      cases hskip : skipRegex false r 1 with
      | none =>
        rw [skipRegex_crlf_none hskip]
        exact .ok (h.emit (.punct '/') hafter)
      | some x =>
        obtain ⟨rest, width⟩ := x
        have hregex := s.regex?_of_skipRegex hs hl hb hallowed hskip
        rw [skipRegex_crlf hskip (not_mem_of_regex hskip (hline _ hregex))]
        exact .ok (h.emit .other (twin_mk _ _ _ rest))
    · exact .ok (h.emit (.punct '/') hafter)

/-- A step on anything but a line end is the same step. -/
theorem step_twin {c : Char} (hs : s.cursor.rest = c :: r) (hn : c ≠ '\n') (hr : '\r' ∉ r)
    (hline : ∀ regex ∈ s.regex?, '\n' ∉ regex) : Agree (step s) (step s') := by
  obtain ⟨f, hf, hstep⟩ := exists_reads c
  rw [hstep s r hs, hstep s' (crlf r) (h.rest_cons hs hn)]
  cases hf with
  | feed => exact absurd rfl hn
  | blank => exact .ok (h.moveTo (h.after r))
  | slash => exact slash_twin h hr hs hline
  | quote hc => exact quoted_twin h (by rcases hc with rfl | rfl <;> decide) hr
  | template => exact template_twin h hr
  | opening => exact .ok (openBrace_twin h)
  | closing => exact closeBrace_twin h hr
  | word => exact .ok (run_twin h (by decide) (by decide) (fun _ => rfl) c)
  | number => exact .ok (run_twin h (by decide) (by decide) (fun _ => rfl) c)
  | mark => exact .ok (h.emit (.punct c) (h.after r))

/-- A line end takes the one reader a step, and the other a step or two. -/
theorem exists_finish_feed (hs : s.cursor.rest = '\n' :: r) :
    ∃ t', finish s' = finish t' ∧
      Twin (s.moveTo ⟨r, s.cursor.offset + 1, s.cursor.line + 1⟩) t' := by
  have htwin (o' : Nat) : Cursor.Twin ⟨r, s.cursor.offset + 1, s.cursor.line + 1⟩
      ⟨crlf r, o', s'.cursor.line + 1⟩ := h.cursor.line ▸ twin_mk _ o' _ r
  have hrest := h.cursor.rest
  rw [hs] at hrest
  generalize hs' : s'.cursor.rest = rest' at hrest
  cases hrest with
  | all =>
    have hreturn : step s' =
        .ok (s'.moveTo ⟨'\n' :: crlf r, s'.cursor.offset + 1, s'.cursor.line⟩) := by
      unfold step
      rw [hs', crlf_feed]
      rfl
    refine ⟨_, ?_, h.moveTo (htwin (s'.cursor.offset + 1 + 1))⟩
    rw [finish_of_step (by simp [hs', crlf_feed]) hreturn,
      finish_of_step (List.cons_ne_nil _ _) (step_feed rfl)]
    rfl
  | feed => exact ⟨_, finish_of_step (by simp [hs']) (step_feed hs'), h.moveTo (htwin _)⟩

/-- After one step of the one reader the other has come as far, or both have failed alike. -/
theorem finish_step_twin (hne : s.cursor.rest ≠ []) (hr : '\r' ∉ s.cursor.rest)
    (hline : ∀ regex ∈ s.regex?, '\n' ∉ regex) :
    (∃ e e', step s = .error e ∧ finish s' = .error e' ∧ Agree (.error e) (.error e')) ∨
      ∃ t t', step s = .ok t ∧ finish s' = finish t' ∧ Twin t t' := by
  obtain ⟨c, r, hs⟩ := List.exists_cons_of_ne_nil hne
  by_cases hn : c = '\n'
  · subst hn
    obtain ⟨t', hfinish, ht⟩ := exists_finish_feed h hs
    exact .inr ⟨_, t', step_feed hs, hfinish, ht⟩
  · have hne' : s'.cursor.rest ≠ [] := by
      rw [h.rest_cons hs hn]
      exact List.cons_ne_nil _ _
    rw [hs] at hr
    have hstep := step_twin h hs hn (fun hmem => hr (.tail _ hmem)) hline
    generalize hx : step s = x at hstep
    generalize hx' : step s' = x' at hstep
    cases hstep with
    | @ok t t' ht => exact .inr ⟨t, t', rfl, finish_of_step hne' hx', ht⟩
    | @error e e' hconstruct hplace =>
      exact .inl ⟨e, e', rfl, finish_of_error hne' hx', .error hconstruct hplace⟩

end

/-- Readers that are related stay so to the end. -/
theorem finish_twin (h : Twin s s') (hr : '\r' ∉ s.cursor.rest)
    (hline : ∀ regex ∈ regexes s, '\n' ∉ regex) : Agree (finish s) (finish s') := by
  fun_induction finish s generalizing s' with
  | case1 s hnil =>
    rw [finish_of_rest_nil (h.rest_nil hnil)]
    exact .ok h
  | case2 s hne e he =>
    obtain ⟨e₁, e', he₁, hfinish, hagree⟩ | ⟨t, t', ht, -, -⟩ :=
      finish_step_twin h hne hr fun _ hmem => hline _ (mem_regexes hne hmem)
    · cases he.symm.trans he₁
      rw [hfinish]
      exact hagree
    · cases he.symm.trans ht
  | case3 s hne t ht ih =>
    obtain ⟨e, e', he, -, -⟩ | ⟨t₁, t', ht₁, hfinish, htwin⟩ :=
      finish_step_twin h hne hr fun _ hmem => hline _ (mem_regexes hne hmem)
    · cases ht.symm.trans he
    · cases ht.symm.trans ht₁
      rw [hfinish]
      obtain ⟨u, hu, -⟩ := (step_steps ht).ahead
      refine ih htwin (fun hmem => hr ?_) fun _ hmem => hline _ ?_
      · rw [hu]
        exact List.mem_append_right _ hmem
      · rw [regexes_of_step hne ht]
        exact List.mem_append_right _ hmem

theorem start_twin (text : List Char) : Twin (.start text) (.start (crlf text)) := by
  by_cases h : ∃ r, text = '#' :: '!' :: r
  · obtain ⟨r, rfl⟩ := h
    rw [crlf_cons (by decide), crlf_cons (by decide)]
    exact ⟨skipLine_twin 2 2 1 r, rfl, rfl⟩
  · have h' (r' : List Char) (hr' : crlf text = '#' :: '!' :: r') : False := by
      obtain ⟨r₁, rfl, hr₁⟩ := exists_of_crlf_eq_cons (by decide) hr'
      obtain ⟨r₂, rfl, -⟩ := exists_of_crlf_eq_cons (by decide) hr₁.symm
      exact h ⟨r₂, rfl⟩
    rw [start_of_ne fun r hr => h ⟨r, hr⟩, start_of_ne h']
    exact ⟨twin_mk 0 0 1 text, rfl, rfl⟩

end Lexer

/-! ## Texts -/

open Lexer

theorem crlfText_injective : crlfText.Injective := by
  intro a b h
  have hlist := congrArg String.toList h
  unfold crlfText at hlist
  rw [String.toList_ofList, String.toList_ofList] at hlist
  exact String.toList_inj.1 (lf_crlf.injective hlist)

/-- What is told of a reference: its place on the line is not. -/
def Reference.told (r : Reference) : ReferenceKind × String × Nat :=
  (r.kind, r.specifier, r.place.line)

/-- What is told of a text: its references and their lines, or what is left open and where. -/
def told (text : String) : Except (Construct × Nat) (List (ReferenceKind × String × Nat)) :=
  match scan text with
  | .ok rs => .ok (rs.map Reference.told)
  | .error e => .error (e.construct, e.place.line)

/-- The references of related readers are told alike. -/
theorem collect_twin {t t' : State} (h : Twin t t') :
    (collect none [] t'.lexemes.reverse).map Reference.told =
      (collect none [] t.lexemes.reverse).map fun r => (r.recode crlfText).told := by
  have hline : (collect none [] t'.lexemes.reverse).map (Reference.move fun p => ⟨0, p.line⟩) =
      ((collect none [] t.lexemes.reverse).map (Reference.move fun p => ⟨0, p.line⟩)).map
        (Reference.recode crlfText) := by
    have hlexemes : t'.lexemes.reverse.map onLine =
        (t.lexemes.reverse.map onLine).map (Lexeme.recode crlfText) := by
      rw [List.map_reverse, h.lexemes, List.map_reverse, List.map_reverse]
    have hcollect := collect_recode crlfText_injective rfl none [] (t.lexemes.reverse.map onLine)
    rw [← collect_move, ← collect_move]
    exact (congrArg (collect none []) hlexemes).trans hcollect
  have htold := congrArg (List.map Reference.told) hline
  rw [List.map_map, List.map_map, List.map_map] at htold
  exact htold

/-- Line ends do not show in what is told of a text, but in the specifiers that go over lines. -/
theorem told_crlf {text : String} (hr : '\r' ∉ text.toList)
    (hline : ∀ regex ∈ regexes (.start text.toList), '\n' ∉ regex) :
    told (crlfText text) = (told text).map fun rs =>
      rs.map fun (kind, specifier, line) => (kind, crlfText specifier, line) := by
  obtain ⟨u, hu, -⟩ := start_ahead text.toList
  have hu : text.toList = u ++ (State.start text.toList).cursor.rest := hu
  have hrest (hmem : '\r' ∈ (State.start text.toList).cursor.rest) : False :=
    hr (hu ▸ List.mem_append_right u hmem)
  have hagree := finish_twin (start_twin text.toList) hrest hline
  have htext : (crlfText text).toList = crlf text.toList := String.toList_ofList
  unfold told scan lexemes
  rw [htext]
  generalize finish (.start text.toList) = x at hagree ⊢
  generalize finish (.start (crlf text.toList)) = x' at hagree ⊢
  cases hagree with
  | @ok t t' h =>
    have hcollect := congrArg List.reverse (collect_twin h)
    show Except.ok ((collect none [] t'.lexemes.reverse).reverse.map Reference.told) =
      .ok (((collect none [] t.lexemes.reverse).reverse.map Reference.told).map _)
    rw [List.map_reverse, hcollect, List.map_reverse, List.map_reverse, List.map_map]
    rfl
  | @error e e' hconstruct hplace =>
    show Except.error (e'.construct, e'.place.line) = .error (e.construct, e.place.line)
    rw [hconstruct, hplace]

/-- A specifier over two lines after a regular expression, and a call on the third line. -/
theorem told_crlf_import :
    '\r' ∉ "/[/]/g;import'x\\\ny'//z\nrequire('w')".toList ∧
      (∀ regex ∈ regexes (.start "/[/]/g;import'x\\\ny'//z\nrequire('w')".toList), '\n' ∉ regex) ∧
      regexes (.start "/[/]/g;import'x\\\ny'//z\nrequire('w')".toList) = ["/[/]/g".toList] ∧
      told (crlfText "/[/]/g;import'x\\\ny'//z\nrequire('w')") =
        .ok [(.esmImport, "x\\\r\ny", 1), (.cjsRequire, "w", 3)] := by
  have hreturn : '\r' ∉ "/[/]/g;import'x\\\ny'//z\nrequire('w')".toList := by decide
  have hregexes : regexes (.start "/[/]/g;import'x\\\ny'//z\nrequire('w')".toList) =
      ["/[/]/g".toList] := by cbv
  have hline : ∀ regex ∈ regexes (.start "/[/]/g;import'x\\\ny'//z\nrequire('w')".toList),
      '\n' ∉ regex := by
    rw [hregexes]
    decide
  have htold : told "/[/]/g;import'x\\\ny'//z\nrequire('w')" =
      .ok [(.esmImport, "x\\\ny", 1), (.cjsRequire, "w", 3)] := by cbv
  refine ⟨hreturn, hline, hregexes, ?_⟩
  rw [told_crlf hreturn hline, htold]
  decide

example : told "/\\\n'/" = .ok [] ∧ told (crlfText "/\\\n'/") = .error (.stringLiteral, 2) :=
  ⟨by cbv, by cbv⟩

end PackageMap.Source
