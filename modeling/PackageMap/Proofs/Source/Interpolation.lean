import PackageMap.Proofs.Source.LineEnds

/-!
# Code inside an interpolation

The same text is read at the start of a script and inside an interpolation that nothing stands in
yet. The second reader has one token more behind it, the piece of template text, and one number more
at the bottom of its depths: the braces that are open outside of all interpolations of the text
(`State.inside`). The two keep together as long as no brace is closed that has not been opened
(`step_inside`, `finish_inside`), but for a slash in front of all tokens: that opens a regular
expression at the start of a script only.
-/

namespace PackageMap.Source

/-! ## Braces -/

def bracesOpened (ts : List Token) : Nat := ts.count (.punct '\x7b')

def bracesClosed (ts : List Token) : Nat := ts.count (.punct '\x7d')

/-- Every brace that is closed has been opened before, and every one that is opened is closed. -/
structure Balanced (ts : List Token) : Prop where
  closed_eq : bracesClosed ts = bracesOpened ts
  closed_le : ∀ us, us <+: ts → bracesClosed us ≤ bracesOpened us

def Token.isBrace (t : Token) : Bool := t == .punct '\x7b' || t == .punct '\x7d'

theorem bracesOpened_cons {t : Token} (h : t.isBrace = false) (ts : List Token) :
    bracesOpened (t :: ts) = bracesOpened ts := by
  obtain ⟨hopen, -⟩ := Bool.or_eq_false_iff.1 h
  exact List.count_cons_of_ne (by simpa using hopen)

theorem bracesClosed_cons {t : Token} (h : t.isBrace = false) (ts : List Token) :
    bracesClosed (t :: ts) = bracesClosed ts := by
  obtain ⟨-, hclose⟩ := Bool.or_eq_false_iff.1 h
  exact List.count_cons_of_ne (by simpa using hclose)

theorem bracesOpened_open (ts : List Token) :
    bracesOpened (.punct '\x7b' :: ts) = bracesOpened ts + 1 := List.count_cons_self

theorem bracesClosed_open (ts : List Token) :
    bracesClosed (.punct '\x7b' :: ts) = bracesClosed ts := List.count_cons_of_ne (by decide)

theorem bracesOpened_close (ts : List Token) :
    bracesOpened (.punct '\x7d' :: ts) = bracesOpened ts := List.count_cons_of_ne (by decide)

theorem bracesClosed_close (ts : List Token) :
    bracesClosed (.punct '\x7d' :: ts) = bracesClosed ts + 1 := List.count_cons_self

theorem Balanced.closed_le_of_suffix {ts us : List Token} (h : Balanced ts.reverse)
    (hus : us <:+ ts) : bracesClosed us ≤ bracesOpened us := by
  have hle := h.closed_le us.reverse (List.reverse_prefix.2 hus)
  unfold bracesClosed bracesOpened at hle ⊢
  rwa [List.count_reverse, List.count_reverse] at hle

/-- The token is a regular expression, of which `other` tokens only those begin with a slash. -/
def Lexeme.IsRegex (text : List Char) (x : Lexeme) : Prop :=
  x.token = .other ∧ text[x.place.offset]? = some '/'

instance (text : List Char) (x : Lexeme) : Decidable (x.IsRegex text) :=
  inferInstanceAs (Decidable (_ ∧ _))

namespace Lexer

/-! ## The two readers -/

/-- The reader of the same text inside an interpolation: the piece of template text before it opens
at `p`, and `n` of the braces in it are open outside of interpolations. -/
def State.inside (p : Place) (n : Nat) (s : State) : State :=
  { s with lexemes := s.lexemes ++ [⟨.other, p⟩], depths := s.depths ++ [n] }

theorem State.cursor_inside (p : Place) (n : Nat) (s : State) : (s.inside p n).cursor = s.cursor :=
  rfl

/-- The braces that are open are those inside of interpolations, which the depths count, and `n`
others. -/
def State.Outside (n : Nat) (s : State) : Prop :=
  bracesOpened s.tokens = bracesClosed s.tokens + s.depths.sum + n

variable {s t : State} {n : Nat} {r : List Char}

theorem State.Outside.emit (h : s.Outside n) {token : Token} (ht : token.isBrace = false)
    (c : Cursor) : (s.emit token c).Outside n := by
  show bracesOpened (token :: s.tokens) = bracesClosed (token :: s.tokens) + s.depths.sum + n
  rw [bracesOpened_cons ht, bracesClosed_cons ht]
  exact h

/-- Only in front of all tokens does the piece of template text decide about a slash. -/
theorem regexAllowed_inside (p : Place) (h : s.lexemes ≠ []) :
    regexAllowed (((s.inside p n).lexemes.take 3).map Lexeme.token) =
      regexAllowed ((s.lexemes.take 3).map Lexeme.token) := by
  obtain ⟨cursor, lexemes, depths⟩ := s
  match lexemes, h with
  | [x], _ => exact regexAllowed_congr x.token fun op _ => rfl
  | [x, y], _ =>
    refine regexAllowed_congr x.token fun op _ => ?_
    show updatesOperand op [y.token, .other] = updatesOperand op [y.token]
    cases y.token with
    | punct c => exact Bool.and_false _
    | _ => rfl
  | _ :: _ :: _ :: _, _ => rfl

/-! ## Steps -/

variable (p : Place)

theorem slash_inside (hs : s.cursor.rest = '/' :: r) (hfirst : s.lexemes = [] → s.regex? = none)
    (hn : s.Outside n) (h : slash s r = .ok t) :
    t.Outside n ∧ slash (s.inside p n) r = .ok (t.inside p n) := by
  by_cases hl : ∃ r', r = '/' :: r'
  · obtain ⟨r, rfl⟩ := hl
    rw [slash_line] at h ⊢
    cases h
    exact ⟨hn, rfl⟩
  by_cases hb : ∃ r', r = '*' :: r'
  · obtain ⟨r, rfl⟩ := hb
    rw [slash_comment] at h ⊢
    rw [s.cursor_inside]
    cases hc : skipComment r (s.cursor.offset + 2) s.cursor.line with
    | none => rw [hc] at h; cases h
    | some c =>
      rw [hc] at h
      cases h
      exact ⟨hn, rfl⟩
  have hl' (r' : List Char) (hr' : r = '/' :: r') : False := hl ⟨r', hr'⟩
  have hb' (r' : List Char) (hr' : r = '*' :: r') : False := hb ⟨r', hr'⟩
  rw [slash_of_ne hl' hb'] at h ⊢
  by_cases hnil : s.lexemes = []
  · -- no regular expression is here, so the slash is a token for itself on both sides
    have hallowed : regexAllowed ((s.lexemes.take 3).map Lexeme.token) = true := by rw [hnil]; rfl
    have hnot : regexAllowed (((s.inside p n).lexemes.take 3).map Lexeme.token) = false := by
      simp only [State.inside, hnil]
      rfl
    rw [if_pos hallowed] at h
    rw [if_neg (by rw [hnot]; exact Bool.false_ne_true)]
    split at h
    · next hskip =>
      have hregex := s.regex?_of_skipRegex hs hl hb hallowed hskip
      cases hregex.symm.trans (hfirst hnil)
    · cases h
      exact ⟨hn.emit rfl _, rfl⟩
  · rw [regexAllowed_inside p hnil]
    split at h
    · next hallowed =>
      rw [if_pos hallowed]
      split at h
      · cases h; exact ⟨hn.emit rfl _, rfl⟩
      · cases h; exact ⟨hn.emit rfl _, rfl⟩
    · next hallowed =>
      cases h
      rw [if_neg hallowed]
      exact ⟨hn.emit rfl _, rfl⟩

theorem quoted_inside {quote : Char} (hn : s.Outside n) (h : quoted s quote r = .ok t) :
    t.Outside n ∧ quoted (s.inside p n) quote r = .ok (t.inside p n) := by
  unfold quoted at h ⊢
  rw [s.cursor_inside]
  cases hr : readString quote r (s.cursor.offset + 1) s.cursor.line [] with
  | none => rw [hr] at h; cases h
  | some x =>
    rw [hr] at h
    cases h
    exact ⟨hn.emit rfl _, rfl⟩

theorem template_inside {resumed : Bool} (hn : s.Outside n) (h : template s resumed r = .ok t) :
    t.Outside n ∧ template (s.inside p n) resumed r = .ok (t.inside p n) := by
  unfold template at h ⊢
  rw [s.cursor_inside]
  cases hr : readTemplate r (s.cursor.offset + 1) s.cursor.line [] with
  | none => rw [hr] at h; cases h
  | some x =>
    obtain ⟨text, how, cursor⟩ := x
    rw [hr] at h
    cases how with
    | closed =>
      cases h
      exact ⟨hn.emit (by cases resumed <;> rfl) _, rfl⟩
    | interpolation =>
      cases h
      have hemit : (s.emit .other cursor).Outside n := hn.emit rfl _
      refine ⟨?_, rfl⟩
      show bracesOpened _ = bracesClosed _ + (0 + s.depths.sum) + n
      rw [Nat.zero_add]
      exact hemit

theorem openBrace_inside (hn : s.Outside n) (r : List Char) :
    ∃ m, (openBrace s r).Outside m ∧ openBrace (s.inside p n) r = (openBrace s r).inside p m := by
  obtain ⟨cursor, lexemes, depths⟩ := s
  have hopened := bracesOpened_open (lexemes.map Lexeme.token)
  have hclosed := bracesClosed_open (lexemes.map Lexeme.token)
  have hn : bracesOpened (lexemes.map Lexeme.token) =
    bracesClosed (lexemes.map Lexeme.token) + depths.sum + n := hn
  cases depths with
  | nil =>
    refine ⟨n + 1, ?_, rfl⟩
    show bracesOpened (.punct '\x7b' :: lexemes.map Lexeme.token) =
      bracesClosed (.punct '\x7b' :: lexemes.map Lexeme.token) + List.sum [] + (n + 1)
    omega
  | cons d outer =>
    refine ⟨n, ?_, rfl⟩
    rw [List.sum_cons] at hn
    show bracesOpened (.punct '\x7b' :: lexemes.map Lexeme.token) =
      bracesClosed (.punct '\x7b' :: lexemes.map Lexeme.token) + (d + 1 + outer.sum) + n
    omega

/-- A closing brace that stands in no interpolation closes one that has been opened there. -/
theorem closeBrace_inside (hn : s.Outside n) (h : closeBrace s r = .ok t)
    (hle : bracesClosed t.tokens ≤ bracesOpened t.tokens) :
    ∃ m, t.Outside m ∧ closeBrace (s.inside p n) r = .ok (t.inside p m) := by
  obtain ⟨cursor, lexemes, depths⟩ := s
  have hopened := bracesOpened_close (lexemes.map Lexeme.token)
  have hclosed := bracesClosed_close (lexemes.map Lexeme.token)
  have hn : bracesOpened (lexemes.map Lexeme.token) =
    bracesClosed (lexemes.map Lexeme.token) + depths.sum + n := hn
  match depths with
  | [] =>
    cases h
    have hle : bracesClosed (.punct '\x7d' :: lexemes.map Lexeme.token) ≤
      bracesOpened (.punct '\x7d' :: lexemes.map Lexeme.token) := hle
    rw [List.sum_nil] at hn
    obtain ⟨m, rfl⟩ : ∃ m, n = m + 1 := ⟨n - 1, by omega⟩
    refine ⟨m, ?_, rfl⟩
    show bracesOpened (.punct '\x7d' :: lexemes.map Lexeme.token) =
      bracesClosed (.punct '\x7d' :: lexemes.map Lexeme.token) + 0 + m
    omega
  | 0 :: outer =>
    rw [List.sum_cons, Nat.zero_add] at hn
    exact ⟨n, template_inside (s := ⟨cursor, lexemes, outer⟩) p hn h⟩
  | (d + 1) :: outer =>
    cases h
    refine ⟨n, ?_, rfl⟩
    rw [List.sum_cons] at hn
    show bracesOpened (.punct '\x7d' :: lexemes.map Lexeme.token) =
      bracesClosed (.punct '\x7d' :: lexemes.map Lexeme.token) + (d + outer.sum) + n
    omega

theorem isBrace_punct {c : Char} (hc : c ∉ special) : (Token.punct c).isBrace = false := by
  have hopen : c ≠ '\x7b' := fun h => hc (h ▸ by decide)
  have hclose : c ≠ '\x7d' := fun h => hc (h ▸ by decide)
  simp [Token.isBrace, hopen, hclose]

/-- A step inside the interpolation is the step at the start of a script. -/
theorem step_inside (hfirst : s.lexemes = [] → s.regex? = none) (hn : s.Outside n)
    (h : step s = .ok t) (hle : bracesClosed t.tokens ≤ bracesOpened t.tokens) :
    ∃ m, t.Outside m ∧ step (s.inside p n) = .ok (t.inside p m) := by
  have hs' := congrArg Cursor.rest (s.cursor_inside p n)
  cases hs : s.cursor.rest with
  | nil =>
    rw [step_of_rest_nil hs] at h
    cases h
    exact ⟨n, hn, step_of_rest_nil (hs'.trans hs)⟩
  | cons c r =>
    obtain ⟨f, hf, hstep⟩ := exists_reads c
    rw [hstep s r hs] at h
    rw [hstep (s.inside p n) r (hs'.trans hs)]
    cases hf with
    | feed => cases h; exact ⟨n, hn, rfl⟩
    | blank => cases h; exact ⟨n, hn, rfl⟩
    | slash => exact ⟨n, slash_inside p hs hfirst hn h⟩
    | quote => exact ⟨n, quoted_inside p hn h⟩
    | template => exact ⟨n, template_inside p hn h⟩
    | opening =>
      cases h
      obtain ⟨m, hm, hinside⟩ := openBrace_inside p hn r
      exact ⟨m, hm, congrArg Except.ok hinside⟩
    | closing => exact closeBrace_inside p hn h hle
    | word => cases h; exact ⟨n, hn.emit rfl _, rfl⟩
    | number => cases h; exact ⟨n, hn.emit rfl _, rfl⟩
    | mark hc => cases h; exact ⟨n, hn.emit (isBrace_punct hc) _, rfl⟩

/-! ## Runs -/

/-- A regular expression is one token, which opens with a slash. -/
theorem step_of_regex {regex : List Char} (h : s.regex? = some regex) :
    ∃ r c, s.cursor.rest = '/' :: r ∧ step s = .ok (s.emit .other c) := by
  unfold State.regex? at h
  split at h
  · next r hs =>
    split at h
    · cases h
    next hhead =>
    split at h
    · next hallowed =>
      obtain ⟨⟨rest, width⟩, hskip, -⟩ := Option.map_eq_some_iff.1 h
      refine ⟨r, ⟨rest, s.cursor.offset + width, s.cursor.line⟩, hs, ?_⟩
      have hslash : step s = slash s r := by
        unfold step
        rw [hs]
        rfl
      rw [hslash, slash_of_ne, if_pos hallowed, hskip]
      · rintro r' rfl
        exact hhead (.inl rfl)
      · rintro r' rfl
        exact hhead (.inr rfl)
    · cases h
  · cases h

theorem Visits.getElem?_offset {text : List Char} (h : Visits text s) :
    text[s.cursor.offset]? = s.cursor.rest.head? := by
  obtain ⟨u, hu, hlen⟩ := h.ahead
  have htext : text = u ++ s.cursor.rest := hu
  have hoffset : s.cursor.offset = u.length := hlen.trans (Nat.zero_add _)
  rw [hoffset, List.head?_eq_getElem?, htext, List.getElem?_append_right (Nat.le_refl _),
    Nat.sub_self]

/-- If the first token of the run is no regular expression then none comes before all tokens. -/
theorem regex?_eq_none_of_visits {text : List Char} (h : Visits text s) (hs : step s = .ok t)
    {u : State} (hu : finish t = .ok u) (hfirst : ∀ x ∈ u.lexemes.getLast?, ¬ x.IsRegex text)
    (hnil : s.lexemes = []) : s.regex? = none := by
  by_contra hne
  obtain ⟨regex, hregex⟩ := Option.ne_none_iff_exists'.1 hne
  obtain ⟨r, c, hrest, hstep⟩ := step_of_regex hregex
  obtain rfl := Except.ok.inj (hstep.symm.trans hs)
  obtain ⟨-, new, hnew, -⟩ := finish_moves hu
  have hlast : u.lexemes.getLast? = some ⟨.other, s.cursor.place⟩ := by
    rw [hnew]
    show (new ++ ⟨.other, s.cursor.place⟩ :: s.lexemes).getLast? = _
    rw [hnil, List.getLast?_concat]
  refine hfirst _ hlast ⟨rfl, ?_⟩
  show text[s.cursor.offset]? = some '/'
  rw [h.getElem?_offset, hrest]
  rfl

/-- Behind a text whose braces are balanced none is open outside of interpolations. -/
theorem outside_eq_zero {m : Nat} (h : Balanced t.tokens.reverse) (hopen : t.depths = [])
    (hm : t.Outside m) : m = 0 := by
  have heq := h.closed_eq
  unfold bracesClosed bracesOpened at heq
  rw [List.count_reverse, List.count_reverse] at heq
  unfold State.Outside bracesClosed bracesOpened at hm
  rw [hopen, List.sum_nil] at hm
  omega

theorem finish_inside {text : List Char} (hv : Visits text s) (hn : s.Outside n)
    (h : finish s = .ok t) (hfirst : ∀ x ∈ t.lexemes.getLast?, ¬ x.IsRegex text)
    (hle : ∀ us, us <:+ t.tokens → bracesClosed us ≤ bracesOpened us) :
    ∃ m, t.Outside m ∧ finish (s.inside p n) = .ok (t.inside p m) := by
  fun_induction finish s generalizing n with
  | case1 s hr =>
    cases h
    exact ⟨n, hn, finish_of_rest_nil hr⟩
  | case2 => cases h
  | case3 s hr u hu ih =>
    obtain ⟨-, new, hnew, -⟩ := finish_moves h
    have hsuffix : u.tokens <:+ t.tokens := by
      refine ⟨new.map Lexeme.token, ?_⟩
      rw [State.tokens, State.tokens, hnew, List.map_append]
    obtain ⟨m, hm, hstep⟩ :=
      step_inside p (regex?_eq_none_of_visits hv hu h hfirst) hn hu (hle _ hsuffix)
    rw [finish_of_step (s := s.inside p n) hr hstep]
    exact ih (hv.step hr hu) hm h

theorem finish_behind (h : s.depths = [0]) :
    finish (s.withRest ['\n', '\n', '\x7d', '`']) =
      .ok ⟨⟨[], s.cursor.offset + 4, s.cursor.line + 2⟩,
        ⟨.other, ⟨s.cursor.offset + 2, s.cursor.line + 2⟩⟩ :: s.lexemes, []⟩ := by
  obtain ⟨cursor, lexemes, depths⟩ := s
  obtain rfl : depths = [0] := h
  rw [finish_of_step (by simp [State.withRest]) rfl]
  rw [finish_of_step (by simp [State.withRest, State.moveTo]) rfl]
  rw [finish_of_step (by simp [State.withRest, State.moveTo]) rfl]
  exact finish_of_rest_nil rfl

/-- The tokens of a text between the two pieces of a template are those of the text. -/
theorem finish_interpolation {e : List Char} (ht : finish (.start ('\n' :: e)) = .ok t)
    (hopen : t.depths = []) (hbraces : Balanced t.tokens.reverse)
    (hfirst : ∀ x ∈ t.lexemes.getLast?, ¬ x.IsRegex ('\n' :: e)) :
    ∃ u q, finish (.start ('`' :: '$' :: '\x7b' :: ('\n' :: e ++ ['\n', '\n', '\x7d', '`']))) =
        .ok u ∧
      u.lexemes = ⟨.other, q⟩ :: (t.lexemes.map (Lexeme.shift 3 0) ++ [⟨.other, ⟨0, 1⟩⟩]) := by
  -- the run inside the interpolation, first as if it began at the start of the text
  obtain ⟨m, hm, hinside⟩ := finish_inside (n := 0) ⟨0, 1⟩ .start rfl ht hfirst
    fun us hus => hbraces.closed_le_of_suffix hus
  obtain rfl := outside_eq_zero hbraces hopen hm
  -- then behind the piece of template text
  let piece : List Lexeme := [⟨.other, ⟨0, 1⟩⟩]
  let within : State := ⟨⟨'\n' :: e, 3, 1⟩, piece, [0]⟩
  have hshift : Shifted 3 0 piece piece ((State.start ('\n' :: e)).inside ⟨0, 1⟩ 0) within :=
    ⟨rfl, rfl, [], rfl, rfl⟩
  obtain ⟨u, hu, hshift'⟩ := finish_shifted (fun _ => rfl) hshift hinside
  have hdepths : u.depths = [0] := by
    rw [hshift'.depths]
    show t.depths ++ [0] = [0]
    rw [hopen, List.nil_append]
  obtain ⟨new, hnew, hnew'⟩ := hshift'.lexemes
  obtain rfl : t.lexemes = new := List.append_cancel_right hnew
  have hrun :=
    calc finish (.start ('`' :: '$' :: '\x7b' :: ('\n' :: e ++ ['\n', '\n', '\x7d', '`'])))
        = finish (within.withRest ('\n' :: e ++ ['\n', '\n', '\x7d', '`'])) :=
          finish_of_step (List.cons_ne_nil _ _) rfl
      _ = finish (u.withRest ['\n', '\n', '\x7d', '`']) := finish_seam hu
      _ = _ := finish_behind hdepths
  exact ⟨_, _, hrun, congrArg (List.cons _) hnew'⟩

end Lexer

/-! ## Texts -/

/-- Tokens that no reference reaches over add nothing around the others. -/
theorem collect_between {x y : Lexeme} (hx : x.token.separates) (hy : y.token.separates)
    (ls : List Lexeme) : collect none [] (x :: (ls ++ [y])) = collect none [] ls :=
  calc collect none [] (x :: (ls ++ [y]))
      = collect none [] (ls ++ [y]) := collect_around hx none [] [] _
    _ = collect none [] ls := collect_around hy none [] ls []

open Lexer in
/--
A text inside an interpolation is scanned like the text on its own, three characters further on and
on the same lines, unless a regular expression is its first token.
-/
theorem scan_interpolation {e : String} {rs : List Reference} {t : State}
    (h : scan ("\n" ++ e) = .ok rs) (ht : finish (.start ("\n" ++ e).toList) = .ok t)
    (hopen : t.depths = []) (hbraces : Balanced t.tokens.reverse)
    (hfirst : ∀ x ∈ t.lexemes.getLast?, ¬ x.IsRegex ("\n" ++ e).toList) :
    scan ("`$\x7b\n" ++ e ++ "\n\n\x7d`") = .ok (rs.map (Reference.shift 3 0)) := by
  obtain ⟨t', ht', rfl⟩ := scan_eq_ok_iff.1 h
  obtain rfl := Except.ok.inj (ht.symm.trans ht')
  have htext : ("\n" ++ e).toList = '\n' :: e.toList := String.toList_append
  have hlist : ("`$\x7b\n" ++ e ++ "\n\n\x7d`").toList =
      '`' :: '$' :: '\x7b' :: ('\n' :: e.toList ++ ['\n', '\n', '\x7d', '`']) := by
    simp [String.toList_append]
  rw [htext] at ht hfirst
  obtain ⟨u, q, hu, hlexemes⟩ := finish_interpolation ht hopen hbraces hfirst
  refine scan_eq_ok_iff.2 ⟨u, hlist ▸ hu, ?_⟩
  have hreverse : u.lexemes.reverse = ⟨.other, ⟨0, 1⟩⟩ ::
      (t.lexemes.reverse.map (Lexeme.shift 3 0) ++ [⟨.other, q⟩]) := by
    rw [hlexemes, List.reverse_cons, List.reverse_append, ← List.map_reverse]
    rfl
  have hmove : collect none [] (t.lexemes.reverse.map (Lexeme.shift 3 0)) =
      (collect none [] t.lexemes.reverse).map (Reference.shift 3 0) :=
    collect_move none [] _
  rw [hreverse, collect_between rfl rfl, hmove, List.map_reverse]

/-- The tokens of a template with an object literal in it, a division of the template, and a call. -/
def templateTokens : List Lexeme :=
  [⟨.other, ⟨1, 2⟩⟩, ⟨.punct '\x7b', ⟨4, 2⟩⟩, ⟨.ident "a", ⟨5, 2⟩⟩, ⟨.punct ':', ⟨6, 2⟩⟩,
    ⟨.ident "require", ⟨7, 2⟩⟩, ⟨.punct '(', ⟨14, 2⟩⟩, ⟨.literal "b", ⟨15, 2⟩⟩,
    ⟨.punct ')', ⟨18, 2⟩⟩, ⟨.punct '\x7d', ⟨19, 2⟩⟩, ⟨.other, ⟨20, 2⟩⟩, ⟨.punct '/', ⟨22, 2⟩⟩,
    ⟨.other, ⟨23, 2⟩⟩, ⟨.punct '/', ⟨24, 2⟩⟩, ⟨.ident "import", ⟨25, 2⟩⟩, ⟨.punct '(', ⟨31, 2⟩⟩,
    ⟨.literal "c", ⟨32, 2⟩⟩, ⟨.punct ')', ⟨35, 2⟩⟩]

instance (ts : List Token) : Decidable (Balanced ts) :=
  decidable_of_iff
    (bracesClosed ts = bracesOpened ts ∧ ∀ us ∈ ts.inits, bracesClosed us ≤ bracesOpened us) <| by
    simp only [List.mem_inits]
    exact ⟨fun h => ⟨h.1, h.2⟩, fun h => ⟨h.closed_eq, h.closed_le⟩⟩

open Lexer in
theorem scan_interpolation_nested :
    scan ("\n" ++ "`$\x7b\x7ba:require('b')\x7d\x7d`/2/import('c')") =
        .ok [⟨"b", .cjsRequire, ⟨15, 2⟩⟩, ⟨"c", .esmDynamicImport, ⟨32, 2⟩⟩] ∧
      finish (.start ("\n" ++ "`$\x7b\x7ba:require('b')\x7d\x7d`/2/import('c')").toList) =
        .ok ⟨⟨[], 36, 2⟩, templateTokens.reverse, []⟩ ∧
      Balanced (templateTokens.map Lexeme.token) ∧
      scan ("`$\x7b\n" ++ "`$\x7b\x7ba:require('b')\x7d\x7d`/2/import('c')" ++ "\n\n\x7d`") =
        .ok [⟨"b", .cjsRequire, ⟨18, 2⟩⟩, ⟨"c", .esmDynamicImport, ⟨35, 2⟩⟩] := by
  have h : scan ("\n" ++ "`$\x7b\x7ba:require('b')\x7d\x7d`/2/import('c')") =
      .ok [⟨"b", .cjsRequire, ⟨15, 2⟩⟩, ⟨"c", .esmDynamicImport, ⟨32, 2⟩⟩] := by cbv
  have ht : finish (.start ("\n" ++ "`$\x7b\x7ba:require('b')\x7d\x7d`/2/import('c')").toList) =
      .ok ⟨⟨[], 36, 2⟩, templateTokens.reverse, []⟩ := by cbv
  have hbraces : Balanced (templateTokens.map Lexeme.token) := by decide
  exact ⟨h, ht, hbraces, scan_interpolation h ht rfl hbraces (by decide)⟩

open Lexer in
/-- A regular expression that a text begins with is two divisions inside an interpolation, and the
quote in it opens a string there. -/
theorem scan_interpolation_divides :
    ∃ t, finish (.start ("\n" ++ "/\"/.test(require(\"./a\"))").toList) = .ok t ∧
      t.depths = [] ∧ Balanced t.tokens.reverse ∧
      scan ("\n" ++ "/\"/.test(require(\"./a\"))") = .ok [⟨"./a", .cjsRequire, ⟨18, 2⟩⟩] ∧
      scan ("`$\x7b\n" ++ "/\"/.test(require(\"./a\"))" ++ "\n\n\x7d`") =
        .error ⟨.stringLiteral, ⟨25, 2⟩⟩ := by
  have ht : finish (.start ("\n" ++ "/\"/.test(require(\"./a\"))").toList) =
      .ok ⟨⟨[], 25, 2⟩, [⟨.punct ')', ⟨24, 2⟩⟩, ⟨.punct ')', ⟨23, 2⟩⟩, ⟨.literal "./a", ⟨18, 2⟩⟩,
        ⟨.punct '(', ⟨17, 2⟩⟩, ⟨.ident "require", ⟨10, 2⟩⟩, ⟨.punct '(', ⟨9, 2⟩⟩,
        ⟨.ident "test", ⟨5, 2⟩⟩, ⟨.punct '.', ⟨4, 2⟩⟩, ⟨.other, ⟨1, 2⟩⟩], []⟩ := by cbv
  exact ⟨_, ht, rfl, by decide, by cbv, by cbv⟩

end PackageMap.Source
