import PackageMap.Proofs.Source.Scanner
import PackageMap.Proofs.Source.Trivia

/-!
# The scanner and the lexer

The scanner does what the lexer does. From one token to the next it gets in some turns to where a
step of the lexer gets (`leads_step`), so it passes wherever the lexer is between two steps
(`reachable_of_visits`), and it ends with the tokens of the text or with what the text leaves open
(`Reachable.exists_end`).
-/

namespace PackageMap.Source.Scanner

open PackageMap.Text
open Relation (ReflTransGen)

/-! ## Leading from one state to the other -/

variable (text : List Char)

/-- The scanner where the lexer is between two tokens. -/
def State.between (s : Lexer.State) : State :=
  ⟨.tokens, s.cursor.offset, s.cursor.line, s.lexemes, s.depths⟩

/-- The scanner gets to a state, or to a turn that fails. -/
def Leads (s : State) : Except Unterminated State → Prop
  | .ok t => Path text s t
  | .error e => ∃ t, Path text s t ∧ turn text t = .failed e

variable {text} {s t : State} {o : Except Unterminated State}

theorem Leads.head (h : Next text s t) (ht : Leads text t o) : Leads text s o := by
  cases o with
  | ok u => exact ReflTransGen.head h ht
  | error e =>
    obtain ⟨u, hu, he⟩ := ht
    exact ⟨u, ReflTransGen.head h hu, he⟩

theorem Leads.failed {e : Unterminated} (h : turn text s = .failed e) : Leads text s (.error e) :=
  ⟨s, .refl, h⟩

theorem Leads.refl (s : State) : Leads text s (.ok s) := ReflTransGen.refl

/-! ## Offsets into the text -/

section

variable {i start : Nat} {c : Char} {u r : List Char}

theorem getElem?_of_drop (h : text.drop i = r) : text[i]? = r.head? := by
  rw [← h, List.head?_drop]

theorem drop_add (h : text.drop i = u ++ r) : text.drop (i + u.length) = r := by
  rw [← List.drop_drop, h, List.drop_left]

theorem drop_succ (h : text.drop i = c :: r) : text.drop (i + 1) = r :=
  drop_add (u := [c]) h

theorem drop_of_ahead {p p' : Cursor} (h : text.drop p.offset = p.rest) (hp : p.Ahead p') :
    text.drop p'.offset = p'.rest := by
  obtain ⟨u, hu, ho⟩ := hp
  rw [ho]
  exact drop_add (h.trans hu)

theorem cut_eq (h : text.drop start = u ++ r) (hstart : start ≤ text.length)
    (goOn : List Char → State) : cut text start (start + u.length) goOn = .next (goOn u) := by
  have hlength : text.length - start = u.length + r.length := by
    rw [← List.length_drop, h, List.length_append]
  unfold cut
  rw [if_pos ⟨by omega, by omega⟩, List.drop_take, h, Nat.add_sub_cancel_left, List.take_left]

theorem lt_of_drop (h : text.drop i = c :: r) : i < text.length :=
  (List.getElem?_eq_some_iff.1 (getElem?_of_drop h)).1

theorem getElem?_behind (h : text.drop i = []) : text[i + 1]? = none :=
  List.getElem?_eq_none (Nat.le_succ_of_le (List.drop_eq_nil_iff.1 h))

/-- The text from `start` on is what has been taken, newest first, and the rest at `offset`. -/
structure Taken (text : List Char) (start offset : Nat) (taken r : List Char) : Prop where
  split : text.drop start = taken.reverse ++ r
  offset : offset = start + taken.length

namespace Taken

variable {offset : Nat} {taken : List Char}

theorem nil (h : text.drop start = r) : Taken text start start [] r := ⟨h, rfl⟩

theorem drop (h : Taken text start offset taken r) : text.drop offset = r := by
  rw [h.offset, ← List.length_reverse]
  exact drop_add h.split

theorem cons (h : Taken text start offset taken (c :: r)) :
    Taken text start (offset + 1) (c :: taken) r := by
  refine ⟨?_, congrArg (· + 1) h.offset⟩
  rw [h.split, List.reverse_cons, List.append_assoc, List.singleton_append]

theorem cut_eq (h : Taken text start offset taken (c :: r)) (goOn : List Char → State) :
    cut text start offset goOn = .next (goOn taken.reverse) := by
  have hstart : start ≤ text.length := by
    have hlt := lt_of_drop h.drop
    have hoffset := h.offset
    omega
  rw [h.offset, ← List.length_reverse]
  exact Scanner.cut_eq h.split hstart goOn

end Taken

end

/-! ## Loops -/

theorem isNumberPart_of_isDigit {c : Char} (h : c.isDigit = true) :
    Lexer.isNumberPart c = true := by
  simp [Lexer.isNumberPart, Char.isAlphanum, h]

section

variable {offset : Nat} {c : Char} {r : List Char}

/-- A backslash that escapes no character is the last of the text. -/
theorem eq_nil_of_escape (h : ∀ a r', c = '\\' → r = a :: r' → False) (hc : c = '\\') : r = [] := by
  cases r with
  | nil => rfl
  | cons a r => exact (h a r hc rfl).elim

theorem skipEscape_crlf (h : text.drop s.offset = '\\' :: '\r' :: '\n' :: r) :
    skipEscape text s = { s with offset := s.offset + 3, line := s.line + 1 } := by
  have hnext := drop_succ h
  have hwidth : lineEndWidth text (s.offset + 1) = 2 :=
    if_pos ⟨getElem?_of_drop hnext, getElem?_of_drop (drop_succ hnext)⟩
  unfold skipEscape
  rw [hwidth]
  rfl

theorem skipEscape_cons (h : text.drop s.offset = '\\' :: c :: r)
    (hc : ∀ r', c = '\r' → r = '\n' :: r' → False) :
    skipEscape text s =
      { s with offset := s.offset + 2, line := if isLineEnd c then s.line + 1 else s.line } := by
  have hnext := drop_succ h
  have hcrlf : ¬(text[s.offset + 1]? = some '\r' ∧ text[s.offset + 1 + 1]? = some '\n') := by
    rw [getElem?_of_drop hnext, getElem?_of_drop (drop_succ hnext)]
    rintro ⟨hcr, hfeed⟩
    exact hc _ (Option.some.inj hcr) (List.eq_cons_of_mem_head? hfeed)
  have hwidth : lineEndWidth text (s.offset + 1) = if isLineEnd c then 1 else 0 := by
    unfold lineEndWidth
    rw [if_neg hcrlf, getElem?_of_drop hnext]
    rfl
  unfold skipEscape
  rw [hwidth]
  by_cases hend : isLineEnd c
  · simp only [if_pos hend]
  · simp only [if_neg hend]

/-- A backslash at the end of the text is skipped together with a character behind the end. -/
theorem skipEscape_lone (h : text.drop s.offset = ['\\']) :
    skipEscape text s = { s with offset := s.offset + 2 } := by
  have hwidth : lineEndWidth text (s.offset + 1) = 0 := by
    unfold lineEndWidth
    rw [getElem?_of_drop (drop_succ h)]
    rfl
  unfold skipEscape
  rw [hwidth]
  rfl

/-- A loop that skips the last backslash of the text ends behind the text. -/
theorem Leads.lone {e : Unterminated} (h : text.drop s.offset = ['\\'])
    (hturn : turn text s = .next (skipEscape text s))
    (hend : text[s.offset + 2]? = none →
      turn text { s with offset := s.offset + 2 } = .failed e) : Leads text s (.error e) := by
  rw [skipEscape_lone h] at hturn
  exact .head hturn (.failed (hend (getElem?_behind (drop_succ h))))

variable (line : Nat) (ls : List Lexeme) (depths : List Nat)

theorem leads_line (h : text.drop offset = r) :
    Path text ⟨.line, offset, line, ls, depths⟩
      ⟨.tokens, (skipLine r offset line).offset, (skipLine r offset line).line, ls, depths⟩ := by
  induction r generalizing offset with
  | nil =>
    refine .single (if_neg ?_)
    rw [getElem?_of_drop h]
    exact Bool.false_ne_true
  | cons c r ih =>
    have hget := getElem?_of_drop h
    rw [skipLine]
    split
    · next hc =>
      refine .single (if_neg ?_)
      simp [hget, hc]
    · next hc =>
      refine .head (if_pos ?_) (ih (drop_succ h))
      simp [hget, hc]

theorem leads_comment (opened : Place) (h : text.drop offset = r) :
    Leads text ⟨.comment opened, offset, line, ls, depths⟩
      (match skipComment r offset line with
        | some p => .ok ⟨.tokens, p.offset, p.line, ls, depths⟩
        | none => .error ⟨.blockComment, opened⟩) := by
  have hget := getElem?_of_drop h
  fun_induction skipComment r offset line with
  | case1 offset line =>
    refine .failed ?_
    show commentTurn text _ _ = _
    simp only [commentTurn, hget, List.head?_nil]
  | case2 r offset line =>
    refine .head ?_ (.refl _)
    have hslash := getElem?_of_drop (drop_succ h)
    show commentTurn text _ _ = _
    simp only [commentTurn, hget, hslash, List.head?_cons, and_self, if_true]
  | case3 c r offset line hne ih =>
    have hnext := drop_succ h
    refine Leads.head ?_ (ih hnext (getElem?_of_drop hnext))
    have hopen : ¬(c = '*' ∧ text[offset + 1]? = some '/') := by
      rintro ⟨hc, hslash⟩
      rw [getElem?_of_drop hnext] at hslash
      exact hne _ hc (List.eq_cons_of_mem_head? hslash)
    show commentTurn text _ _ = _
    simp only [commentTurn, hget, List.head?_cons, if_neg hopen]
    split <;> rfl

theorem leads_quoted (opened : Place) {quote : Char} {start : Nat} {taken : List Char}
    (hquote : quote ≠ '\\') (h : Taken text start offset taken r) :
    Leads text ⟨.quoted quote opened start, offset, line, ls, depths⟩
      (match readString quote r offset line taken with
        | some (v, p) =>
          .ok ⟨.tokens, p.offset, p.line, ⟨.literal (String.ofList v), opened⟩ :: ls, depths⟩
        | none => .error ⟨.stringLiteral, opened⟩) := by
  fun_induction readString quote r offset line taken with
  | case1 offset line taken =>
    have hget := getElem?_of_drop h.drop
    refine .failed ?_
    show quotedTurn text _ _ _ _ = _
    simp only [quotedTurn, hget, List.head?_nil]
  | case2 r offset line taken ih =>
    have hget := getElem?_of_drop h.drop
    refine Leads.head ?_ (ih h.cons.cons.cons)
    show quotedTurn text _ _ _ _ = _
    simp only [quotedTurn, hget, List.head?_cons]
    exact congrArg Outcome.next (skipEscape_crlf h.drop)
  | case3 c r offset line taken hne ih =>
    have hget := getElem?_of_drop h.drop
    refine Leads.head ?_ (ih h.cons.cons)
    show quotedTurn text _ _ _ _ = _
    simp only [quotedTurn, hget, List.head?_cons]
    exact congrArg Outcome.next (skipEscape_cons h.drop hne)
  | case4 r offset line taken =>
    have hget := getElem?_of_drop h.drop
    refine .failed ?_
    show quotedTurn text _ _ _ _ = _
    simp only [quotedTurn, hget, List.head?_cons, if_true]
  | case5 r offset line taken =>
    have hget := getElem?_of_drop h.drop
    refine Leads.head ?_ (.refl _)
    show quotedTurn text _ _ _ _ = _
    have hlength : min offset text.length = offset :=
      Nat.min_eq_left (List.getElem?_eq_some_iff.1 hget).1.le
    simp only [quotedTurn, hget, List.head?_cons, if_neg ‹¬quote = '\n'›, if_neg hquote, if_true,
      hlength]
    exact h.cut_eq _
  | case6 c r offset line taken hcr hesc hn hq ih =>
    have hget := getElem?_of_drop h.drop
    by_cases hc : c = '\\'
    · obtain rfl := eq_nil_of_escape hesc hc
      subst hc
      refine .lone h.drop ?_ fun hend => ?_
      · show quotedTurn text _ _ _ _ = _
        simp only [quotedTurn, hget, List.head?_cons, if_true, if_neg hn]
      · show quotedTurn text _ _ _ _ = _
        simp only [quotedTurn, hend]
    · refine Leads.head ?_ (ih h.cons)
      show quotedTurn text _ _ _ _ = _
      simp only [quotedTurn, hget, List.head?_cons, if_neg hn, if_neg hc, if_neg hq]

theorem leads_template (opened : Place) {start : Nat} {taken : List Char} {resumed : Bool}
    (hresumed : text[start - 1]? = some '`' ↔ resumed = false)
    (h : Taken text start offset taken r) :
    Leads text ⟨.template opened start, offset, line, ls, depths⟩
      (match readTemplate r offset line taken with
        | some (v, .closed, p) =>
          .ok ⟨.tokens, p.offset, p.line,
            ⟨if resumed then .other else .literal (String.ofList v), opened⟩ :: ls, depths⟩
        | some (_, .interpolation, p) =>
          .ok ⟨.tokens, p.offset, p.line, ⟨.other, opened⟩ :: ls, 0 :: depths⟩
        | none => .error ⟨.templateLiteral, opened⟩) := by
  fun_induction readTemplate r offset line taken with
  | case1 offset line taken =>
    have hget := getElem?_of_drop h.drop
    refine .failed ?_
    show templateTurn text _ _ _ = _
    simp only [templateTurn, hget, List.head?_nil]
  | case2 r offset line taken ih =>
    have hget := getElem?_of_drop h.drop
    refine Leads.head ?_ (ih h.cons.cons.cons)
    show templateTurn text _ _ _ = _
    simp only [templateTurn, hget, List.head?_cons, if_true]
    exact congrArg Outcome.next (skipEscape_crlf h.drop)
  | case3 c r offset line taken hne ih =>
    have hget := getElem?_of_drop h.drop
    refine Leads.head ?_ (ih h.cons.cons)
    show templateTurn text _ _ _ = _
    simp only [templateTurn, hget, List.head?_cons, if_true]
    exact congrArg Outcome.next (skipEscape_cons h.drop hne)
  | case4 r offset line taken =>
    have hget := getElem?_of_drop h.drop
    have hbrace := getElem?_of_drop h.cons.drop
    refine Leads.head ?_ (.refl _)
    show templateTurn text _ _ _ = _
    simp only [templateTurn, hget, hbrace, List.head?_cons, and_self, if_true]
    rfl
  | case5 r offset line taken =>
    have hget := getElem?_of_drop h.drop
    refine Leads.head ?_ (.refl _)
    show templateTurn text _ _ _ = _
    simp only [templateTurn, hget, List.head?_cons]
    rw [if_neg (by decide), if_neg (by decide), if_pos trivial]
    cases resumed with
    | false =>
      rw [if_pos (hresumed.2 rfl)]
      exact h.cut_eq _
    | true =>
      rw [if_neg (mt hresumed.1 (by decide))]
      rfl
  | case6 c r offset line taken hcr hesc hbrace hq ih =>
    have hget := getElem?_of_drop h.drop
    by_cases hc : c = '\\'
    · obtain rfl := eq_nil_of_escape hesc hc
      subst hc
      refine .lone h.drop ?_ fun hend => ?_
      · show templateTurn text _ _ _ = _
        simp only [templateTurn, hget, List.head?_cons, if_true]
      · show templateTurn text _ _ _ = _
        simp only [templateTurn, hend]
    · have hopen : ¬(c = '$' ∧ text[offset + 1]? = some '\x7b') := by
        rintro ⟨hdollar, hopen⟩
        rw [getElem?_of_drop h.cons.drop] at hopen
        exact hbrace _ hdollar (List.eq_cons_of_mem_head? hopen)
      refine Leads.head ?_ (ih h.cons)
      show templateTurn text _ _ _ = _
      simp only [templateTurn, hget, List.head?_cons, if_neg hc, if_neg hq, if_neg hopen]
      split <;> rfl

/-- A loop that turns while the character at an offset is in the class `part`. -/
theorem path_while {on : Nat → State} {part : Char → Bool} {i : Nat}
    (hon : ∀ j, (text[j]?).any part = true → Next text (on j) (on (j + 1)))
    (h : text.drop i = r) :
    Path text (on i) (on (i + (r.takeWhile part).length)) ∧
      (text[i + (r.takeWhile part).length]?).any part = false := by
  induction r generalizing i with
  | nil =>
    refine ⟨.refl, ?_⟩
    rw [List.takeWhile_nil, List.length_nil, Nat.add_zero, getElem?_of_drop h]
    rfl
  | cons c r ih =>
    have hget : (text[i]?).any part = part c := by
      rw [getElem?_of_drop h]
      rfl
    by_cases hc : part c
    · obtain ⟨hpath, hend⟩ := ih (drop_succ h)
      rw [List.takeWhile_cons_of_pos hc, List.length_cons, Nat.add_comm _ 1, ← Nat.add_assoc]
      exact ⟨.head (hon i (hget.trans hc)) hpath, hend⟩
    · rw [List.takeWhile_cons_of_neg hc, List.length_nil, Nat.add_zero, hget]
      exact ⟨.refl, Bool.eq_false_iff.2 hc⟩

theorem leads_word (h : text.drop offset = c :: r) (hc : isIdentPart c = true) :
    Path text ⟨.word offset, offset, line, ls, depths⟩
      ⟨.tokens, offset + 1 + (r.takeWhile isIdentPart).length, line,
        ⟨.ident (String.ofList (c :: r.takeWhile isIdentPart)), ⟨offset, line⟩⟩ :: ls, depths⟩ := by
  have hon (i : Nat) (hi : (text[i]?).any isIdentPart = true) :
      Next text ⟨.word offset, i, line, ls, depths⟩ ⟨.word offset, i + 1, line, ls, depths⟩ :=
    if_pos hi
  have hfirst := hon offset (by rw [getElem?_of_drop h]; exact hc)
  have ⟨hpath, hend⟩ := path_while hon (drop_succ h)
  refine .head hfirst (hpath.tail ((if_neg (Bool.eq_false_iff.1 hend)).trans ?_))
  have hsplit : text.drop offset = (c :: r.takeWhile isIdentPart) ++ r.dropWhile isIdentPart := by
    rw [h, List.cons_append, List.takeWhile_append_dropWhile]
  have hlength : offset + 1 + (r.takeWhile isIdentPart).length =
      offset + (c :: r.takeWhile isIdentPart).length := by
    rw [List.length_cons, Nat.add_assoc, Nat.add_comm 1]
  show cut text offset (offset + 1 + _) _ = _
  rw [hlength]
  exact cut_eq hsplit (lt_of_drop h).le _

theorem leads_number (h : text.drop offset = c :: r) (hc : Lexer.isNumberPart c = true) :
    Path text ⟨.number offset, offset, line, ls, depths⟩
      ⟨.tokens, offset + 1 + (r.takeWhile Lexer.isNumberPart).length, line,
        ⟨.other, ⟨offset, line⟩⟩ :: ls, depths⟩ := by
  have hon (i : Nat) (hi : (text[i]?).any Lexer.isNumberPart = true) :
      Next text ⟨.number offset, i, line, ls, depths⟩ ⟨.number offset, i + 1, line, ls, depths⟩ :=
    if_pos hi
  have hfirst := hon offset (by rw [getElem?_of_drop h]; exact hc)
  have ⟨hpath, hend⟩ := path_while hon (drop_succ h)
  exact .head hfirst (hpath.tail (if_neg (Bool.eq_false_iff.1 hend)))

theorem leads_flags (offset : Nat) {ahead : Nat} (h : text.drop ahead = r) :
    Path text ⟨.flags ahead, offset, line, ls, depths⟩
      ⟨.tokens, ahead + (r.takeWhile Char.isAlpha).length, line,
        ⟨.other, ⟨offset, line⟩⟩ :: ls, depths⟩ := by
  have hon (i : Nat) (hi : (text[i]?).any Char.isAlpha = true) :
      Next text ⟨.flags i, offset, line, ls, depths⟩ ⟨.flags (i + 1), offset, line, ls, depths⟩ :=
    if_pos hi
  have ⟨hpath, hend⟩ := path_while hon h
  exact hpath.tail (if_neg (Bool.eq_false_iff.1 hend))

theorem leads_regex (inClass : Bool) {width : Nat} (h : text.drop (offset + width) = r) :
    Path text ⟨.regex inClass (offset + width), offset, line, ls, depths⟩
      (match skipRegex inClass r width with
        | some (_, total) =>
          ⟨.tokens, offset + total, line, ⟨.other, ⟨offset, line⟩⟩ :: ls, depths⟩
        | none => ⟨.division, offset, line, ls, depths⟩) := by
  fun_induction skipRegex inClass r width with
  | case1 inClass width =>
    have hget := getElem?_of_drop h
    refine .single ?_
    show regexTurn text _ _ _ = _
    simp only [regexTurn, hget, List.head?_nil]
  | case2 inClass a r width ih =>
    have hget := getElem?_of_drop h
    refine .head ?_ (ih (drop_succ (drop_succ h)))
    show regexTurn text _ _ _ = _
    simp only [regexTurn, hget, List.head?_cons]
    rfl
  | case3 inClass r width hesc =>
    have hget := getElem?_of_drop h
    refine .single ?_
    show regexTurn text _ _ _ = _
    simp only [regexTurn, hget, List.head?_cons, if_true]
  | case4 inClass r width hesc hn ih =>
    have hget := getElem?_of_drop h
    refine .head ?_ (ih (drop_succ h))
    show regexTurn text _ _ _ = _
    simp only [regexTurn, hget, List.head?_cons]
    rfl
  | case5 inClass r width hesc hn hopen ih =>
    have hget := getElem?_of_drop h
    refine .head ?_ (ih (drop_succ h))
    show regexTurn text _ _ _ = _
    simp only [regexTurn, hget, List.head?_cons]
    rfl
  | case6 inClass c r width hesc hn hopen hclose hslash =>
    have hget := getElem?_of_drop h
    have hc : c ≠ '\\' := by
      rintro rfl
      cases hslash
    have hflags := leads_flags line ls depths offset (drop_succ h)
    rw [Nat.add_assoc, Nat.add_assoc] at hflags
    refine .head ?_ hflags
    show regexTurn text _ _ _ = _
    simp only [regexTurn, hget, List.head?_cons, if_neg hn, if_neg hc, if_neg hopen,
      if_neg hclose, if_pos hslash]
    rfl
  | case7 inClass c r width hesc hn hopen hclose hslash ih =>
    have hget := getElem?_of_drop h
    by_cases hc : c = '\\'
    · obtain rfl := eq_nil_of_escape hesc hc
      subst hc
      have hend : text[offset + width + 2]? = none := getElem?_behind (drop_succ h)
      refine .head (b := ⟨.regex inClass (offset + width + 2), offset, line, ls, depths⟩) ?_
        (.single ?_)
      · show regexTurn text _ _ _ = _
        simp only [regexTurn, hget, List.head?_cons, if_neg hn, if_true]
      · show regexTurn text _ _ _ = _
        simp only [regexTurn, hend, skipRegex]
    · refine .head ?_ (ih (drop_succ h))
      show regexTurn text _ _ _ = _
      simp only [regexTurn, hget, List.head?_cons, if_neg hn, if_neg hc, if_neg hopen,
        if_neg hclose, if_neg hslash]
      rfl

end

/-! ## Steps of the lexer -/

section

variable {s : Lexer.State} {c : Char} {r : List Char}

theorem turn_between (h : text.drop s.cursor.offset = c :: r) :
    turn text (.between s) =
      if c = '\n' then
        .next (.between (s.moveTo ⟨r, s.cursor.offset + 1, s.cursor.line + 1⟩))
      else if isBlank c then .next (.between (s.moveTo ⟨r, s.cursor.offset + 1, s.cursor.line⟩))
      else if c = '/' then slashTurn text (.between s)
      else if c = '"' ∨ c = '\'' then
        .next ⟨.quoted c s.cursor.place (s.cursor.offset + 1), s.cursor.offset + 1, s.cursor.line,
          s.lexemes, s.depths⟩
      else if c = '`' then .next ((State.between s).enterTemplate s.depths)
      else if c = '\x7b' then .next (.between (Lexer.openBrace s r))
      else if c = '\x7d' then braceTurn (.between s)
      else if isIdentStart c then
        .next ⟨.word s.cursor.offset, s.cursor.offset, s.cursor.line, s.lexemes, s.depths⟩
      else if c.isDigit then
        .next ⟨.number s.cursor.offset, s.cursor.offset, s.cursor.line, s.lexemes, s.depths⟩
      else .next (.between (s.emit (.punct c) ⟨r, s.cursor.offset + 1, s.cursor.line⟩)) := by
  show tokenTurn text (.between s) = _
  have hget : text[(State.between s).offset]? = some c := getElem?_of_drop h
  simp only [tokenTurn, hget]
  rfl

theorem leads_slash (h : text.drop s.cursor.offset = '/' :: r)
    (hturn : turn text (.between s) = slashTurn text (.between s)) :
    Leads text (.between s) ((Lexer.slash s r).map .between) := by
  have hget : text[(State.between s).offset + 1]? = r.head? := getElem?_of_drop (drop_succ h)
  unfold slashTurn at hturn
  rw [hget] at hturn
  unfold Lexer.slash
  split
  · next r =>
    refine Leads.head (hturn.trans (if_pos rfl)) (o := .ok _) ?_
    exact leads_line s.cursor.line s.lexemes s.depths h
  · next r =>
    have hcomment := leads_comment s.cursor.line s.lexemes s.depths s.cursor.place
      (drop_succ (drop_succ h))
    refine Leads.head (hturn.trans ((if_neg (by simp)).trans (if_pos rfl))) ?_
    cases hskip : skipComment r (s.cursor.offset + 2) s.cursor.line with
    | none =>
      rw [hskip] at hcomment
      exact hcomment
    | some p =>
      rw [hskip] at hcomment
      exact hcomment
  · next hline hblock =>
    have hslash : r.head? ≠ some '/' := fun hr => hline _ (List.eq_cons_of_mem_head? hr)
    have hstar : r.head? ≠ some '*' := fun hr => hblock _ (List.eq_cons_of_mem_head? hr)
    rw [if_neg hslash, if_neg hstar] at hturn
    split
    · next hallowed =>
      have hregex := leads_regex s.cursor.line s.lexemes s.depths false (drop_succ h)
      refine Leads.head (hturn.trans (if_pos hallowed)) ?_
      cases hskip : skipRegex false r 1 with
      | none =>
        rw [hskip] at hregex
        exact hregex.tail rfl
      | some w =>
        rw [hskip] at hregex
        exact hregex
    · next hdivides => exact Leads.head (hturn.trans (if_neg hdivides)) (.refl _)

theorem leads_string {quote : Char} (hquote : quote ≠ '\\')
    (h : text.drop s.cursor.offset = c :: r)
    (hturn : turn text (.between s) =
      .next ⟨.quoted quote s.cursor.place (s.cursor.offset + 1), s.cursor.offset + 1,
        s.cursor.line, s.lexemes, s.depths⟩) :
    Leads text (.between s) ((Lexer.quoted s quote r).map .between) := by
  have hquoted := leads_quoted s.cursor.line s.lexemes s.depths s.cursor.place hquote
    (.nil (drop_succ h))
  refine Leads.head hturn ?_
  unfold Lexer.quoted
  cases hread : readString quote r (s.cursor.offset + 1) s.cursor.line [] with
  | none =>
    rw [hread] at hquoted
    exact hquoted
  | some p =>
    rw [hread] at hquoted
    exact hquoted

theorem leads_stretch {resumed : Bool} {depths : List Nat}
    (h : text.drop s.cursor.offset = c :: r) (hresumed : c = '`' ↔ resumed = false)
    (hturn : turn text (.between s) = .next ((State.between s).enterTemplate depths)) :
    Leads text (.between s) ((Lexer.template { s with depths } resumed r).map .between) := by
  have hget : text[s.cursor.offset]? = some c := getElem?_of_drop h
  have htick : text[s.cursor.offset + 1 - 1]? = some '`' ↔ resumed = false := by
    rw [Nat.add_sub_cancel, hget, Option.some.injEq, hresumed]
  have htemplate := leads_template s.cursor.line s.lexemes depths s.cursor.place htick
    (.nil (drop_succ h))
  refine Leads.head hturn ?_
  unfold Lexer.template
  rcases hread : readTemplate r (s.cursor.offset + 1) s.cursor.line [] with
    _ | ⟨v, _ | _, p⟩
  all_goals
    rw [hread] at htemplate
    exact htemplate

theorem leads_closeBrace (h : text.drop s.cursor.offset = '\x7d' :: r)
    (hturn : turn text (.between s) = braceTurn (.between s)) :
    Leads text (.between s) ((Lexer.closeBrace s r).map .between) := by
  obtain ⟨cursor, ls, _ | ⟨_ | n, outer⟩⟩ := s
  · exact Leads.head hturn (.refl _)
  · have hresumed : '\x7d' = '`' ↔ true = false := by decide
    exact leads_stretch h hresumed hturn
  · exact Leads.head hturn (.refl _)

/-- From one token to the next the scanner gets to where a step of the lexer gets. -/
theorem leads_step (h : text.drop s.cursor.offset = s.cursor.rest) (hr : s.cursor.rest ≠ []) :
    Leads text (.between s) ((Lexer.step s).map .between) := by
  obtain ⟨c, r, hc⟩ := List.exists_cons_of_ne_nil hr
  rw [hc] at h
  have hturn := turn_between h
  unfold Lexer.step
  rw [hc]
  dsimp only
  split
  · next hn => exact Leads.head (hturn.trans (if_pos hn)) (.refl _)
  next hn =>
  rw [if_neg hn] at hturn
  split
  · next hblank => exact Leads.head (hturn.trans (if_pos hblank)) (.refl _)
  next hblank =>
  rw [if_neg hblank] at hturn
  split
  · next hslash =>
    subst hslash
    exact leads_slash h hturn
  next hslash =>
  rw [if_neg hslash] at hturn
  split
  · next hquote =>
    have hne : c ≠ '\\' := by rcases hquote with rfl | rfl <;> decide
    exact leads_string hne h (hturn.trans (if_pos hquote))
  next hquote =>
  rw [if_neg hquote] at hturn
  split
  · next htick =>
    exact leads_stretch h (by simp [htick]) (hturn.trans (if_pos htick))
  next htick =>
  rw [if_neg htick] at hturn
  split
  · next hopen => exact Leads.head (hturn.trans (if_pos hopen)) (.refl _)
  next hopen =>
  rw [if_neg hopen] at hturn
  split
  · next hclose =>
    subst hclose
    exact leads_closeBrace h hturn
  next hclose =>
  rw [if_neg hclose] at hturn
  split
  · next hword =>
    exact Leads.head (hturn.trans (if_pos hword))
      (leads_word _ _ _ h (isIdentPart_of_isIdentStart hword))
  next hword =>
  rw [if_neg hword] at hturn
  split
  · next hdigit =>
    exact Leads.head (hturn.trans (if_pos hdigit))
      (leads_number _ _ _ h (isNumberPart_of_isDigit hdigit))
  · next hdigit => exact Leads.head (hturn.trans (if_neg hdigit)) (.refl _)

end

/-! ## Runs -/

/-- How the scanner ends with a result of the lexer. -/
def Outcome.ofResult : Except Unterminated (List Lexeme) → Outcome
  | .ok ls => .done ls
  | .error e => .failed e

theorem exists_end_of_finish {s : Lexer.State} (h : text.drop s.cursor.offset = s.cursor.rest) :
    ∃ t, Path text (.between s) t ∧
      turn text t = .ofResult ((Lexer.finish s).map fun s => s.lexemes.reverse) := by
  fun_induction Lexer.finish s with
  | case1 s hr =>
    refine ⟨_, .refl, ?_⟩
    have hget : text[(State.between s).offset]? = none := by
      rw [hr] at h
      exact getElem?_of_drop h
    show tokenTurn text _ = _
    simp only [tokenTurn, hget]
    rfl
  | case2 s hr e he =>
    have hstep := leads_step h hr
    rw [he] at hstep
    exact hstep
  | case3 s hr t ht ih =>
    have hstep := leads_step h hr
    rw [ht] at hstep
    obtain ⟨u, hu, hend⟩ := ih (drop_of_ahead h (Lexer.step_steps ht).ahead)
    exact ⟨u, hstep.trans hu, hend⟩

theorem path_start (text : List Char) : Path text (start text) (.between (.start text)) := by
  by_cases h : text[0]? = some '#' ∧ text[1]? = some '!'
  · obtain ⟨r, rfl⟩ : ∃ r, text = '#' :: '!' :: r := by
      obtain _ | ⟨a, _ | ⟨b, r⟩⟩ := text
      · cases h.1
      · cases h.2
      · cases h.1
        cases h.2
        exact ⟨r, rfl⟩
    exact leads_line 1 [] [] List.drop_zero
  · have hcursor : (Lexer.State.start text).cursor = .ofText text := by
      unfold Lexer.State.start
      split
      · exact absurd ⟨rfl, rfl⟩ h
      · rfl
    unfold start
    rw [if_neg h, State.between, hcursor]
    exact .refl

/-- Where the lexer is between two steps, the scanner gets. -/
theorem reachable_of_visits {s : Lexer.State} (h : Lexer.Visits text s) :
    Reachable text (.between s) := by
  induction h with
  | start => exact path_start text
  | @step s t h hr ht ih =>
    have hstep := leads_step (drop_of_ahead rfl h.ahead) hr
    rw [ht] at hstep
    exact ReflTransGen.trans ih hstep

theorem Outcome.ofResult_ne_next (result : Except Unterminated (List Lexeme)) (s : State) :
    Outcome.ofResult result ≠ .next s := by
  cases result <;> nofun

/-- Whatever state the scanner has reached, it ends with what the lexer gives. -/
theorem Reachable.exists_end (h : Reachable text s) :
    ∃ t, Path text s t ∧ turn text t = .ofResult (lexemes text) := by
  obtain ⟨t, ht, hend⟩ := exists_end_of_finish (drop_of_ahead rfl (Lexer.start_ahead text))
  have hunique : Relator.RightUnique (Next text) := by
    intro s t u ht hu
    exact Outcome.next.inj (ht.symm.trans hu)
  -- there is one run only, so a state of it comes before the end
  rcases h.total_of_right_unique hunique ((path_start text).trans ht) with hst | hts
  · exact ⟨t, hst, hend⟩
  · rcases hts.cases_head with rfl | ⟨u, hu, -⟩
    · exact ⟨t, .refl, hend⟩
    · exact absurd (hend.symm.trans hu) (Outcome.ofResult_ne_next _ u)

end PackageMap.Source.Scanner
