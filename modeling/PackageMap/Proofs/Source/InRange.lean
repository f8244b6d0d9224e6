import PackageMap.Proofs.Source.Agreement

/-!
# The scanner stays in the text

No state that the scanner reaches is more than one character behind the end of the text, no cut
reaches out of the text and no brace is closed where none is open. Every turn moves the scanner on
(`scanner_in_range`).

1. Each loop has bounds for where it may stand (`InRange`). A turn that begins within them ends
   within the bounds of its loop or of the one it goes to, and is no fault (`sound_turn`).
2. A round of the token loop takes a turn of it and those of the loops within it. How far a round is
   sure to get (`State.reach`) does not decrease, and it is behind the start of the round after the
   first turn: names and numbers begin with a character that they may go on with.
-/

namespace PackageMap.Source.Scanner

open PackageMap.Text

/-! ## Bounds and progress -/

/-- The loops that skip or read one thing. -/
def Loop.skips : Loop → Bool
  | .tokens | .division => false
  | _ => true

/-- The loops in which the scanner waits at a slash. -/
def Loop.waits : Loop → Bool
  | .regex _ _ | .flags _ | .division => true
  | _ => false

/-- The loops that go on to the end of a comment or a literal. -/
def Loop.reads : Loop → Bool
  | .comment _ | .quoted _ _ _ | .template _ _ => true
  | _ => false

/-- The loops that go on while the characters are of one class. -/
def Loop.walks : Loop → Bool
  | .line | .word _ | .number _ => true
  | _ => false

/-- The class of characters that such a loop goes on with. -/
def Loop.goesOn : Loop → Char → Bool
  | .line => (· != '\n')
  | .word _ => isIdentPart
  | .number _ => Lexer.isNumberPart
  | _ => fun _ => false

/-- The position that the turns of the loop move. -/
def State.position (s : State) : Nat :=
  match s.loop with
  | .regex _ ahead | .flags ahead => ahead
  | _ => s.offset

variable (text : List Char)

/-- Where a loop may stand: literals and regular expressions may skip a character behind the end. -/
def InRange (s : State) : Prop :=
  match s.loop with
  | .quoted _ _ start | .template _ start => start ≤ s.offset ∧ s.offset ≤ text.length + 1
  | .regex _ ahead => s.offset < text.length ∧ s.offset < ahead ∧ ahead ≤ text.length + 1
  | .flags ahead => s.offset < ahead ∧ ahead ≤ text.length
  | .division => s.offset < text.length
  | .word start => start ≤ s.offset ∧ s.offset ≤ text.length
  | _ => s.offset ≤ text.length

/-- The least offset at which the token loop can go on. -/
def State.reach (s : State) : Nat :=
  match s.loop with
  | .line | .word _ | .number _ =>
    if (text[s.offset]?).any s.loop.goesOn then s.offset + 1 else s.offset
  | .regex _ _ | .flags _ | .division => s.offset + 1
  | _ => s.offset

/-- What one turn does to the position. -/
structure Advances (s t : State) : Prop where
  inRange : InRange text t
  position : s.loop.skips → t.loop.skips → s.position < t.position
  starts : s.loop = .tokens → s.offset < t.reach text
  reach : s.loop ≠ .tokens → s.reach text ≤ t.reach text
  waits : t.loop.waits → t = { s with loop := t.loop } ∧ (s.loop = .tokens ∨ s.loop.waits)

/-- A turn that is no fault and goes on, if it does, as it should. -/
def Outcome.Sound (s : State) : Outcome → Prop
  | .next t => Advances text s t
  | .fault _ => False
  | _ => True

variable {text} {s t : State} {c : Char}

theorem lt_of_getElem? {i : Nat} (h : text[i]? = some c) : i < text.length :=
  (List.getElem?_eq_some_iff.1 h).1

theorem lt_of_any {i : Nat} {part : Char → Bool} (h : (text[i]?).any part = true) :
    i < text.length := by
  obtain ⟨c, hc, -⟩ := (Option.any_eq_true part _).1 h
  exact lt_of_getElem? hc

theorem le_reach (s : State) : s.offset ≤ s.reach text := by
  obtain ⟨loop, offset, line, ls, depths⟩ := s
  cases loop with
  | line | word | number =>
    show offset ≤ if _ then _ else _
    split
    · exact Nat.le_succ _
    · exact Nat.le_refl _
  | regex | flags | division => exact Nat.le_succ _
  | tokens | comment | quoted | template => exact Nat.le_refl _

theorem reach_of_goesOn (hs : s.loop.walks) (h : (text[s.offset]?).any s.loop.goesOn = true) :
    s.reach text = s.offset + 1 := by
  obtain ⟨loop, offset, line, ls, depths⟩ := s
  cases loop with
  | line | word | number => exact if_pos h
  | _ => cases hs

/-- A turn within a comment or a literal. -/
theorem Advances.within (hs : s.loop.reads) (hloop : t.loop = s.loop) (hlt : s.offset < t.offset)
    (ht : InRange text t) : Advances text s t := by
  obtain ⟨loop, offset, line, ls, depths⟩ := s
  obtain ⟨loop', offset', line', ls', depths'⟩ := t
  subst hloop
  cases loop' with
  | comment | quoted | template =>
    exact ⟨ht, fun _ _ => hlt, nofun, fun _ => Nat.le_of_lt hlt, nofun⟩
  | _ => cases hs

/-- A turn within a line, a name or a number. -/
theorem Advances.goOn (hs : s.loop.walks) (h : (text[s.offset]?).any s.loop.goesOn = true)
    (ht : InRange text { s with offset := s.offset + 1 }) :
    Advances text s { s with offset := s.offset + 1 } := by
  have hreach : s.reach text ≤ State.reach text { s with offset := s.offset + 1 } :=
    (reach_of_goesOn hs h).trans_le (le_reach { s with offset := s.offset + 1 })
  obtain ⟨loop, offset, line, ls, depths⟩ := s
  cases loop with
  | line | word | number =>
    exact ⟨ht, fun _ _ => Nat.lt_succ_self _, nofun, fun _ => hreach, nofun⟩
  | _ => cases hs

/-- A turn that ends a loop in the token loop. -/
theorem Advances.leave (hs : s.loop ≠ .tokens) (ht : t.loop = .tokens)
    (hreach : s.reach text ≤ t.offset) (hle : t.offset ≤ text.length) : Advances text s t := by
  obtain ⟨loop, offset, line, ls, depths⟩ := t
  cases ht
  exact ⟨hle, nofun, fun h => absurd h hs, fun _ => hreach, nofun⟩

theorem sound_cut {start stop : Nat} {goOn : List Char → State} (hstart : start ≤ stop)
    (hstop : stop ≤ text.length) (h : ∀ u, Advances text s (goOn u)) :
    (cut text start stop goOn).Sound text s := by
  unfold cut
  rw [if_pos ⟨hstart, hstop⟩]
  exact h _

/-! ## Turns of the loops -/

theorem lineEndWidth_le {i : Nat} (h : i ≤ text.length) :
    i + lineEndWidth text i ≤ text.length := by
  unfold lineEndWidth
  split
  · next hcrlf => exact lt_of_getElem? hcrlf.2
  split
  · next hend => exact lt_of_any hend
  · exact h

theorem skipEscape_loop (s : State) : (skipEscape text s).loop = s.loop := by
  unfold skipEscape
  split <;> rfl

/-- An escape is skipped up to one character behind the end of the text. -/
theorem skipEscape_offset (h : s.offset < text.length) :
    s.offset < (skipEscape text s).offset ∧ (skipEscape text s).offset ≤ text.length + 1 := by
  have hwidth := lineEndWidth_le (i := s.offset + 1) h
  unfold skipEscape
  split
  · dsimp only
    omega
  · dsimp only
    omega

theorem Advances.escape {opened : Place} {start : Nat}
    (hs : (∃ quote, s.loop = .quoted quote opened start) ∨ s.loop = .template opened start)
    (hstart : start ≤ s.offset) (hlt : s.offset < text.length) :
    Advances text s (skipEscape text s) := by
  have hloop : (skipEscape text s).loop = s.loop := skipEscape_loop s
  have ⟨hforward, hle⟩ := skipEscape_offset hlt
  have hin : InRange text (skipEscape text s) := by
    unfold InRange
    rw [hloop]
    rcases hs with ⟨quote, hs⟩ | hs
    all_goals
      rw [hs]
      exact ⟨hstart.trans (Nat.le_of_lt hforward), hle⟩
  exact .within (by rcases hs with ⟨quote, hs⟩ | hs <;> rw [hs] <;> rfl) hloop hforward hin

theorem sound_comment {opened : Place} (hs : s.loop = .comment opened) :
    (commentTurn text s opened).Sound text s := by
  obtain ⟨loop, offset, line, ls, depths⟩ := s
  cases hs
  unfold commentTurn
  split
  · trivial
  next c hc =>
  have hlt : offset < text.length := lt_of_getElem? hc
  split
  · next hclose => exact .leave nofun rfl (Nat.le_add_right _ 2) (lt_of_getElem? hclose.2)
  split
  · exact .within rfl rfl (Nat.lt_succ_self _) hlt
  · exact .within rfl rfl (Nat.lt_succ_self _) hlt

theorem sound_quoted {quote : Char} {opened : Place} {start : Nat}
    (hs : s.loop = .quoted quote opened start) (h : InRange text s) :
    (quotedTurn text s quote opened start).Sound text s := by
  obtain ⟨loop, offset, line, ls, depths⟩ := s
  cases hs
  obtain ⟨hstart, -⟩ : start ≤ offset ∧ offset ≤ text.length + 1 := h
  unfold quotedTurn
  split
  · trivial
  next c hc =>
  have hlt : offset < text.length := lt_of_getElem? hc
  split
  · trivial
  split
  · exact .escape (.inl ⟨quote, rfl⟩) hstart hlt
  split
  · refine sound_cut (Nat.le_min.2 ⟨hstart, by omega⟩) (Nat.min_le_right _ _) fun u => ?_
    exact .leave nofun rfl (Nat.le_succ _) hlt
  · exact .within rfl rfl (Nat.lt_succ_self _) ⟨Nat.le_succ_of_le hstart, Nat.le_succ_of_le hlt⟩

theorem sound_template {opened : Place} {start : Nat} (hs : s.loop = .template opened start)
    (h : InRange text s) : (templateTurn text s opened start).Sound text s := by
  obtain ⟨loop, offset, line, ls, depths⟩ := s
  cases hs
  obtain ⟨hstart, -⟩ : start ≤ offset ∧ offset ≤ text.length + 1 := h
  unfold templateTurn
  split
  · trivial
  next c hc =>
  have hlt : offset < text.length := lt_of_getElem? hc
  split
  · exact .escape (.inr rfl) hstart hlt
  split
  · exact .within rfl rfl (Nat.lt_succ_self _) ⟨Nat.le_succ_of_le hstart, Nat.le_succ_of_le hlt⟩
  split
  · split
    · exact sound_cut hstart hlt.le fun u => .leave nofun rfl (Nat.le_succ _) hlt
    · exact .leave nofun rfl (Nat.le_succ _) hlt
  split
  · next hopen => exact .leave nofun rfl (Nat.le_add_right _ 2) (lt_of_getElem? hopen.2)
  · exact .within rfl rfl (Nat.lt_succ_self _) ⟨Nat.le_succ_of_le hstart, Nat.le_succ_of_le hlt⟩

theorem sound_regex {inClass : Bool} {ahead : Nat} (hs : s.loop = .regex inClass ahead)
    (h : InRange text s) : (regexTurn text s inClass ahead).Sound text s := by
  obtain ⟨loop, offset, line, ls, depths⟩ := s
  cases hs
  obtain ⟨hoffset, hahead, -⟩ :
    offset < text.length ∧ offset < ahead ∧ ahead ≤ text.length + 1 := h
  have hdivision : Advances text ⟨.regex inClass ahead, offset, line, ls, depths⟩
      ⟨.division, offset, line, ls, depths⟩ :=
    ⟨hoffset, nofun, nofun, fun _ => Nat.le_refl _, fun _ => ⟨rfl, .inr rfl⟩⟩
  have hregex {inClass' : Bool} {i : Nat} (hi : ahead < i) (hle : i ≤ text.length + 1) :
      Advances text ⟨.regex inClass ahead, offset, line, ls, depths⟩
        ⟨.regex inClass' i, offset, line, ls, depths⟩ :=
    ⟨⟨hoffset, hahead.trans hi, hle⟩, fun _ _ => hi, nofun, fun _ => Nat.le_refl _,
      fun _ => ⟨rfl, .inr rfl⟩⟩
  unfold regexTurn
  split
  · exact hdivision
  next c hc =>
  have hlt : ahead < text.length := lt_of_getElem? hc
  split
  · exact hdivision
  split
  · exact hregex (Nat.lt_add_of_pos_right (by decide)) (Nat.succ_le_succ hlt)
  split
  · exact hregex (Nat.lt_succ_self _) (Nat.le_succ_of_le hlt)
  split
  · exact hregex (Nat.lt_succ_self _) (Nat.le_succ_of_le hlt)
  split
  · exact ⟨⟨Nat.lt_succ_of_lt hahead, hlt⟩, fun _ _ => Nat.lt_succ_self _, nofun,
      fun _ => Nat.le_refl _, fun _ => ⟨rfl, .inr rfl⟩⟩
  · exact hregex (Nat.lt_succ_self _) (Nat.le_succ_of_le hlt)

theorem sound_flags {ahead : Nat} (hs : s.loop = .flags ahead) (h : InRange text s) :
    (turn text s).Sound text s := by
  obtain ⟨loop, offset, line, ls, depths⟩ := s
  cases hs
  obtain ⟨hahead, hle⟩ : offset < ahead ∧ ahead ≤ text.length := h
  show (if _ then _ else _ : Outcome).Sound text _
  split
  · next hflag =>
    exact ⟨⟨Nat.lt_succ_of_lt hahead, lt_of_any hflag⟩, fun _ _ => Nat.lt_succ_self _, nofun,
      fun _ => Nat.le_refl _, fun _ => ⟨rfl, .inr rfl⟩⟩
  · exact .leave nofun rfl hahead hle

theorem sound_line (hs : s.loop = .line) (h : InRange text s) : (turn text s).Sound text s := by
  obtain ⟨loop, offset, line, ls, depths⟩ := s
  cases hs
  show (if _ then _ else _ : Outcome).Sound text _
  split
  · next hpart => exact .goOn rfl hpart (lt_of_any hpart)
  · next hpart => exact .leave nofun rfl (if_neg hpart).le h

theorem sound_word {start : Nat} (hs : s.loop = .word start) (h : InRange text s) :
    (turn text s).Sound text s := by
  obtain ⟨loop, offset, line, ls, depths⟩ := s
  cases hs
  obtain ⟨hstart, hle⟩ : start ≤ offset ∧ offset ≤ text.length := h
  show (if _ then _ else _ : Outcome).Sound text _
  split
  · next hpart => exact .goOn rfl hpart ⟨Nat.le_succ_of_le hstart, lt_of_any hpart⟩
  · next hpart => exact sound_cut hstart hle fun u => .leave nofun rfl (if_neg hpart).le hle

theorem sound_number {start : Nat} (hs : s.loop = .number start) (h : InRange text s) :
    (turn text s).Sound text s := by
  obtain ⟨loop, offset, line, ls, depths⟩ := s
  cases hs
  show (if _ then _ else _ : Outcome).Sound text _
  split
  · next hpart => exact .goOn rfl hpart (lt_of_any hpart)
  · next hpart => exact .leave nofun rfl (if_neg hpart).le h

theorem sound_division (hs : s.loop = .division) (h : InRange text s) :
    (turn text s).Sound text s := by
  obtain ⟨loop, offset, line, ls, depths⟩ := s
  cases hs
  exact .leave nofun rfl (Nat.le_refl _) h

/-! ## Turns between two tokens -/

/-- A turn of the token loop that stays in it. -/
theorem Advances.next (hs : s.loop = .tokens) (hlt : s.offset < text.length)
    (ht : t.loop = .tokens) (hoffset : t.offset = s.offset + 1) : Advances text s t := by
  obtain ⟨loop, offset, line, ls, depths⟩ := t
  cases ht
  cases hoffset
  exact ⟨hlt, nofun, fun _ => Nat.lt_succ_self _, fun h => absurd hs h, nofun⟩

/-- A turn of the token loop that enters a comment or a literal. -/
theorem Advances.enter (hs : s.loop = .tokens) (hreads : t.loop.reads) (hlt : s.offset < t.offset)
    (ht : InRange text t) : Advances text s t := by
  obtain ⟨loop, offset, line, ls, depths⟩ := s
  cases hs
  obtain ⟨loop, offset', line', ls', depths'⟩ := t
  cases loop with
  | comment | quoted | template => exact ⟨ht, nofun, fun _ => hlt, fun h => absurd rfl h, nofun⟩
  | _ => cases hreads

/-- A turn of the token loop that enters a loop which goes on with the character there. -/
theorem Advances.walk (hs : s.loop = .tokens) {loop : Loop} (hwalks : loop.walks)
    (h : (text[s.offset]?).any loop.goesOn = true) (ht : InRange text { s with loop }) :
    Advances text s { s with loop } := by
  have hreach : State.reach text { s with loop } = s.offset + 1 :=
    reach_of_goesOn (s := { s with loop }) hwalks h
  obtain ⟨_, offset, line, ls, depths⟩ := s
  cases hs
  cases loop with
  | line | word | number =>
    exact ⟨ht, nofun, fun _ => hreach.ge, fun h => absurd rfl h, nofun⟩
  | _ => cases hwalks

theorem sound_slash (hs : s.loop = .tokens) (hc : text[s.offset]? = some '/') :
    (slashTurn text s).Sound text s := by
  have hlt := lt_of_getElem? hc
  unfold slashTurn
  split
  · exact .walk hs rfl (by rw [hc]; rfl) hlt.le
  split
  · next hstar => exact .enter hs rfl (Nat.lt_add_of_pos_right (by decide)) (lt_of_getElem? hstar)
  split
  · obtain ⟨_, offset, line, ls, depths⟩ := s
    cases hs
    exact ⟨⟨hlt, Nat.lt_succ_self _, Nat.succ_le_succ hlt.le⟩, nofun, fun _ => Nat.lt_succ_self _,
      fun h => absurd rfl h, fun _ => ⟨rfl, .inl rfl⟩⟩
  · exact .next hs hlt rfl rfl

/-- A brace is closed only where one is open. -/
theorem sound_brace (hs : s.loop = .tokens) (hlt : s.offset < text.length) :
    (braceTurn s).Sound text s := by
  unfold braceTurn
  split
  · exact .next hs hlt rfl rfl
  · next depth outer _ =>
    split
    · exact .enter hs rfl (Nat.lt_succ_self _) ⟨Nat.le_refl _, Nat.le_succ_of_le hlt⟩
    · next hdepth =>
      obtain ⟨n, rfl⟩ := Nat.exists_eq_succ_of_ne_zero hdepth
      exact .next hs hlt rfl rfl

/-- Names and numbers begin with a character that they may go on with. -/
theorem sound_token (hs : s.loop = .tokens) : (tokenTurn text s).Sound text s := by
  unfold tokenTurn
  split
  · trivial
  next c hc =>
  have hlt := lt_of_getElem? hc
  split
  · exact .next hs hlt hs rfl
  split
  · exact .next hs hlt hs rfl
  split
  · next hslash => exact sound_slash hs (hslash ▸ hc)
  split
  · exact .enter hs rfl (Nat.lt_succ_self _) ⟨Nat.le_refl _, Nat.le_succ_of_le hlt⟩
  split
  · exact .enter hs rfl (Nat.lt_succ_self _) ⟨Nat.le_refl _, Nat.le_succ_of_le hlt⟩
  split
  · exact .next hs hlt rfl rfl
  split
  · exact sound_brace hs hlt
  split
  · next hword =>
    exact .walk hs rfl (by rw [hc]; exact isIdentPart_of_isIdentStart hword)
      ⟨Nat.le_refl _, hlt.le⟩
  split
  · next hdigit => exact .walk hs rfl (by rw [hc]; exact isNumberPart_of_isDigit hdigit) hlt.le
  · exact .next hs hlt rfl rfl

/-- A turn that begins in range is no fault, and what it goes on with is in range and further on. -/
theorem sound_turn (h : InRange text s) : (turn text s).Sound text s := by
  cases hs : s.loop with
  | tokens => unfold turn; rw [hs]; exact sound_token hs
  | line => exact sound_line hs h
  | comment => unfold turn; rw [hs]; exact sound_comment hs
  | quoted => unfold turn; rw [hs]; exact sound_quoted hs h
  | template => unfold turn; rw [hs]; exact sound_template hs h
  | regex => unfold turn; rw [hs]; exact sound_regex hs h
  | flags => exact sound_flags hs h
  | division => exact sound_division hs h
  | word => exact sound_word hs h
  | number => exact sound_number hs h

/-! ## Runs -/

theorem Next.advances (hn : Next text s t) (h : InRange text s) : Advances text s t := by
  have hsound := sound_turn h
  rwa [hn] at hsound

theorem inRange_start (text : List Char) : InRange text (start text) := by
  unfold start
  split
  · exact Nat.zero_le _
  · exact Nat.zero_le _

theorem Reachable.inRange (h : Reachable text s) : InRange text s := by
  induction h with
  | refl => exact inRange_start text
  | tail _ hn ih => exact (hn.advances ih).inRange

theorem InRange.le (h : InRange text s) :
    s.offset ≤ text.length + 1 ∧ s.position ≤ text.length + 1 := by
  obtain ⟨loop, offset, line, ls, depths⟩ := s
  cases loop with
  | quoted | template => exact ⟨h.2, h.2⟩
  | regex => exact ⟨Nat.le_succ_of_le (Nat.le_of_lt h.1), h.2.2⟩
  | flags => exact ⟨Nat.le_succ_of_le (h.1.le.trans h.2), Nat.le_succ_of_le h.2⟩
  | division => exact ⟨Nat.le_succ_of_le (Nat.le_of_lt h), Nat.le_succ_of_le (Nat.le_of_lt h)⟩
  | word => exact ⟨Nat.le_succ_of_le h.2, Nat.le_succ_of_le h.2⟩
  | tokens | line | comment | number => exact ⟨Nat.le_succ_of_le h, Nat.le_succ_of_le h⟩

/-- A state within a round of the token loop, which begins between two tokens and ends at the next
place between two tokens. -/
inductive Round (text : List Char) : State → State → Prop
  | enter {s t : State} (hs : s.loop = .tokens) (hn : Next text s t) : Round text s t
  | turn {s t u : State} (h : Round text s t) (ht : t.loop ≠ .tokens) (hn : Next text t u) :
      Round text s u

/-- A round is sure to get behind its start, which it keeps while it waits there. -/
theorem Round.advances (hr : Round text s t) (h : InRange text s) :
    InRange text t ∧ s.offset < t.reach text ∧ (t.loop.waits → t = { s with loop := t.loop }) := by
  induction hr with
  | enter hs hn =>
    have hadvances := hn.advances h
    exact ⟨hadvances.inRange, hadvances.starts hs, fun hw => (hadvances.waits hw).1⟩
  | turn hr ht hn ih =>
    obtain ⟨hin, hreach, hwaits⟩ := ih
    have hadvances := hn.advances hin
    refine ⟨hadvances.inRange, hreach.trans_le (hadvances.reach ht), fun hw => ?_⟩
    obtain ⟨hu, htokens | hwait⟩ := hadvances.waits hw
    · exact absurd htokens ht
    · rw [hu, hwaits hwait]

/--
The scanner passes all states that the lexer is in between two steps, and ends with what the lexer
gives, whatever state it has reached. There it is at most one character behind the end of the text,
its next turn is no fault, and a turn within a loop moves the position of the loop forward. So does
a round of the token loop, and a regular expression that is not found leaves the state as it was.
-/
theorem scanner_in_range (text : List Char) :
    (∀ s, Lexer.Visits text s → Reachable text (.between s)) ∧
      ∀ s, Reachable text s →
        (∃ t, Path text s t ∧ turn text t = .ofResult (lexemes text)) ∧
        (s.offset ≤ text.length + 1 ∧ s.position ≤ text.length + 1) ∧
        (∀ f, turn text s ≠ .fault f) ∧
        (∀ t, Next text s t → s.loop.skips → t.loop.skips → s.position < t.position) ∧
        ∀ t, Round text s t →
          (t.loop = .tokens → s.offset < t.offset) ∧
          (t.loop = .division → t = { s with loop := .division }) := by
  refine ⟨fun s hs => reachable_of_visits hs, fun s hs => ?_⟩
  have hin := hs.inRange
  refine ⟨hs.exists_end, hin.le, ?_, ?_, ?_⟩
  · intro f hf
    have hsound := sound_turn hin
    rw [hf] at hsound
    exact hsound
  · intro t hn
    exact (hn.advances hin).position
  · intro t hr
    obtain ⟨-, hreach, hwaits⟩ := hr.advances hin
    constructor
    · intro ht
      have htokens : t.reach text = t.offset := by
        unfold State.reach
        rw [ht]
      exact hreach.trans_eq htokens
    · intro ht
      have hwait := hwaits (by rw [ht]; rfl)
      rwa [ht] at hwait

/-- A backslash at the end of an open string is skipped with a character behind the end. -/
example :
    let text := ['"', '\\']
    let inside (offset : Nat) : State := ⟨.quoted '"' ⟨0, 1⟩ 1, offset, 1, [], []⟩
    turn text (start text) = .next (inside 1) ∧ turn text (inside 1) = .next (inside 3) ∧
      turn text (inside 3) = .failed ⟨.stringLiteral, ⟨0, 1⟩⟩ := by decide

end PackageMap.Source.Scanner
