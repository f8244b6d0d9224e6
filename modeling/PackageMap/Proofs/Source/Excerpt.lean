import PackageMap.Source.Cursor

/-!
# Quotes and escapes

A literal is what stands between its opening quote and the next such quote that is not escaped. The
readers return just this text (`readString_ends`, `readTemplate_ends`), and they fail only where the
text behind the opening quote holds no such end (`unclosed_of_readString`,
`unclosed_of_readTemplate`).
-/

namespace PackageMap.Source

/-! ## Escapes -/

/-- Whether a text, newest character first, escapes the character behind it: it ends in a backslash
that is not escaped itself. -/
def escapes : List Char → Bool
  | '\\' :: before => !escapes before
  | _ => false

/-- The character behind the text is escaped. -/
def Escaped (u : List Char) : Prop := escapes u.reverse = true

theorem escapes_of_ne {a : Char} (h : a ≠ '\\') (before : List Char) :
    escapes (a :: before) = false := by
  unfold escapes
  split
  · next heq => exact absurd (List.cons.inj heq).1 h
  · rfl

theorem escapes_append_of_ne {a : Char} (h : a ≠ '\\') (u : List Char) :
    escapes (u ++ [a]) = escapes u := by
  induction u with
  | nil => exact escapes_of_ne h []
  | cons b u ih =>
    by_cases hb : b = '\\'
    · subst hb
      exact congrArg not ih
    · rw [List.cons_append, escapes_of_ne hb, escapes_of_ne hb]

theorem escapes_append_pair (a : Char) (u : List Char) :
    escapes (u ++ [a, '\\']) = escapes u := by
  induction u with
  | nil =>
    by_cases ha : a = '\\'
    · subst ha
      rfl
    · exact escapes_of_ne ha _
  | cons b u ih =>
    by_cases hb : b = '\\'
    · subst hb
      exact congrArg not ih
    · rw [List.cons_append, escapes_of_ne hb, escapes_of_ne hb]

theorem not_escaped_nil : ¬ Escaped [] := nofun

theorem escaped_backslash : Escaped ['\\'] := rfl

theorem escaped_cons {a : Char} (h : a ≠ '\\') {u : List Char} : Escaped (a :: u) ↔ Escaped u := by
  unfold Escaped
  rw [List.reverse_cons, escapes_append_of_ne h]

theorem escaped_pair {a : Char} {u : List Char} : Escaped ('\\' :: a :: u) ↔ Escaped u := by
  unfold Escaped
  rw [List.reverse_cons, List.reverse_cons, List.append_assoc]
  exact Bool.eq_iff_iff.1 (escapes_append_pair a u.reverse)

/-! ## What is escaped throughout -/

/-- Wherever the text goes on with `w`, the character there is escaped. -/
def AllEscaped (w text : List Char) : Prop := ∀ u v, text = u ++ (w ++ v) → Escaped u

namespace AllEscaped

variable {a b : Char} {w text : List Char}

theorem nil : AllEscaped (a :: w) [] := by
  intro u v h
  cases u <;> cases h

theorem backslash (ha : a ≠ '\\') : AllEscaped (a :: w) ['\\'] := by
  intro u v h
  rcases u with _ | ⟨b, _ | ⟨c, u⟩⟩
  · exact absurd (List.cons.inj h).1.symm ha
  · obtain ⟨-, hnil⟩ := List.cons.inj h
    cases hnil
  · obtain ⟨-, hnil⟩ := List.cons.inj h
    cases hnil

theorem cons (hb : b ≠ '\\') (hw : ¬ w <+: b :: text) (h : AllEscaped w text) :
    AllEscaped w (b :: text) := by
  intro u v hu
  cases u with
  | nil => exact absurd ⟨v, hu.symm⟩ hw
  | cons c u =>
    obtain ⟨rfl, hrest⟩ := List.cons.inj hu
    exact (escaped_cons hb).2 (h u v hrest)

theorem pair (ha : a ≠ '\\') (h : AllEscaped (a :: w) text) :
    AllEscaped (a :: w) ('\\' :: b :: text) := by
  intro u v hu
  rcases u with _ | ⟨c, _ | ⟨d, u⟩⟩
  · exact absurd (List.cons.inj hu).1.symm ha
  · obtain ⟨rfl, -⟩ := List.cons.inj hu
    exact escaped_backslash
  · obtain ⟨hc, hpair⟩ := List.cons.inj hu
    obtain ⟨-, hrest⟩ := List.cons.inj hpair
    rw [← hc]
    exact escaped_pair.2 (h u v hrest)

end AllEscaped

theorem singleton_prefix_iff {a b : Char} {text : List Char} : [a] <+: b :: text ↔ b = a := by
  constructor
  · rintro ⟨v, hv⟩
    exact (List.cons.inj hv).1.symm
  · rintro rfl
    exact ⟨text, rfl⟩

/-- The text stands between quotes: it ends before the first quote that is not escaped. -/
structure Enclosed (quote : Char) (body : List Char) : Prop where
  inside : AllEscaped [quote] body
  closed : ¬ Escaped body

namespace Enclosed

variable {quote a : Char} {body : List Char}

theorem nil (quote : Char) : Enclosed quote [] := ⟨.nil, not_escaped_nil⟩

theorem cons (ha : a ≠ '\\') (hq : a ≠ quote) (h : Enclosed quote body) :
    Enclosed quote (a :: body) :=
  ⟨h.inside.cons ha (mt singleton_prefix_iff.1 hq), mt (escaped_cons ha).1 h.closed⟩

theorem pair (hq : quote ≠ '\\') (h : Enclosed quote body) : Enclosed quote ('\\' :: a :: body) :=
  ⟨h.inside.pair hq, mt escaped_pair.1 h.closed⟩

end Enclosed

/-! ## Where readers stop -/

variable {offset line : Nat} {r taken text : List Char} {c : Cursor}

/-- What a stretch of template text ends in. -/
def TemplateEnd.mark : TemplateEnd → List Char
  | .closed => ['`']
  | .interpolation => ['$', '\x7b']

theorem readString_ends {quote : Char} (hquote : quote = '"' ∨ quote = '\'')
    (h : readString quote r offset line taken = some (text, c)) :
    ∃ body, text = taken.reverse ++ body ∧ r = body ++ quote :: c.rest ∧ Enclosed quote body := by
  have hback : quote ≠ '\\' := by rcases hquote with rfl | rfl <;> decide
  have hfeed : '\n' ≠ quote := by rcases hquote with rfl | rfl <;> decide
  fun_induction readString quote r offset line taken with
  | case1 => cases h
  | case2 r offset line taken ih =>
    obtain ⟨body, rfl, rfl, hbody⟩ := ih h
    exact ⟨'\\' :: '\r' :: '\n' :: body, by simp, rfl, (hbody.cons (by decide) hfeed).pair hback⟩
  | case3 a r offset line taken hne ih =>
    obtain ⟨body, rfl, rfl, hbody⟩ := ih h
    exact ⟨'\\' :: a :: body, by simp, rfl, hbody.pair hback⟩
  | case4 => cases h
  | case5 => cases h; exact ⟨[], by simp, rfl, .nil _⟩
  | case6 a r offset line taken hcr hesc hn hq ih =>
    obtain ⟨body, rfl, rfl, hbody⟩ := ih h
    have ha : a ≠ '\\' := by
      intro ha
      obtain ⟨b, r', hr⟩ := List.exists_cons_of_ne_nil (l := body ++ quote :: c.rest) (by simp)
      exact hesc b r' ha hr
    exact ⟨a :: body, by simp, rfl, hbody.cons ha hq⟩

theorem readTemplate_ends {how : TemplateEnd}
    (h : readTemplate r offset line taken = some (text, how, c)) :
    ∃ body, text = taken.reverse ++ body ∧ r = body ++ (how.mark ++ c.rest) ∧
      Enclosed '`' body := by
  fun_induction readTemplate r offset line taken with
  | case1 => cases h
  | case2 r offset line taken ih =>
    obtain ⟨body, rfl, rfl, hbody⟩ := ih h
    exact ⟨'\\' :: '\r' :: '\n' :: body, by simp, rfl,
      (hbody.cons (by decide) (by decide)).pair (by decide)⟩
  | case3 a r offset line taken hne ih =>
    obtain ⟨body, rfl, rfl, hbody⟩ := ih h
    exact ⟨'\\' :: a :: body, by simp, rfl, hbody.pair (by decide)⟩
  | case4 => cases h; exact ⟨[], by simp, rfl, .nil _⟩
  | case5 => cases h; exact ⟨[], by simp, rfl, .nil _⟩
  | case6 a r offset line taken hcr hesc hd hq ih =>
    obtain ⟨body, rfl, rfl, hbody⟩ := ih h
    have ha : a ≠ '\\' := by
      intro ha
      have hne : body ++ (how.mark ++ c.rest) ≠ [] := by cases how <;> simp [TemplateEnd.mark]
      obtain ⟨b, r', hr⟩ := List.exists_cons_of_ne_nil hne
      exact hesc b r' ha hr
    exact ⟨a :: body, by simp, rfl, hbody.cons ha hq⟩

/-! ## Where readers fail -/

/-- The string is not closed before its line ends, if the line ends. -/
def UnclosedString (quote : Char) (r : List Char) : Prop :=
  ∃ body after, r = body ++ after ∧ AllEscaped [quote] body ∧
    (after = [] ∨ after.head? = some '\n' ∧ ¬ Escaped body)

namespace UnclosedString

variable {quote a : Char}

theorem cons (ha : a ≠ '\\') (hq : a ≠ quote) (h : UnclosedString quote r) :
    UnclosedString quote (a :: r) := by
  obtain ⟨body, after, rfl, hbody, hafter⟩ := h
  exact ⟨a :: body, after, rfl, hbody.cons ha (mt singleton_prefix_iff.1 hq),
    hafter.imp_right (And.imp_right (mt (escaped_cons ha).1))⟩

theorem pair (hq : quote ≠ '\\') (h : UnclosedString quote r) :
    UnclosedString quote ('\\' :: a :: r) := by
  obtain ⟨body, after, rfl, hbody, hafter⟩ := h
  exact ⟨'\\' :: a :: body, after, rfl, hbody.pair hq,
    hafter.imp_right (And.imp_right (mt escaped_pair.1))⟩

end UnclosedString

/-- The stretch of template text goes on to the end of the text. -/
structure UnclosedTemplate (r : List Char) : Prop where
  backtick : AllEscaped ['`'] r
  interpolation : AllEscaped ['$', '\x7b'] r

namespace UnclosedTemplate

variable {a : Char}

theorem cons (ha : a ≠ '\\') (hq : a ≠ '`') (hd : ¬ ['$', '\x7b'] <+: a :: r)
    (h : UnclosedTemplate r) : UnclosedTemplate (a :: r) :=
  ⟨h.backtick.cons ha (mt singleton_prefix_iff.1 hq), h.interpolation.cons ha hd⟩

theorem pair (h : UnclosedTemplate r) : UnclosedTemplate ('\\' :: a :: r) :=
  ⟨h.backtick.pair (by decide), h.interpolation.pair (by decide)⟩

end UnclosedTemplate

theorem unclosed_of_skipComment (h : skipComment r offset line = none) :
    ¬ ['*', '/'] <:+: r := by
  fun_induction skipComment r offset line with
  | case1 => simp
  | case2 => cases h
  | case3 a r offset line hne ih =>
    intro hinfix
    rcases List.infix_cons_iff.1 hinfix with ⟨r', hr'⟩ | hinfix
    · obtain ⟨ha, hr'⟩ := List.cons.inj hr'
      exact hne r' ha.symm hr'.symm
    · exact ih h hinfix

theorem unclosed_of_readString {quote : Char} (hquote : quote = '"' ∨ quote = '\'')
    (h : readString quote r offset line taken = none) : UnclosedString quote r := by
  have hback : quote ≠ '\\' := by rcases hquote with rfl | rfl <;> decide
  have hfeed : '\n' ≠ quote := by rcases hquote with rfl | rfl <;> decide
  fun_induction readString quote r offset line taken with
  | case1 => exact ⟨[], [], rfl, .nil, .inl rfl⟩
  | case2 r offset line taken ih => exact ((ih h).cons (by decide) hfeed).pair hback
  | case3 a r offset line taken hne ih => exact (ih h).pair hback
  | case4 r => exact ⟨[], '\n' :: r, rfl, .nil, .inr ⟨rfl, not_escaped_nil⟩⟩
  | case5 => cases h
  | case6 a r offset line taken hcr hesc hn hq ih =>
    by_cases ha : a = '\\'
    · cases r with
      | nil => exact ⟨['\\'], [], by rw [ha]; rfl, .backslash hback, .inl rfl⟩
      | cons b r => exact (hesc b r ha rfl).elim
    · exact (ih h).cons ha hq

theorem unclosed_of_readTemplate (h : readTemplate r offset line taken = none) :
    UnclosedTemplate r := by
  fun_induction readTemplate r offset line taken with
  | case1 => exact ⟨.nil, .nil⟩
  | case2 r offset line taken ih =>
    exact ((ih h).cons (by decide) (by decide) (by simp)).pair
  | case3 a r offset line taken hne ih => exact (ih h).pair
  | case4 => cases h
  | case5 => cases h
  | case6 a r offset line taken hcr hesc hd hq ih =>
    by_cases ha : a = '\\'
    · cases r with
      | nil => exact ha ▸ ⟨.backslash (by decide), .backslash (by decide)⟩
      | cons b r => exact (hesc b r ha rfl).elim
    · refine (ih h).cons ha hq ?_
      rintro ⟨r', hr'⟩
      obtain ⟨hdollar, hbrace⟩ := List.cons.inj hr'
      exact hd r' hdollar.symm hbrace.symm

end PackageMap.Source
