import Mathlib
import PackageMap.Proofs.Source.Separated

/-!
# What is reported

A specifier is reported if and only if some token of the text makes a reference to it
(`scan_lists_iff`). A call of `require` makes one unless a dot stands right before it
(`referenceAt_call`). What the dot belongs to is not looked at, so a call behind a spread is passed
over like a member.
-/

namespace PackageMap.Source

variable {before : Option Token} {ls : List Lexeme} {i : Nat} {v : String}

/-! ## Tokens of a list -/

def tokenAt (ls : List Lexeme) (i : Nat) : Option Token := ls[i]?.map Lexeme.token

/-- The token before an index of a list that comes after the token `before`. -/
def tokenBefore (before : Option Token) (ls : List Lexeme) : Nat → Option Token
  | 0 => before
  | i + 1 => tokenAt ls i

/-- The reference that the token at an index makes. -/
def referenceAt (before : Option Token) (ls : List Lexeme) (i : Nat) : Option Reference :=
  match ls.drop i with
  | [] => none
  | x :: rest => reference? (tokenBefore before ls i) x.token rest

theorem tokenBefore_cons_succ (before : Option Token) (x : Lexeme) (ls : List Lexeme) (i : Nat) :
    tokenBefore before (x :: ls) (i + 1) = tokenBefore (some x.token) ls i := by
  cases i with
  | zero => rfl
  | succ i => rfl

theorem referenceAt_cons_succ (before : Option Token) (x : Lexeme) (ls : List Lexeme) (i : Nat) :
    referenceAt before (x :: ls) (i + 1) = referenceAt (some x.token) ls i := by
  unfold referenceAt
  rw [tokenBefore_cons_succ]
  rfl

/-! ## Lists of references -/

theorem listed_record {found : List Reference} {r : Reference} :
    Reference.Listed (record found r) v ↔
      Reference.Listed found v ∨ v ≠ "" ∧ r.specifier = v := by
  by_cases hr : r.specifier = "" ∨ Reference.Listed found r.specifier
  · rw [record_of_listed hr]
    refine ⟨.inl, fun h => h.elim id ?_⟩
    rintro ⟨hv, rfl⟩
    exact hr.resolve_left hv
  · have hempty : r.specifier ≠ "" := fun he => hr (.inl he)
    rw [record_of_not_listed hr, Reference.listed_iff, Reference.listed_iff]
    simp only [List.mem_cons, exists_eq_or_imp]
    constructor
    · rintro (rfl | h)
      · exact .inr ⟨hempty, rfl⟩
      · exact .inl h
    · rintro (h | ⟨-, h⟩)
      · exact .inr h
      · exact .inl h

/-- What is listed in the end was listed before, or some token refers to it. -/
theorem listed_collect_iff {found : List Reference} :
    Reference.Listed (collect before found ls) v ↔
      Reference.Listed found v ∨
        v ≠ "" ∧ ∃ i, ∃ r ∈ referenceAt before ls i, r.specifier = v := by
  induction ls generalizing before found with
  | nil =>
    have hnone (i : Nat) : referenceAt before [] i = none := by
      unfold referenceAt
      rw [List.drop_nil]
    simp [collect, hnone]
  | cons x ls ih =>
    have hsplit : (∃ i, ∃ r ∈ referenceAt before (x :: ls) i, r.specifier = v) ↔
        (∃ r ∈ reference? before x.token ls, r.specifier = v) ∨
          ∃ i, ∃ r ∈ referenceAt (some x.token) ls i, r.specifier = v := by
      rw [← Nat.or_exists_add_one]
      simp only [referenceAt_cons_succ]
      rfl
    rw [collect, ih, hsplit]
    cases reference? before x.token ls with
    | none => simp
    | some r =>
      simp only [listed_record, Option.mem_some_iff, exists_eq_left', and_or_left, or_assoc]

/-! ## Calls -/

/-- A call `require("v")` that begins at an index. -/
structure CallAt (ls : List Lexeme) (i : Nat) (v : String) : Prop where
  name : tokenAt ls i = some (.ident "require")
  opening : tokenAt ls (i + 1) = some (.punct '(')
  literal : tokenAt ls (i + 2) = some (.literal v)
  closing : tokenAt ls (i + 3) = some (.punct ')')

def DotBefore (ls : List Lexeme) (i : Nat) : Prop := tokenBefore none ls i = some (.punct '.')

/-- The three dots of a spread stand before an index. -/
def SpreadBefore (ls : List Lexeme) (i : Nat) : Prop :=
  ∃ j, i = j + 3 ∧ ∀ k < 3, tokenAt ls (j + k) = some (.punct '.')

/-- The token at an index is named after a dot, which is none of a spread. -/
def IsMember (ls : List Lexeme) (i : Nat) : Prop := DotBefore ls i ∧ ¬ SpreadBefore ls i

theorem SpreadBefore.dotBefore (h : SpreadBefore ls i) : DotBefore ls i := by
  obtain ⟨j, rfl, hdots⟩ := h
  exact hdots 2 (by decide)

theorem drop_eq_cons_of_tokenAt {token : Token} (h : tokenAt ls i = some token) :
    ∃ p, ls.drop i = ⟨token, p⟩ :: ls.drop (i + 1) := by
  obtain ⟨x, hx, rfl⟩ := Option.map_eq_some_iff.1 h
  obtain ⟨hi, rfl⟩ := List.getElem?_eq_some_iff.1 hx
  exact ⟨ls[i].place, List.drop_eq_getElem_cons hi⟩

/-- A call makes a reference to its literal if no dot stands before it, and else it makes none. -/
theorem referenceAt_call (h : CallAt ls i v) :
    (DotBefore ls i → referenceAt none ls i = none) ∧
      (¬ DotBefore ls i → ∃ p, referenceAt none ls i = some ⟨v, .cjsRequire, p⟩) := by
  obtain ⟨p, hname⟩ := drop_eq_cons_of_tokenAt h.name
  obtain ⟨p₁, hopening⟩ := drop_eq_cons_of_tokenAt h.opening
  obtain ⟨p₂, hliteral⟩ := drop_eq_cons_of_tokenAt h.literal
  obtain ⟨p₃, hclosing⟩ := drop_eq_cons_of_tokenAt h.closing
  unfold referenceAt reference?
  rw [hname, hopening, hliteral, hclosing]
  constructor
  · intro hdot
    exact if_pos hdot
  · intro hdot
    exact ⟨p₂, if_neg hdot⟩

/-! ## Texts -/

/-- What is reported of a text is what its tokens refer to, but for the empty specifier. -/
theorem scan_lists_iff {text : String} {rs : List Reference} (h : scan text = .ok rs)
    (hl : lexemes text.toList = .ok ls) :
    Reference.Listed rs v ↔ v ≠ "" ∧ ∃ i, ∃ r ∈ referenceAt none ls i, r.specifier = v := by
  unfold scan at h
  rw [hl] at h
  obtain rfl := Except.ok.inj h
  rw [Reference.listed_reverse, listed_collect_iff]
  refine or_iff_right fun hempty => ?_
  cases hempty

/-- The specifier of a call that is no member is reported if and only if no spread stands before the
call, or another token refers to the same. -/
theorem scan_lists_call_iff {text : String} {rs : List Reference} (h : scan text = .ok rs)
    (hl : lexemes text.toList = .ok ls) (hcall : CallAt ls i v) (hv : v ≠ "")
    (hplain : ¬ IsMember ls i) :
    Reference.Listed rs v ↔
      ¬ SpreadBefore ls i ∨ ∃ j, j ≠ i ∧ ∃ r ∈ referenceAt none ls j, r.specifier = v := by
  obtain ⟨hdotted, hundotted⟩ := referenceAt_call hcall
  rw [scan_lists_iff h hl]
  constructor
  · rintro ⟨-, j, r, hr, hs⟩
    by_cases hspread : SpreadBefore ls i
    · refine .inr ⟨j, ?_, r, hr, hs⟩
      rintro rfl
      rw [hdotted hspread.dotBefore] at hr
      cases hr
    · exact .inl hspread
  · rintro (hspread | ⟨j, -, hj⟩)
    · obtain ⟨p, hp⟩ := hundotted fun hdot => hplain ⟨hdot, hspread⟩
      exact ⟨hv, i, _, hp, rfl⟩
    · exact ⟨hv, j, hj⟩

/-- The tokens of a call with two arguments, the second of which spreads what the first is. -/
def spreadTwice : List Lexeme :=
  [⟨.ident "f", ⟨0, 1⟩⟩, ⟨.punct '(', ⟨1, 1⟩⟩, ⟨.ident "require", ⟨2, 1⟩⟩, ⟨.punct '(', ⟨9, 1⟩⟩,
    ⟨.literal "x", ⟨10, 1⟩⟩, ⟨.punct ')', ⟨13, 1⟩⟩, ⟨.punct ',', ⟨14, 1⟩⟩, ⟨.punct '.', ⟨15, 1⟩⟩,
    ⟨.punct '.', ⟨16, 1⟩⟩, ⟨.punct '.', ⟨17, 1⟩⟩, ⟨.ident "require", ⟨18, 1⟩⟩,
    ⟨.punct '(', ⟨25, 1⟩⟩, ⟨.literal "x", ⟨26, 1⟩⟩, ⟨.punct ')', ⟨29, 1⟩⟩, ⟨.punct ')', ⟨30, 1⟩⟩]

theorem scan_lists_call_iff_twice :
    scan "f(require('x'),...require('x'))" = .ok [⟨"x", .cjsRequire, ⟨10, 1⟩⟩] ∧
      lexemes "f(require('x'),...require('x'))".toList = .ok spreadTwice ∧
      CallAt spreadTwice 10 "x" ∧ ¬ IsMember spreadTwice 10 ∧
      Reference.Listed [⟨"x", .cjsRequire, ⟨10, 1⟩⟩] "x" := by
  have h : scan "f(require('x'),...require('x'))" = .ok [⟨"x", .cjsRequire, ⟨10, 1⟩⟩] := by cbv
  have hl : lexemes "f(require('x'),...require('x'))".toList = .ok spreadTwice := by cbv
  have hcall : CallAt spreadTwice 10 "x" := ⟨rfl, rfl, rfl, rfl⟩
  have hspread : SpreadBefore spreadTwice 10 := ⟨7, rfl, by decide⟩
  have hplain : ¬ IsMember spreadTwice 10 := fun hmember => hmember.2 hspread
  -- the first argument refers to the same
  have hother : ∃ r ∈ referenceAt none spreadTwice 2, r.specifier = "x" := ⟨_, rfl, rfl⟩
  exact ⟨h, hl, hcall, hplain,
    (scan_lists_call_iff h hl hcall (by decide) hplain).2 (.inr ⟨2, by decide, hother⟩)⟩

/-- A call behind a spread is passed over, although it is no member of anything. -/
theorem scan_misses_spread :
    ∃ ls, lexemes "x=\x7b...require('./base')\x7d".toList = .ok ls ∧ CallAt ls 6 "./base" ∧
      ¬ IsMember ls 6 ∧ scan "x=\x7b...require('./base')\x7d" = .ok [] := by
  have hl : lexemes "x=\x7b...require('./base')\x7d".toList =
      .ok [⟨.ident "x", ⟨0, 1⟩⟩, ⟨.punct '=', ⟨1, 1⟩⟩, ⟨.punct '\x7b', ⟨2, 1⟩⟩,
        ⟨.punct '.', ⟨3, 1⟩⟩, ⟨.punct '.', ⟨4, 1⟩⟩, ⟨.punct '.', ⟨5, 1⟩⟩,
        ⟨.ident "require", ⟨6, 1⟩⟩, ⟨.punct '(', ⟨13, 1⟩⟩, ⟨.literal "./base", ⟨14, 1⟩⟩,
        ⟨.punct ')', ⟨22, 1⟩⟩, ⟨.punct '\x7d', ⟨23, 1⟩⟩] := by cbv
  refine ⟨_, hl, ⟨rfl, rfl, rfl, rfl⟩, ?_, by cbv⟩
  exact fun hmember => hmember.2 ⟨3, rfl, by decide⟩

end PackageMap.Source
