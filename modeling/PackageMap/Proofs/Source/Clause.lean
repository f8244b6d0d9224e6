import PackageMap.Proofs.Source.Reported

/-!
# Clauses and their sources

The source of a clause is the literal behind the first `from` that a literal follows. It is found if
and only if that `from` is one of the next 512 tokens and nothing but tokens of a clause stands
before it (`clauseIndex?_eq_some_iff`), whatever stands behind the literal.

1. One turn of the search moves the start of a clause by one token (`ClauseTo.step_iff`), so the
   turns find what the grammar says (`literalIndex?_eq_some_iff`).
2. The search by indices and the one in the rest of the tokens find the same literal
   (`clauseSource_eq_some_iff`).
-/

namespace PackageMap.Source

variable {ls : List Lexeme} {turns start i j k : Nat} {token : Token} {v : String}

theorem tokenAt_eq_head? (ls : List Lexeme) (i : Nat) :
    tokenAt ls i = (ls.drop i).head?.map Lexeme.token := by
  rw [List.head?_drop]
  rfl

theorem tokenAt_eq_none_iff : tokenAt ls i = none ↔ ls.length ≤ i := by
  simp [tokenAt]

/-! ## The grammar of a clause -/

/-- A token that may stand between `import` or `export` and the `from` of its source. -/
inductive ClauseToken : Token → Prop
  | name {name : String} (himport : name ≠ "import") (hexport : name ≠ "export") :
      ClauseToken (.ident name)
  | openBrace : ClauseToken (.punct '\x7b')
  | closeBrace : ClauseToken (.punct '\x7d')
  | comma : ClauseToken (.punct ',')
  | star : ClauseToken (.punct '*')

theorem inClause_iff : token.inClause = true ↔ ClauseToken token := by
  constructor
  · intro h
    cases token with
    | ident name =>
      simp only [Token.inClause, Bool.and_eq_true, bne_iff_ne] at h
      exact .name h.1 h.2
    | punct c =>
      simp only [Token.inClause, Bool.or_eq_true, beq_iff_eq] at h
      obtain ((rfl | rfl) | rfl) | rfl := h
      · exact .openBrace
      · exact .closeBrace
      · exact .comma
      · exact .star
    | literal text => cases h
    | other => cases h
  · rintro (⟨himport, hexport⟩ | _ | _ | _ | _)
    · simp [Token.inClause, himport, hexport]
    all_goals rfl

/-- The word `from` stands at an index and a literal behind it. -/
structure FromAt (ls : List Lexeme) (k : Nat) : Prop where
  word : tokenAt ls k = some (.ident "from")
  literal : ∃ v, tokenAt ls (k + 1) = some (.literal v)

/-- The tokens of a clause reach from an index to the first `from` that a literal follows, which is
at `k` and one of the first `limit`. -/
structure ClauseTo (ls : List Lexeme) (limit start k : Nat) : Prop where
  le : start ≤ k
  lt : k < start + limit
  source : FromAt ls k
  first : ∀ i, start ≤ i → i < k → ¬ FromAt ls i
  tokens : ∀ i, start ≤ i → i < k → ∃ token, tokenAt ls i = some token ∧ ClauseToken token

theorem ClauseTo.of_fromAt (h : FromAt ls start) : ClauseTo ls (turns + 1) start k ↔ k = start := by
  constructor
  · intro hk
    by_contra hne
    exact hk.first start (Nat.le_refl _) (Nat.lt_of_le_of_ne hk.le (Ne.symm hne)) h
  · rintro rfl
    exact ⟨Nat.le_refl _, by omega, h, fun i hle hlt => absurd hlt (by omega),
      fun i hle hlt => absurd hlt (by omega)⟩

/-- A clause that does not end at once goes on behind its first token. -/
theorem ClauseTo.step_iff (h : ¬ FromAt ls start) :
    ClauseTo ls (turns + 1) start k ↔
      (∃ token, tokenAt ls start = some token ∧ ClauseToken token) ∧
        ClauseTo ls turns (start + 1) k := by
  constructor
  · intro hk
    have hlt : start < k := by
      refine Nat.lt_of_le_of_ne hk.le ?_
      rintro rfl
      exact h hk.source
    have hlimit := hk.lt
    exact ⟨hk.tokens start (Nat.le_refl _) hlt, hlt, by omega, hk.source,
      fun i hle => hk.first i (by omega), fun i hle => hk.tokens i (by omega)⟩
  · rintro ⟨htoken, hk⟩
    have hle := hk.le
    have hlimit := hk.lt
    refine ⟨by omega, by omega, hk.source, fun i hi hlt => ?_, fun i hi hlt => ?_⟩
    · rcases Nat.eq_or_lt_of_le hi with rfl | hi
      · exact h
      · exact hk.first i hi hlt
    · rcases Nat.eq_or_lt_of_le hi with rfl | hi
      · exact htoken
      · exact hk.tokens i hi hlt

/-! ## The search by indices -/

/-- The index of the literal behind the first `from` that a literal follows, which is searched for
in `turns` tokens from an index on. -/
def literalIndex? (ls : List Lexeme) : Nat → Nat → Option Nat
  | 0, _ => none
  | turns + 1, i =>
    match tokenAt ls i, tokenAt ls (i + 1) with
    | some (.ident "from"), some (.literal _) => some (i + 1)
    | some token, _ => if token.inClause then literalIndex? ls turns (i + 1) else none
    | none, _ => none

/-- The index of the source of the clause that begins at an index. The search ends with the list or
the limit, whichever comes first. -/
def clauseIndex? (ls : List Lexeme) (start : Nat) : Option Nat :=
  literalIndex? ls (min (start + clauseLimit) ls.length - start) start

theorem literalIndex?_of_fromAt (h : FromAt ls i) :
    literalIndex? ls (turns + 1) i = some (i + 1) := by
  obtain ⟨hword, v, hliteral⟩ := h
  rw [literalIndex?, hword, hliteral]
  rfl

theorem literalIndex?_of_not_fromAt (h : ¬ FromAt ls i) :
    literalIndex? ls (turns + 1) i =
      if (tokenAt ls i).any Token.inClause then literalIndex? ls turns (i + 1) else none := by
  rw [literalIndex?]
  split
  · next hword hliteral => exact absurd ⟨hword, _, hliteral⟩ h
  · next htoken _ => rw [htoken]; rfl
  · next htoken => rw [htoken]; rfl

theorem any_inClause_iff :
    (tokenAt ls i).any Token.inClause = true ↔
      ∃ token, tokenAt ls i = some token ∧ ClauseToken token := by
  simp only [Option.any_eq_true, inClause_iff]

theorem literalIndex?_eq_some_iff :
    literalIndex? ls turns start = some j ↔ ∃ k, j = k + 1 ∧ ClauseTo ls turns start k := by
  induction turns generalizing start with
  | zero =>
    refine ⟨nofun, ?_⟩
    rintro ⟨k, -, hk⟩
    have hle := hk.le
    have hlt := hk.lt
    omega
  | succ turns ih =>
    by_cases h : FromAt ls start
    · simp only [literalIndex?_of_fromAt h, ClauseTo.of_fromAt h, exists_eq_right,
        Option.some.injEq]
      exact eq_comm
    · rw [literalIndex?_of_not_fromAt h]
      simp only [ClauseTo.step_iff h]
      by_cases htoken : (tokenAt ls start).any Token.inClause
      · rw [if_pos htoken, ih]
        simp only [any_inClause_iff.1 htoken, true_and]
      · rw [if_neg htoken]
        simp only [mt any_inClause_iff.2 htoken, false_and, and_false, exists_false, reduceCtorEq]

/-- The end of the list need not be looked for: there is no clause behind it. -/
theorem clauseIndex?_eq (ls : List Lexeme) (start : Nat) :
    clauseIndex? ls start = literalIndex? ls clauseLimit start := by
  refine Option.ext fun j => ?_
  unfold clauseIndex?
  rw [literalIndex?_eq_some_iff, literalIndex?_eq_some_iff]
  refine exists_congr fun k => and_congr_right fun _ => ?_
  constructor
  · intro hk
    have hlt := hk.lt
    have hle := hk.le
    exact ⟨hle, by omega, hk.source, hk.first, hk.tokens⟩
  · intro hk
    have hlt := hk.lt
    have hle := hk.le
    -- a word stands at `k`, so the search does not miss it by ending with the list
    have hlength : k < ls.length := by
      by_contra hnot
      have hnone := tokenAt_eq_none_iff.2 (Nat.le_of_not_lt hnot)
      rw [hk.source.word] at hnone
      cases hnone
    exact ⟨hle, by omega, hk.source, hk.first, hk.tokens⟩

/-! ## The search in the rest of the tokens -/

theorem clauseSource_eq_some_iff {turns i : Nat} {place : Place} :
    clauseSource turns (ls.drop i) = some (v, place) ↔
      ∃ j, literalIndex? ls turns i = some j ∧ ls[j]? = some ⟨.literal v, place⟩ := by
  induction turns generalizing i with
  | zero => simp [clauseSource, literalIndex?]
  | succ turns ih =>
    by_cases h : FromAt ls i
    · rw [literalIndex?_of_fromAt h]
      obtain ⟨hword, v', hliteral⟩ := h
      obtain ⟨p, hword⟩ := drop_eq_cons_of_tokenAt hword
      obtain ⟨q, hliteral⟩ := drop_eq_cons_of_tokenAt hliteral
      have hget : ls[i + 1]? = some ⟨.literal v', q⟩ := by
        rw [← List.head?_drop, hliteral]
        rfl
      rw [hword, hliteral]
      simp [clauseSource, hget]
    · rw [literalIndex?_of_not_fromAt h]
      cases htoken : tokenAt ls i with
      | none =>
        rw [List.drop_eq_nil_of_le (tokenAt_eq_none_iff.1 htoken)]
        simp [clauseSource]
      | some token =>
        obtain ⟨p, hdrop⟩ := drop_eq_cons_of_tokenAt htoken
        have hfrom : ∀ text place ls', token = .ident "from" →
            ls.drop (i + 1) = ⟨.literal text, place⟩ :: ls' → False := by
          rintro text place ls' rfl hrest
          exact h ⟨htoken, text, by rw [tokenAt_eq_head?, hrest]; rfl⟩
        rw [hdrop, clauseSource_cons turns ⟨token, p⟩ _ hfrom, Option.any_some]
        by_cases hin : token.inClause
        · rw [if_pos hin, if_pos hin, ih]
        · rw [if_neg hin, if_neg hin]
          simp

/--
The search for the source of a clause gives the index behind `k` if and only if the tokens of the
clause reach to the `from` at `k`, which is the first that a literal follows and one of the first
512. What a reference takes from the rest of the tokens is the literal at that index.
-/
theorem clauseIndex?_eq_some_iff (ls : List Lexeme) (start : Nat) :
    (∀ j, clauseIndex? ls start = some j ↔ ∃ k, j = k + 1 ∧ ClauseTo ls 512 start k) ∧
      (clauseIndex? ls start = none ↔ ∀ k, ¬ ClauseTo ls 512 start k) ∧
      ∀ v place, clauseSource clauseLimit (ls.drop start) = some (v, place) ↔
        ∃ j, clauseIndex? ls start = some j ∧ ls[j]? = some ⟨.literal v, place⟩ := by
  have hsome (j : Nat) :
      clauseIndex? ls start = some j ↔ ∃ k, j = k + 1 ∧ ClauseTo ls 512 start k := by
    rw [clauseIndex?_eq]
    exact literalIndex?_eq_some_iff
  refine ⟨hsome, ?_, fun v place => ?_⟩
  · rw [Option.eq_none_iff_forall_ne_some]
    simp only [ne_eq, hsome, not_exists, not_and]
    exact ⟨fun h k => h (k + 1) k rfl, fun h j k _ => h k⟩
  · rw [clauseIndex?_eq]
    exact clauseSource_eq_some_iff

/-- A `from` that no literal follows is a name of the clause. -/
example : clauseIndex? [⟨.punct '\x7b', ⟨6, 1⟩⟩, ⟨.ident "from", ⟨7, 1⟩⟩, ⟨.punct '\x7d', ⟨11, 1⟩⟩,
    ⟨.ident "from", ⟨12, 1⟩⟩, ⟨.literal "a", ⟨16, 1⟩⟩] 0 = some 4 := by decide

/-- The literal may stand right behind the last token that is looked at, the word may not. -/
example :
    let ls : List Lexeme :=
      [⟨.punct '*', ⟨6, 1⟩⟩, ⟨.ident "from", ⟨8, 1⟩⟩, ⟨.literal "a", ⟨13, 1⟩⟩]
    literalIndex? ls 2 0 = some 2 ∧ literalIndex? ls 1 0 = none := by decide

end PackageMap.Source
