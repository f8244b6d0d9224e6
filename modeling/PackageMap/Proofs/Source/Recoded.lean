import PackageMap.Proofs.Source.Separated

/-!
# References in rewritten literals

If the texts of all literals are rewritten, different ones differently and the empty one to itself,
the same references are found, with their specifiers rewritten (`collect_recode`).
-/

namespace PackageMap.Source

variable {g : String → String}

/-- The token with the text of a literal rewritten. -/
def Token.recode (g : String → String) : Token → Token
  | .literal text => .literal (g text)
  | t => t

def Lexeme.recode (g : String → String) (x : Lexeme) : Lexeme := ⟨x.token.recode g, x.place⟩

@[simp] theorem Lexeme.token_recode (x : Lexeme) : (x.recode g).token = x.token.recode g := rfl

def Reference.recode (g : String → String) (r : Reference) : Reference :=
  { r with specifier := g r.specifier }

/-! ## Tokens -/

theorem Token.recode_eq_punct {t : Token} {c : Char} : t.recode g = .punct c ↔ t = .punct c := by
  cases t <;> simp [recode]

theorem Token.recode_eq_ident {t : Token} {name : String} :
    t.recode g = .ident name ↔ t = .ident name := by
  cases t <;> simp [recode]

theorem Token.exists_literal_of_recode {t : Token} {text : String}
    (h : t.recode g = .literal text) : ∃ text', t = .literal text' := by
  cases t with
  | literal text' => exact ⟨text', rfl⟩
  | _ => cases h

@[simp] theorem Token.inClause_recode (t : Token) : (t.recode g).inClause = t.inClause := by
  cases t <;> rfl

@[simp] theorem Token.opensImport_recode (t : Token) :
    (t.recode g).opensImport = t.opensImport := by
  cases t <;> rfl

@[simp] theorem Token.opensExport_recode (t : Token) :
    (t.recode g).opensExport = t.opensExport := by
  cases t <;> rfl

theorem regexAllowed_recode (ts : List Token) :
    regexAllowed (ts.map (Token.recode g)) = regexAllowed ts := by
  rcases ts with _ | ⟨t, _ | ⟨u, _ | ⟨v, ts⟩⟩⟩
  · rfl
  · cases t <;> rfl
  · cases t <;> cases u <;> rfl
  · cases t <;> cases u <;> cases v <;> rfl

/-! ## References -/

variable {ls : List Lexeme}

theorem exists_of_recode_punct {c : Char} {p : Place} {r : List Lexeme}
    (h : ls.map (Lexeme.recode g) = ⟨.punct c, p⟩ :: r) :
    ∃ ls', ls = ⟨.punct c, p⟩ :: ls' ∧ ls'.map (Lexeme.recode g) = r := by
  obtain ⟨⟨t, q⟩, ls', rfl, hx, hr⟩ := List.map_eq_cons_iff.1 h
  obtain ⟨ht, rfl⟩ := Lexeme.mk.inj hx
  obtain rfl := Token.recode_eq_punct.1 ht
  exact ⟨ls', rfl, hr⟩

theorem exists_of_recode_literal {text : String} {p : Place} {r : List Lexeme}
    (h : ls.map (Lexeme.recode g) = ⟨.literal text, p⟩ :: r) :
    ∃ text' ls', ls = ⟨.literal text', p⟩ :: ls' ∧ ls'.map (Lexeme.recode g) = r := by
  obtain ⟨⟨t, q⟩, ls', rfl, hx, hr⟩ := List.map_eq_cons_iff.1 h
  obtain ⟨ht, rfl⟩ := Lexeme.mk.inj hx
  obtain ⟨text', rfl⟩ := Token.exists_literal_of_recode ht
  exact ⟨text', ls', rfl, hr⟩

theorem clauseSource_recode (limit : Nat) (ls : List Lexeme) :
    clauseSource limit (ls.map (Lexeme.recode g)) =
      (clauseSource limit ls).map fun (text, place) => (g text, place) := by
  induction limit generalizing ls with
  | zero => rfl
  | succ limit ih =>
    cases ls with
    | nil => rfl
    | cons x ls =>
      by_cases hfrom : ∃ text p r, x.token = .ident "from" ∧ ls = ⟨.literal text, p⟩ :: r
      · obtain ⟨text, p, r, hx, rfl⟩ := hfrom
        simp only [clauseSource, hx, List.map_cons, Lexeme.recode, Token.recode, Option.map_some]
      · rw [List.map_cons, clauseSource_cons, clauseSource_cons, ih]
        · rw [Lexeme.token_recode, Token.inClause_recode]
          split <;> rfl
        · intro text p r hx hl
          exact hfrom ⟨text, p, r, hx, hl⟩
        · intro text p r hx hl
          obtain ⟨text', r', rfl, -⟩ := exists_of_recode_literal hl
          exact hfrom ⟨text', p, r', Token.recode_eq_ident.1 hx, rfl⟩

theorem requireReference?_recode (ls : List Lexeme) :
    requireReference? (ls.map (Lexeme.recode g)) =
      (requireReference? ls).map (Reference.recode g) := by
  by_cases hcall : ∃ p text q r ls₃,
      ls = ⟨.punct '(', p⟩ :: ⟨.literal text, q⟩ :: ⟨.punct ')', r⟩ :: ls₃
  · obtain ⟨p, text, q, r, ls₃, rfl⟩ := hcall
    rfl
  · rw [requireReference?_of_ne, requireReference?_of_ne]
    · rfl
    · intro p text q r ls₃ hl
      exact hcall ⟨p, text, q, r, ls₃, hl⟩
    · intro p text q r ls₃ hl
      obtain ⟨ls₁, rfl, h₁⟩ := exists_of_recode_punct hl
      obtain ⟨text', ls₂, rfl, h₂⟩ := exists_of_recode_literal h₁
      obtain ⟨ls₃, rfl, -⟩ := exists_of_recode_punct h₂
      exact hcall ⟨p, text', q, r, ls₃, rfl⟩

theorem importReference?_recode (ls : List Lexeme) :
    importReference? (ls.map (Lexeme.recode g)) =
      (importReference? ls).map (Reference.recode g) := by
  have hsource := clauseSource_recode (g := g) clauseLimit ls
  rcases ls with _ | ⟨⟨token, place⟩, ls⟩
  · rfl
  by_cases hlit : ∃ text, token = .literal text
  · obtain ⟨text, rfl⟩ := hlit
    rfl
  by_cases hcall : ∃ text q c r ls₂,
      token = .punct '(' ∧ ls = ⟨.literal text, q⟩ :: ⟨.punct c, r⟩ :: ls₂
  · obtain ⟨text, q, c, r, ls₂, rfl, rfl⟩ := hcall
    show (if c = ')' ∨ c = ',' then some _ else none) =
      Option.map _ (if c = ')' ∨ c = ',' then some _ else none)
    split <;> rfl
  · rw [List.map_cons, importReference?_of_ne, importReference?_of_ne, ← List.map_cons, hsource]
    · rw [Lexeme.token_recode, Token.opensImport_recode]
      split
      · rw [Option.map_map, Option.map_map]
        rfl
      · rfl
    · rintro text p ⟨⟩
      exact hlit ⟨text, rfl⟩
    · rintro p text q c r ls₂ ⟨⟩ hl
      exact hcall ⟨text, q, c, r, ls₂, rfl, hl⟩
    · intro text p hx
      obtain ⟨text', rfl⟩ := Token.exists_literal_of_recode (Lexeme.mk.inj hx).1
      exact hlit ⟨text', rfl⟩
    · intro p text q c r ls₂ hx hl
      obtain ⟨text', ls₁, rfl, h₁⟩ := exists_of_recode_literal hl
      obtain ⟨ls₂, rfl, -⟩ := exists_of_recode_punct h₁
      exact hcall ⟨text', q, c, r, ls₂, Token.recode_eq_punct.1 (Lexeme.mk.inj hx).1, rfl⟩

theorem exportReference?_recode (ls : List Lexeme) :
    exportReference? (ls.map (Lexeme.recode g)) =
      (exportReference? ls).map (Reference.recode g) := by
  have hsource := clauseSource_recode (g := g) clauseLimit ls
  cases ls with
  | nil => rfl
  | cons x ls =>
    rw [List.map_cons] at hsource ⊢
    unfold exportReference?
    dsimp only
    rw [hsource, Lexeme.token_recode, Token.opensExport_recode]
    split
    · rw [Option.map_map, Option.map_map]
      rfl
    · rfl

theorem reference?_recode (before : Option Token) (token : Token) (ls : List Lexeme) :
    reference? (before.map (Token.recode g)) (token.recode g) (ls.map (Lexeme.recode g)) =
      (reference? before token ls).map (Reference.recode g) := by
  have hbefore : before.map (Token.recode g) = some (.punct '.') ↔ before = some (.punct '.') := by
    rw [Option.map_eq_some_iff]
    simp only [Token.recode_eq_punct, exists_eq_right]
  unfold reference?
  rw [requireReference?_recode, importReference?_recode, exportReference?_recode]
  simp only [hbefore]
  split
  · rfl
  · cases token with
    | ident name =>
      dsimp only [Token.recode]
      split <;> rfl
    | _ => rfl

/-! ## Lists of references -/

section Collect

variable (hg : g.Injective) (hempty : g "" = "")

include hg hempty

theorem record_recode (found : List Reference) (r : Reference) :
    record (found.map (Reference.recode g)) (r.recode g) =
      (record found r).map (Reference.recode g) := by
  have hlisted : Reference.Listed (found.map (Reference.recode g)) (r.recode g).specifier ↔
      Reference.Listed found r.specifier := by
    simp only [Reference.listed_iff, List.mem_map]
    constructor
    · rintro ⟨_, ⟨q, hq, rfl⟩, hs⟩
      exact ⟨q, hq, hg hs⟩
    · rintro ⟨q, hq, hs⟩
      exact ⟨q.recode g, ⟨q, hq, rfl⟩, congrArg g hs⟩
  have hspec : (r.recode g).specifier = "" ↔ r.specifier = "" :=
    ⟨fun h => hg (h.trans hempty.symm), fun h => (congrArg g h).trans hempty⟩
  by_cases h : r.specifier = "" ∨ Reference.Listed found r.specifier
  · rw [record_of_listed h, record_of_listed ((or_congr hspec hlisted).2 h)]
  · rw [record_of_not_listed h, record_of_not_listed (mt (or_congr hspec hlisted).1 h)]
    rfl

/-- The same references are found in rewritten literals. -/
theorem collect_recode (before : Option Token) (found : List Reference) (ls : List Lexeme) :
    collect (before.map (Token.recode g)) (found.map (Reference.recode g))
        (ls.map (Lexeme.recode g)) = (collect before found ls).map (Reference.recode g) := by
  induction ls generalizing before found with
  | nil => rfl
  | cons x ls ih =>
    rw [List.map_cons, collect, collect, Lexeme.token_recode, reference?_recode]
    cases reference? before x.token ls with
    | none => exact ih (some x.token) found
    | some r =>
      show collect _ (record (found.map (Reference.recode g)) (r.recode g)) _ = _
      rw [record_recode hg hempty]
      exact ih (some x.token) _

end Collect

end PackageMap.Source
