import PackageMap.Proofs.Source.Shift

/-!
# References of separated texts

No reference reaches over a semicolon, nor over a token that is no name, literal or mark: neither
the tokens after one nor the token before one can belong to the other side. So the references of two
texts with a semicolon between them are those of the first and, at their new places, those of the
second that are not listed yet.
-/

namespace PackageMap.Source

variable {o l : Nat}

def Reference.shift (o l : Nat) (r : Reference) : Reference := { r with place := r.place.shift o l }

def Lexeme.move (f : Place → Place) (x : Lexeme) : Lexeme := ⟨x.token, f x.place⟩

/-! ## The tokens after -/

/-- Tokens that no reference reaches over. -/
def Token.separates : Token → Bool
  | .punct c => c == ';'
  | .other => true
  | _ => false

theorem Token.separates_iff {t : Token} : t.separates ↔ t = .punct ';' ∨ t = .other := by
  cases t with
  | punct c =>
    show (c == ';') = true ↔ _
    rw [beq_iff_eq, punct.injEq]
    simp only [reduceCtorEq, or_false]
  | other => exact ⟨fun _ => .inr rfl, fun _ => rfl⟩
  | _ => exact ⟨nofun, by rintro (h | h) <;> cases h⟩

/-- The tokens of the first list stand at other places in the second, and behind them is nothing or
a token that separates. -/
inductive Moved (f : Place → Place) : List Lexeme → List Lexeme → Prop
  | nil : Moved f [] []
  | stop {x : Lexeme} (hx : x.token.separates) (rest : List Lexeme) : Moved f [] (x :: rest)
  | cons (x : Lexeme) {ls ls' : List Lexeme} (h : Moved f ls ls') :
    Moved f (x :: ls) (⟨x.token, f x.place⟩ :: ls')

variable {f : Place → Place} {ls ls' : List Lexeme}

theorem moved_separated (ls : List Lexeme) {x : Lexeme} (hx : x.token.separates)
    (rest : List Lexeme) : Moved id ls (ls ++ x :: rest) := by
  induction ls with
  | nil => exact .stop hx rest
  | cons y ls ih => exact .cons y ih

theorem moved_map (f : Place → Place) (ls : List Lexeme) : Moved f ls (ls.map (Lexeme.move f)) := by
  induction ls with
  | nil => exact .nil
  | cons x ls ih => exact .cons x ih

theorem Moved.eq_cons {token : Token} {p : Place} {r : List Lexeme}
    (h : Moved f ls (⟨token, p⟩ :: r)) (ht : token.separates = false) :
    ∃ p' ls₁, ls = ⟨token, p'⟩ :: ls₁ ∧ Moved f ls₁ r := by
  cases h with
  | stop hx => exact absurd (ht.symm.trans hx) Bool.false_ne_true
  | cons x h => exact ⟨x.place, _, rfl, h⟩

theorem clauseSource_cons (limit : Nat) (x : Lexeme) (ls : List Lexeme)
    (h : ∀ text place ls', x.token = .ident "from" → ls = ⟨.literal text, place⟩ :: ls' → False) :
    clauseSource (limit + 1) (x :: ls) =
      if x.token.inClause then clauseSource limit ls else none := by
  rw [clauseSource]
  exact h

theorem clauseSource_moved (limit : Nat) (h : Moved f ls ls') :
    clauseSource limit ls' = (clauseSource limit ls).map fun (text, place) => (text, f place) := by
  induction limit generalizing ls ls' with
  | zero => rfl
  | succ limit ih =>
    cases h with
    | nil => rfl
    | @stop x hx rest =>
      obtain ⟨token, place⟩ := x
      rcases Token.separates_iff.1 hx with rfl | rfl <;> rfl
    | @cons x ls ls' h =>
      by_cases hfrom : ∃ text p r, x.token = .ident "from" ∧ ls = ⟨.literal text, p⟩ :: r
      · obtain ⟨text, p, r, hx, rfl⟩ := hfrom
        cases h
        simp only [clauseSource, hx]
        rfl
      · rw [clauseSource_cons, clauseSource_cons, ih h]
        · dsimp only
          split <;> rfl
        · intro text p r hx hl
          exact hfrom ⟨text, p, r, hx, hl⟩
        · rintro text p r hx rfl
          obtain ⟨p', ls₁, rfl, -⟩ := h.eq_cons (by rfl)
          exact hfrom ⟨text, p', ls₁, hx, rfl⟩

def Reference.move (f : Place → Place) (r : Reference) : Reference := { r with place := f r.place }

theorem requireReference?_of_ne
    (h : ∀ p text q r ls', ls = ⟨.punct '(', p⟩ :: ⟨.literal text, q⟩ :: ⟨.punct ')', r⟩ :: ls' →
      False) : requireReference? ls = none := by
  rw [requireReference?]
  exact h

theorem requireReference?_moved (h : Moved f ls ls') :
    requireReference? ls' = (requireReference? ls).map (Reference.move f) := by
  by_cases hcall : ∃ p text q r ls₃,
      ls = ⟨.punct '(', p⟩ :: ⟨.literal text, q⟩ :: ⟨.punct ')', r⟩ :: ls₃
  · obtain ⟨p, text, q, r, ls₃, rfl⟩ := hcall
    obtain _ | _ | ⟨_, _ | _ | ⟨_, _ | _ | ⟨_, h⟩⟩⟩ := h
    rfl
  · rw [requireReference?_of_ne, requireReference?_of_ne]
    · rfl
    · intro p text q r ls₃ hl
      exact hcall ⟨p, text, q, r, ls₃, hl⟩
    · rintro p text q r ls₃ rfl
      obtain ⟨p₁, ls₁, rfl, h₁⟩ := h.eq_cons (by rfl)
      obtain ⟨p₂, ls₂, rfl, h₂⟩ := h₁.eq_cons (by rfl)
      obtain ⟨p₃, ls₃, rfl, -⟩ := h₂.eq_cons (by rfl)
      exact hcall ⟨p₁, text, p₂, p₃, ls₃, rfl⟩

theorem importReference?_of_ne {x : Lexeme}
    (hlit : ∀ text p, x = ⟨.literal text, p⟩ → False)
    (hcall : ∀ p text q c r ls', x = ⟨.punct '(', p⟩ →
      ls = ⟨.literal text, q⟩ :: ⟨.punct c, r⟩ :: ls' → False) :
    importReference? (x :: ls) =
      if x.token.opensImport then
        (clauseSource clauseLimit (x :: ls)).map fun (text, place) => ⟨text, .esmImport, place⟩
      else none := by
  rw [importReference?]
  · exact hlit
  · exact hcall

/-- An open parenthesis without a literal and its end after it imports nothing. -/
theorem importReference?_open {p : Place}
    (h : ∀ text q c r ls', ls = ⟨.literal text, q⟩ :: ⟨.punct c, r⟩ :: ls' → ¬(c = ')' ∨ c = ',')) :
    importReference? (⟨.punct '(', p⟩ :: ls) = none := by
  by_cases hcall : ∃ text q c r ls', ls = ⟨.literal text, q⟩ :: ⟨.punct c, r⟩ :: ls'
  · obtain ⟨text, q, c, r, ls', rfl⟩ := hcall
    exact if_neg (h text q c r ls' rfl)
  · rw [importReference?_of_ne]
    · rfl
    · nofun
    · intro _ text q c r ls' _ hl
      exact hcall ⟨text, q, c, r, ls', hl⟩

theorem importReference?_moved (h : Moved f ls ls') :
    importReference? ls' = (importReference? ls).map (Reference.move f) := by
  have hsource := clauseSource_moved clauseLimit h
  cases h with
  | nil => rfl
  | @stop x hx rest =>
    obtain ⟨token, place⟩ := x
    rcases Token.separates_iff.1 hx with rfl | rfl <;> rfl
  | @cons x ls ls' h =>
    obtain ⟨token, place⟩ := x
    by_cases hlit : ∃ text, token = .literal text
    · obtain ⟨text, rfl⟩ := hlit
      rfl
    by_cases hcall : ∃ text q c r ls₂,
        token = .punct '(' ∧ ls = ⟨.literal text, q⟩ :: ⟨.punct c, r⟩ :: ls₂
    · obtain ⟨text, q, c, r, ls₂, rfl, rfl⟩ := hcall
      obtain _ | _ | ⟨_, _ | _ | ⟨_, h⟩⟩ := h
      show (if c = ')' ∨ c = ',' then some _ else none) =
        Option.map _ (if c = ')' ∨ c = ',' then some _ else none)
      split <;> rfl
    by_cases hopen : token = .punct '('
    · subst hopen
      rw [importReference?_open, importReference?_open]
      · rfl
      · intro text q c r ls₂ hl
        exact (hcall ⟨text, q, c, r, ls₂, rfl, hl⟩).elim
      -- the literal may be the last token before one that separates
      · rintro text q c r ls₂ rfl hend
        obtain ⟨q₁, ls₁, rfl, h₁⟩ := h.eq_cons (by rfl)
        have hends : (Token.punct c).separates = false := by rcases hend with rfl | rfl <;> rfl
        obtain ⟨r₁, ls₃, rfl, -⟩ := h₁.eq_cons hends
        exact hcall ⟨text, q₁, c, r₁, ls₃, rfl, rfl⟩
    · rw [importReference?_of_ne, importReference?_of_ne, hsource]
      · dsimp only
        split
        · rw [Option.map_map, Option.map_map]
          rfl
        · rfl
      · rintro text p ⟨⟩
        exact hlit ⟨text, rfl⟩
      · rintro p text q c r ls₂ ⟨⟩
        exact (hopen rfl).elim
      · rintro text p ⟨⟩
        exact hlit ⟨text, rfl⟩
      · rintro p text q c r ls₂ ⟨⟩
        exact (hopen rfl).elim

theorem exportReference?_moved (h : Moved f ls ls') :
    exportReference? ls' = (exportReference? ls).map (Reference.move f) := by
  have hsource := clauseSource_moved clauseLimit h
  cases h with
  | nil => rfl
  | @stop x hx rest =>
    obtain ⟨token, place⟩ := x
    rcases Token.separates_iff.1 hx with rfl | rfl <;> rfl
  | cons x h =>
    unfold exportReference?
    dsimp only
    rw [hsource]
    split
    · rw [Option.map_map, Option.map_map]
      rfl
    · rfl

/-- A token makes the same reference wherever the tokens after it stand and whatever comes after a
token that separates. -/
theorem reference?_moved (before : Option Token) (token : Token) (h : Moved f ls ls') :
    reference? before token ls' = (reference? before token ls).map (Reference.move f) := by
  unfold reference?
  rw [requireReference?_moved h, importReference?_moved h, exportReference?_moved h]
  split
  · rfl
  · split <;> rfl

/-! ## The token before -/

theorem Token.ne_dot_of_separates {t : Token} (h : t.separates) : some t ≠ some (.punct '.') := by
  rcases separates_iff.1 h with rfl | rfl <;> simp

/-- A token that separates decides about the token after it as the start of a text does. -/
theorem collect_of_separates {token : Token} (h : token.separates) (found : List Reference)
    (ls : List Lexeme) : collect (some token) found ls = collect none found ls := by
  cases ls with
  | nil => rfl
  | cons x ls =>
    have hx : reference? (some token) x.token ls = reference? none x.token ls := by
      unfold reference?
      rw [if_neg (Token.ne_dot_of_separates h), if_neg (by simp)]
    rw [collect, collect, hx]

theorem reference?_of_separates {token : Token} (h : token.separates) (before : Option Token)
    (ls : List Lexeme) : reference? before token ls = none := by
  unfold reference?
  rcases Token.separates_iff.1 h with rfl | rfl <;> exact ite_self none

/-- The references before a token that separates are collected first and those after it on top of
them. -/
theorem collect_around {x : Lexeme} (hx : x.token.separates) (before : Option Token)
    (found : List Reference) (ls rest : List Lexeme) :
    collect before found (ls ++ x :: rest) = collect none (collect before found ls) rest := by
  induction ls generalizing before found with
  | nil =>
    simp only [List.nil_append, collect, reference?_of_separates hx]
    exact collect_of_separates hx found rest
  | cons y ls ih =>
    have hy := reference?_moved before y.token (moved_separated ls hx rest)
    rw [show Reference.move id = id from rfl, Option.map_id, id] at hy
    rw [List.cons_append, collect, collect, hy]
    exact ih _ _

theorem collect_separated (before : Option Token) (found : List Reference) (ls : List Lexeme)
    (place : Place) (rest : List Lexeme) :
    collect before found (ls ++ ⟨.punct ';', place⟩ :: rest) =
      collect none (collect before found ls) rest :=
  collect_around rfl before found ls rest

/-! ## On top of a list -/

def Reference.Listed (found : List Reference) (specifier : String) : Prop :=
  found.any (·.specifier == specifier) = true

instance (found : List Reference) (specifier : String) :
    Decidable (Reference.Listed found specifier) :=
  inferInstanceAs (Decidable (_ = true))

theorem Reference.listed_iff {found : List Reference} {specifier : String} :
    Reference.Listed found specifier ↔ ∃ r ∈ found, r.specifier = specifier := by
  simp only [Reference.Listed, List.any_eq_true, beq_iff_eq]

theorem Reference.listed_reverse {found : List Reference} {specifier : String} :
    Reference.Listed found.reverse specifier ↔ Reference.Listed found specifier := by
  rw [Reference.Listed, List.any_reverse]
  rfl

theorem record_of_listed {found : List Reference} {r : Reference}
    (h : r.specifier = "" ∨ Reference.Listed found r.specifier) : record found r = found :=
  if_pos h

theorem record_of_not_listed {found : List Reference} {r : Reference}
    (h : ¬(r.specifier = "" ∨ Reference.Listed found r.specifier)) :
    record found r = r :: found :=
  if_neg h

/-- The references of `more`, at their new places, that are not listed yet, on top of `found`. -/
def onTop (o l : Nat) (more found : List Reference) : List Reference :=
  (more.filter fun r => ¬ Reference.Listed found r.specifier).map (Reference.shift o l) ++ found

theorem listed_onTop {more found : List Reference} {specifier : String} :
    Reference.Listed (onTop o l more found) specifier ↔
      Reference.Listed more specifier ∨ Reference.Listed found specifier := by
  simp only [Reference.listed_iff, onTop, List.mem_append, List.mem_map, List.mem_filter]
  constructor
  · rintro ⟨r, ⟨q, ⟨hq, -⟩, rfl⟩ | hr, rfl⟩
    · exact Or.inl ⟨q, hq, rfl⟩
    · exact Or.inr ⟨r, hr, rfl⟩
  · rintro (⟨q, hq, rfl⟩ | ⟨r, hr, rfl⟩)
    · by_cases hf : Reference.Listed found q.specifier
      · obtain ⟨r, hr, hs⟩ := Reference.listed_iff.1 hf
        exact ⟨r, Or.inr hr, hs⟩
      · have hq' := decide_eq_true (mt Reference.listed_iff.2 hf)
        exact ⟨q.shift o l, Or.inl ⟨q, ⟨hq, hq'⟩, rfl⟩, rfl⟩
    · exact ⟨r, Or.inr hr, rfl⟩

theorem record_onTop (more found : List Reference) (r : Reference) :
    record (onTop o l more found) (r.shift o l) = onTop o l (record more r) found := by
  by_cases hm : r.specifier = "" ∨ Reference.Listed more r.specifier
  · rw [record_of_listed hm, record_of_listed]
    exact hm.imp id fun h => listed_onTop.2 (Or.inl h)
  · rw [record_of_not_listed hm]
    by_cases hf : Reference.Listed found r.specifier
    · rw [record_of_listed (r := r.shift o l) (Or.inr (listed_onTop.2 (Or.inr hf)))]
      simp only [onTop, List.filter_cons, hf, not_true, decide_false, Bool.false_eq_true, if_false]
    · rw [record_of_not_listed]
      · simp only [onTop, List.filter_cons, hf, not_false_eq_true, decide_true, if_true,
          List.map_cons, List.cons_append]
      · rintro (he | hl)
        · exact hm (Or.inl he)
        · exact (listed_onTop.1 hl).elim (fun h => hm (Or.inr h)) hf

/-- Collecting on top of a list gives what collecting apart gives, less what is listed. -/
theorem collect_onTop (before : Option Token) (more found : List Reference) (ls : List Lexeme) :
    collect before (onTop o l more found) (ls.map (Lexeme.shift o l)) =
      onTop o l (collect before more ls) found := by
  induction ls generalizing before more with
  | nil => rfl
  | cons x ls ih =>
    have hx : reference? before (x.shift o l).token (ls.map (Lexeme.shift o l)) =
        (reference? before x.token ls).map (Reference.shift o l) :=
      reference?_moved _ _ (moved_map (Place.shift o l) ls)
    rw [List.map_cons, collect, collect, hx]
    cases reference? before x.token ls with
    | none => exact ih _ _
    | some r =>
      show collect _ (record (onTop o l more found) (r.shift o l)) _ = _
      rw [record_onTop]
      exact ih _ _

end PackageMap.Source
