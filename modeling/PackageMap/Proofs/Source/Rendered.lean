import PackageMap.Proofs.Source.Concat
import PackageMap.Proofs.Source.Program

/-!
# References of programs

Extraction finds what a program was built from: each specifier once, in order, as its first
statement refers to it and where that statement's literal stands.
-/

namespace PackageMap.Source

open PackageMap.Text

/-! ## Tokens that refer to nothing -/

/-- What a clause with its source is made of. -/
def Token.inSourcedClause (t : Token) : Prop := t.inClause = true ∨ ∃ text, t = .literal text

/-- Words in a clause refer to nothing, `require` neither: no parenthesis follows. -/
theorem reference?_of_inSourcedClause (before : Option Token) {token : Token} {ls : List Lexeme}
    (h : token.inSourcedClause) (hls : ∀ x ∈ ls.head?, x.token.inSourcedClause) :
    reference? before token ls = none := by
  unfold reference?
  split
  · rfl
  · split
    · refine requireReference?_of_ne fun p text q r ls' hl => ?_
      rcases hls ⟨.punct '(', p⟩ (hl ▸ rfl) with hin | ⟨text, htext⟩
      · cases hin
      · cases htext
    · rcases h with hin | ⟨text, htext⟩
      · cases hin
      · cases htext
    · rcases h with hin | ⟨text, htext⟩
      · cases hin
      · cases htext
    · rfl

theorem collect_of_inSourcedClause (before : Option Token) (found : List Reference)
    {ls : List Lexeme} (hls : ∀ x ∈ ls, x.token.inSourcedClause) :
    collect before found ls = found := by
  induction ls generalizing before with
  | nil => rfl
  | cons x ls ih =>
    obtain ⟨hx, hls⟩ := List.forall_mem_cons.1 hls
    have hhead : ∀ y ∈ ls.head?, y.token.inSourcedClause :=
      fun y hy => hls y (List.mem_of_mem_head? hy)
    rw [collect, reference?_of_inSourcedClause before hx hhead]
    exact ih _ hls

/-! ## Clauses -/

theorem Name.inClause (n : Name) : n.symbol.token.inClause = true := by
  show (n.text != "import" && n.text != "export") = true
  simp [n.ne_import, n.ne_export]

theorem Binding.inClause (b : Binding) : ∀ x ∈ b.symbols, x.token.inClause = true := by
  intro x hx
  unfold symbols at hx
  split at hx
  · obtain rfl := List.mem_singleton.1 hx
    exact b.name.inClause
  · next n _ =>
    simp only [List.mem_cons, List.not_mem_nil, or_false] at hx
    rcases hx with rfl | rfl | rfl
    · exact b.name.inClause
    · rfl
    · exact n.inClause

theorem mem_intercalate {α : Type} {separator x : α} {ls : List (List α)}
    (h : x ∈ [separator].intercalate ls) : x = separator ∨ ∃ l ∈ ls, x ∈ l := by
  induction ls with
  | nil => cases h
  | cons l ls ih =>
    by_cases hls : ls = []
    · subst hls
      rw [List.intercalate_singleton] at h
      exact Or.inr ⟨l, List.mem_cons_self, h⟩
    · rw [List.intercalate_cons_of_ne_nil hls] at h
      simp only [List.mem_append, List.mem_singleton] at h
      rcases h with (h | h) | h
      · exact Or.inr ⟨l, List.mem_cons_self, h⟩
      · exact Or.inl h
      · exact (ih h).imp_right fun ⟨l', hl', hx⟩ => ⟨l', List.mem_cons_of_mem l hl', hx⟩

theorem Bindings.inClause (b : Bindings) : ∀ x ∈ b.symbols, x.token.inClause = true := by
  intro x hx
  cases b with
  | whole n =>
    simp only [symbols, List.mem_cons, List.not_mem_nil, or_false] at hx
    rcases hx with rfl | rfl | rfl
    · rfl
    · rfl
    · exact n.inClause
  | named bs =>
    simp only [symbols, List.mem_cons, List.mem_append, List.not_mem_nil, or_false] at hx
    rcases hx with rfl | hx | rfl
    · rfl
    · rcases mem_intercalate hx with rfl | ⟨l, hl, hx⟩
      · rfl
      · obtain ⟨b, -, rfl⟩ := List.mem_map.1 hl
        exact b.inClause x hx
    · rfl

theorem ImportClause.inClause (c : ImportClause) : ∀ x ∈ c.symbols, x.token.inClause = true := by
  intro x hx
  cases c with
  | default n =>
    obtain rfl := List.mem_singleton.1 hx
    exact n.inClause
  | bindings b => exact b.inClause x hx
  | both n b =>
    simp only [symbols, List.mem_cons] at hx
    rcases hx with rfl | rfl | hx
    · exact n.inClause
    · rfl
    · exact b.inClause x hx

theorem ExportClause.inClause (c : ExportClause) : ∀ x ∈ c.symbols, x.token.inClause = true := by
  intro x hx
  cases c with
  | everything =>
    obtain rfl := List.mem_singleton.1 hx
    rfl
  | bindings b => exact b.inClause x hx

theorem Bindings.opens (b : Bindings) : ∃ c xs, b.symbols.map Symbol.token = .punct c :: xs ∧
    (c = '\x7b' ∨ c = '*') := by
  cases b with
  | whole n => exact ⟨_, _, rfl, Or.inr rfl⟩
  | named bs => exact ⟨_, _, rfl, Or.inl rfl⟩

theorem ImportClause.opens (c : ImportClause) :
    ∃ t ts, c.symbols.map Symbol.token = t :: ts ∧ t.opensImport = true := by
  cases c with
  | default n => exact ⟨_, _, rfl, rfl⟩
  | bindings b =>
    obtain ⟨c, ts, h, rfl | rfl⟩ := b.opens
    · exact ⟨_, _, h, rfl⟩
    · exact ⟨_, _, h, rfl⟩
  | both n b => exact ⟨_, _, rfl, rfl⟩

theorem ExportClause.opens (c : ExportClause) :
    ∃ t ts, c.symbols.map Symbol.token = t :: ts ∧ t.opensExport = true := by
  cases c with
  | everything => exact ⟨_, _, rfl, rfl⟩
  | bindings b =>
    obtain ⟨c, ts, h, rfl | rfl⟩ := b.opens
    · exact ⟨_, _, h, rfl⟩
    · exact ⟨_, _, h, rfl⟩

/-! ## The source of a clause -/

section Source

variable {text : String} {p q : Place} {clause rest : List Lexeme}

/-- The search passes the words of a clause, `from` among them, up to the `from` before the
literal. -/
theorem clauseSource_clause {limit : Nat} (hclause : ∀ x ∈ clause, x.token.inClause = true)
    (hlimit : clause.length < limit) :
    clauseSource limit (clause ++ ⟨.ident "from", p⟩ :: ⟨.literal text, q⟩ :: rest) =
      some (text, q) := by
  induction clause generalizing limit with
  | nil =>
    obtain ⟨limit, rfl⟩ := Nat.exists_eq_succ_of_ne_zero (Nat.ne_of_gt hlimit)
    rfl
  | cons x clause ih =>
    obtain ⟨hx, hclause⟩ := List.forall_mem_cons.1 hclause
    rw [List.length_cons] at hlimit
    obtain ⟨limit, rfl⟩ := Nat.exists_eq_succ_of_ne_zero (Nat.ne_of_gt (Nat.zero_lt_of_lt hlimit))
    rw [List.cons_append, clauseSource_cons, if_pos hx, ih hclause (Nat.lt_of_succ_lt_succ hlimit)]
    rintro text' p' ls' - hls
    cases clause with
    | nil => cases hls
    | cons y clause =>
      obtain ⟨hy, -⟩ := List.forall_mem_cons.1 hclause
      cases hls
      cases hy

theorem importReference?_clause (hclause : ∀ x ∈ clause, x.token.inClause = true)
    (hlimit : clause.length < clauseLimit)
    (hopens : ∃ x more, clause = x :: more ∧ x.token.opensImport = true) :
    importReference? (clause ++ ⟨.ident "from", p⟩ :: ⟨.literal text, q⟩ :: rest) =
      some ⟨text, .esmImport, q⟩ := by
  have hsource : clauseSource clauseLimit
      (clause ++ ⟨.ident "from", p⟩ :: ⟨.literal text, q⟩ :: rest) = some (text, q) :=
    clauseSource_clause hclause hlimit
  obtain ⟨x, more, rfl, hx⟩ := hopens
  rw [List.cons_append] at hsource ⊢
  rw [importReference?_of_ne, if_pos hx, hsource]
  · rfl
  · rintro text p rfl
    cases hx
  · rintro p text q c r ls' rfl
    cases hx

theorem exportReference?_clause (hclause : ∀ x ∈ clause, x.token.inClause = true)
    (hlimit : clause.length < clauseLimit)
    (hopens : ∃ x more, clause = x :: more ∧ x.token.opensExport = true) :
    exportReference? (clause ++ ⟨.ident "from", p⟩ :: ⟨.literal text, q⟩ :: rest) =
      some ⟨text, .esmExport, q⟩ := by
  have hsource : clauseSource clauseLimit
      (clause ++ ⟨.ident "from", p⟩ :: ⟨.literal text, q⟩ :: rest) = some (text, q) :=
    clauseSource_clause hclause hlimit
  obtain ⟨x, more, rfl, hx⟩ := hopens
  rw [List.cons_append] at hsource ⊢
  rw [exportReference?, if_pos hx, hsource]
  rfl

end Source

/-! ## The reference of a statement -/

theorem eq_cons_of_map_token {ls : List Lexeme} {t : Token} {ts : List Token}
    (h : ls.map Lexeme.token = t :: ts) :
    ∃ p ls', ls = ⟨t, p⟩ :: ls' ∧ ls'.map Lexeme.token = ts := by
  obtain ⟨⟨t', p⟩, ls', rfl, rfl, hts⟩ := List.map_eq_cons_iff.1 h
  exact ⟨p, ls', rfl, hts⟩

theorem eq_singleton_of_map_token {ls : List Lexeme} {t : Token}
    (h : ls.map Lexeme.token = [t]) : ∃ p, ls = [⟨t, p⟩] := by
  obtain ⟨p, ls', rfl, hls⟩ := eq_cons_of_map_token h
  exact ⟨p, by rw [List.map_eq_nil_iff.1 hls]⟩

theorem eq_pair_of_map_token {ls : List Lexeme} {t t' : Token}
    (h : ls.map Lexeme.token = [t, t']) : ∃ p p', ls = [⟨t, p⟩, ⟨t', p'⟩] := by
  obtain ⟨p, ls', rfl, hls⟩ := eq_cons_of_map_token h
  obtain ⟨p', rfl⟩ := eq_singleton_of_map_token hls
  exact ⟨p, p', rfl⟩

/-- The tokens of a clause and `from`, where they stand. -/
theorem eq_clause_of_map_token {symbols : List Symbol} {ls : List Lexeme}
    (h : ls.map Lexeme.token = (symbols ++ [Symbol.word "from" (by decide)]).map Symbol.token)
    (hin : ∀ x ∈ symbols, x.token.inClause = true) :
    ∃ clause p, ls = clause ++ [⟨.ident "from", p⟩] ∧
      clause.map Lexeme.token = symbols.map Symbol.token ∧
      (∀ x ∈ clause, x.token.inClause = true) ∧ clause.length = symbols.length := by
  rw [List.map_append] at h
  obtain ⟨clause, last, rfl, htokens, hlast⟩ := List.map_eq_append_iff.1 h
  obtain ⟨p, rfl⟩ := eq_singleton_of_map_token hlast
  refine ⟨clause, p, rfl, htokens, fun x hx => ?_, ?_⟩
  · have hmem : x.token ∈ symbols.map Symbol.token := htokens ▸ List.mem_map_of_mem hx
    obtain ⟨y, hy, hxy⟩ := List.mem_map.1 hmem
    exact hxy ▸ hin y hy
  · simpa using congrArg List.length htokens

/-- A word, a clause and a source make one reference. -/
theorem collect_clause {word text : String} {q : Place} {symbols : List Symbol} {r : Reference}
    {opening : List Lexeme} {opens : Token → Bool} (found : List Reference)
    (hopening : opening.map Lexeme.token =
      .ident word :: (symbols ++ [Symbol.word "from" (by decide)]).map Symbol.token)
    (hin : ∀ x ∈ symbols, x.token.inClause = true) (hlength : symbols.length < clauseLimit)
    (hopens : ∃ t ts, symbols.map Symbol.token = t :: ts ∧ opens t = true)
    (hr : ∀ clause p, (∀ x ∈ clause, x.token.inClause = true) → clause.length < clauseLimit →
      (∃ x more, clause = x :: more ∧ opens x.token = true) →
      reference? none (.ident word) (clause ++ ⟨.ident "from", p⟩ :: [⟨.literal text, q⟩]) =
        some r) :
    collect none found (opening ++ [⟨.literal text, q⟩]) = record found r := by
  obtain ⟨o, ls, rfl, hls⟩ := eq_cons_of_map_token hopening
  obtain ⟨clause, p, rfl, htokens, hclause, heq⟩ := eq_clause_of_map_token hls hin
  obtain ⟨t, ts, hsymbols, ht⟩ := hopens
  obtain ⟨_, more, hcons, -⟩ := eq_cons_of_map_token (htokens.trans hsymbols)
  rw [List.cons_append, List.append_assoc, List.singleton_append, collect,
    hr clause p hclause (heq ▸ hlength) ⟨_, more, hcons, ht⟩]
  refine collect_of_inSourcedClause _ _ fun x hx => ?_
  simp only [List.mem_append, List.mem_cons, List.not_mem_nil, or_false] at hx
  rcases hx with hx | rfl | rfl
  · exact Or.inl (hclause x hx)
  · exact Or.inl rfl
  · exact Or.inr ⟨text, rfl⟩

/-- Every form of statement makes one reference, of its own kind, at the literal. -/
theorem Form.collect (f : Form) {opening closing : List Lexeme} (text : String) (q : Place)
    (found : List Reference) (hopening : opening.map Lexeme.token = f.opening.map Symbol.token)
    (hclosing : closing.map Lexeme.token = f.closing.map Symbol.token) :
    Source.collect none found (opening ++ ⟨.literal text, q⟩ :: closing) =
      record found ⟨text, f.kind, q⟩ := by
  cases f with
  | require =>
    obtain ⟨p₁, p₂, rfl⟩ := eq_pair_of_map_token hopening
    obtain ⟨p₃, rfl⟩ := eq_singleton_of_map_token hclosing
    rfl
  | importCall =>
    obtain ⟨p₁, p₂, rfl⟩ := eq_pair_of_map_token hopening
    obtain ⟨p₃, rfl⟩ := eq_singleton_of_map_token hclosing
    rfl
  | importOnly =>
    obtain ⟨p, rfl⟩ := eq_singleton_of_map_token hopening
    obtain rfl := List.map_eq_nil_iff.1 hclosing
    rfl
  | importFrom c h =>
    obtain rfl := List.map_eq_nil_iff.1 hclosing
    exact collect_clause found hopening c.inClause (Nat.lt_succ_of_le h) c.opens
      fun _ _ => importReference?_clause
  | exportFrom c h =>
    obtain rfl := List.map_eq_nil_iff.1 hclosing
    exact collect_clause found hopening c.inClause (Nat.lt_succ_of_le h) c.opens
      fun _ _ => exportReference?_clause

/-! ## The references of a program -/

open Lexer in
/-- A piece is read as some tokens, from which its references are collected. -/
theorem Piece.reads (x : Piece) (p : Place) :
    ∃ new, ReadsAs p x.text new ∧ ∀ found rest,
      collect none found (new ++ rest) =
        collect none ((x.references p).foldl record found) rest := by
  cases x with
  | statement s =>
    obtain ⟨opening, closing, q, hopening, hclosing, hread⟩ := s.readsAs p
    refine ⟨_, hread, fun found rest => ?_⟩
    have hsplit : opening ++
          ⟨.literal s.specifier, p.past s.before⟩ :: (closing ++ [⟨.punct ';', q⟩]) ++ rest =
        (opening ++ ⟨.literal s.specifier, p.past s.before⟩ :: closing) ++
          ⟨.punct ';', q⟩ :: rest := by
      simp
    rw [hsplit, collect_separated, s.form.collect _ _ found hopening hclosing]
    rfl
  | string q body h =>
    have htext : Piece.text (.string q body h) =
        (q.char :: (body.toList ++ [q.char])) ++ [';'] := by
      simp [Piece.text]
    refine ⟨_, htext ▸ (readsAs_quoted h p).append (readsAs_semicolon _), fun found rest => ?_⟩
    exact collect_separated none found [⟨.literal body, p⟩] _ rest
  | trivia t => exact ⟨[], fun ls r => finish_trivia p ls r t, fun _ _ => rfl⟩

open Lexer in
theorem reads_pieces (xs : List Piece) (p : Place) :
    ∃ new, ReadsAs p (xs.flatMap Piece.text) new ∧ ∀ found,
      collect none found new = (Program.referencesFrom p xs).foldl record found := by
  induction xs generalizing p with
  | nil => exact ⟨[], fun _ _ => rfl, fun _ => rfl⟩
  | cons x xs ih =>
    obtain ⟨new, hread, hcollect⟩ := x.reads p
    obtain ⟨new', hread', hcollect'⟩ := ih (p.past x.text)
    refine ⟨new ++ new', hread.append hread', fun found => ?_⟩
    rw [hcollect, hcollect', Program.referencesFrom, List.foldl_append]

theorem Program.specifier_ne (xs : List Piece) (p : Place) :
    ∀ r ∈ referencesFrom p xs, r.specifier ≠ "" := by
  induction xs generalizing p with
  | nil => nofun
  | cons x xs ih =>
    intro r hr
    rcases List.mem_append.1 hr with hr | hr
    · cases x with
      | statement s =>
        obtain rfl := List.mem_singleton.1 hr
        exact s.specifier_ne
      | string => cases hr
      | trivia => cases hr
    · exact ih _ r hr

/-- Recording references in turn keeps the first of each specifier. -/
theorem foldl_record {rs : List Reference} (h : ∀ r ∈ rs, r.specifier ≠ "")
    (found : List Reference) : (rs.foldl record found).reverse =
      List.eraseDupsBy.loop (fun r q => r.specifier == q.specifier) rs found := by
  induction rs generalizing found with
  | nil => rfl
  | cons r rs ih =>
    obtain ⟨hr, hrs⟩ := List.forall_mem_cons.1 h
    have hany : found.any (fun q => r.specifier == q.specifier) =
        found.any (fun q => q.specifier == r.specifier) := by
      simp only [BEq.comm]
    rw [List.foldl_cons, ih hrs, List.eraseDupsBy.loop, hany]
    cases hlisted : found.any (fun q => q.specifier == r.specifier) with
    | true => rw [record_of_listed (Or.inr hlisted)]
    | false => rw [record_of_not_listed (by simp [hr, Reference.Listed, hlisted])]

namespace Program

open Lexer in
theorem finish_start (p : Program) : ∃ t, finish (.start p.text) = .ok t ∧
    collect none [] t.lexemes.reverse = p.references.foldl record [] := by
  obtain ⟨new, hread, hcollect⟩ := reads_pieces p.pieces ⟨0, 1⟩
  have hpieces : ∀ r, finish (.reading ⟨0, 1⟩ [] [] (p.pieces.flatMap Piece.text ++ r)) =
      finish (.reading (Place.past ⟨0, 1⟩ (p.pieces.flatMap Piece.text)) new.reverse [] r) := by
    intro r
    rw [hread, List.append_nil]
  have hnew : collect none [] new.reverse.reverse = p.references.foldl record [] := by
    rw [List.reverse_reverse]
    exact hcollect []
  rw [p.start_text, text, hpieces]
  cases p.comment with
  | none => exact ⟨_, finish_of_rest_nil rfl, hnew⟩
  | some body =>
    have hcomment := finish_lineComment (Place.past ⟨0, 1⟩ (p.pieces.flatMap Piece.text))
      new.reverse [] [] body.property nofun
    rw [List.append_nil] at hcomment
    exact ⟨_, hcomment.trans (finish_of_rest_nil rfl), hnew⟩

theorem scan_rendered (p : Program) :
    scan (String.ofList p.text) =
      .ok (p.references.eraseDupsBy fun r q => r.specifier == q.specifier) := by
  obtain ⟨t, ht, hcollect⟩ := p.finish_start
  refine scan_eq_ok_iff.2 ⟨t, ?_, ?_⟩
  · rw [String.toList_ofList]
    exact ht
  · rw [hcollect]
    exact foldl_record (specifier_ne p.pieces ⟨0, 1⟩) []

/--
Extraction undoes rendering. A program's text, however it is spaced and whatever its comments and
strings say, is accepted, and the references found in it are those of the statements, the first for
each specifier. If the text can be counted in 32 bits, their lines are those that are reported.
-/
theorem scan_text (p : Program) (hcount : Countable p.text) :
    ∃ rs, scan (String.ofList p.text) = .ok rs ∧
      rs = (p.references.eraseDupsBy fun r q => r.specifier == q.specifier) ∧
      ∀ r ∈ rs, r.line.toNat = r.place.line := by
  refine ⟨_, p.scan_rendered, rfl, fun r hr => ?_⟩
  refine line_eq_of_scan ?_ p.scan_rendered r hr
  rwa [String.toList_ofList]

/-- A clause that binds `from`, a comment that looks like a call, and a specifier for the second
time. -/
def twice : Program :=
  let a : Name := ⟨"a", .refl true, by decide, by decide⟩
  let b : Binding := ⟨a, some ⟨"from", .refl true, by decide, by decide⟩⟩
  let space : Trivia := .blank ' ' (.refl true)
  ⟨[.trivia (.lineComment "require('y')" (by decide)),
    .statement ⟨.importFrom (.both a (.named [b])) (by decide), .single, "x", by decide, by simp,
      fun i => if [3, 4, 7, 8, 9].contains i then [space] else []⟩,
    .statement ⟨.require, .double, "x", by decide, by simp, fun _ => []⟩], none⟩

theorem scan_text_twice :
    Countable twice.text ∧
      String.ofList twice.text =
        "//require('y')\nimport a, \x7b a as from \x7d from 'x';require(\"x\");" ∧
      twice.references = [⟨"x", .esmImport, ⟨44, 2⟩⟩, ⟨"x", .cjsRequire, ⟨56, 2⟩⟩] ∧
      scan (String.ofList twice.text) = .ok [⟨"x", .esmImport, ⟨44, 2⟩⟩] := by
  have hcount : Countable twice.text := by decide
  have hreferences : twice.references =
      [⟨"x", .esmImport, ⟨44, 2⟩⟩, ⟨"x", .cjsRequire, ⟨56, 2⟩⟩] := by decide
  obtain ⟨rs, hrs, rfl, -⟩ := scan_text twice hcount
  refine ⟨hcount, by decide, hreferences, ?_⟩
  rw [hrs, hreferences]
  rfl

end Program

end PackageMap.Source
