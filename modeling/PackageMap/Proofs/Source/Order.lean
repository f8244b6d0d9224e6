import PackageMap.Proofs.Source.Excerpt
import PackageMap.Proofs.Source.Literals
import PackageMap.Proofs.Source.Rendered
import PackageMap.Proofs.Source.Trivia

/-!
# References in the order of the text

The references of a text are excerpts of it, one after the other and each specifier once
(`scan_in_order`).

1. No token between a word and the literal that it refers to makes a reference, so the literals that
   are referred to are some of the tokens, in order (`sublist_literals`).
2. Of the references to one specifier the first is listed (`find?_of_mem_collect`), and what is
   listed keeps its order (`sublist_collect`).
3. Tokens open one after the other, on lines that do not decrease (`Visits.pairwise`), and a literal
   is what the text holds there between two quotes (`Visits.quotedAt`).
4. The lines are those that are reported, as long as they can be counted (`line_eq_of_scan`).
-/

namespace PackageMap.Source

/-! ## References and their literals -/

/-- The references that the tokens make, in order, also those to one specifier. -/
def references (before : Option Token) : List Lexeme → List Reference
  | [] => []
  | x :: rest => (reference? before x.token rest).toList ++ references (some x.token) rest

theorem collect_eq_foldl (before : Option Token) (found : List Reference) (ls : List Lexeme) :
    collect before found ls = (references before ls).foldl record found := by
  induction ls generalizing before found with
  | nil => rfl
  | cons x ls ih =>
    rw [collect, references, List.foldl_append]
    cases reference? before x.token ls with
    | none => exact ih _ _
    | some r => exact ih _ _

variable {ls : List Lexeme} {r : Reference}

/-- Nothing is referred to before the literal. -/
theorem references_skipped {skipped rest : List Lexeme} (h : LeadsToLiteral skipped)
    (before : Option Token) : references before (skipped ++ r.literal :: rest) =
      references (some (.literal r.specifier)) rest := by
  have hliteral (before : Option Token) : references before (r.literal :: rest) =
      references (some (.literal r.specifier)) rest := by
    have hnone : reference? before (.literal r.specifier) rest = none := ite_self none
    show (reference? before (.literal r.specifier) rest).toList ++ _ = _
    rw [hnone]
    rfl
  rcases h with ⟨p, rfl⟩ | h
  · have hnone : reference? before (.punct '(') (r.literal :: rest) = none := ite_self none
    show (reference? before (.punct '(') (r.literal :: rest)).toList ++ references _ _ = _
    rw [hnone]
    exact hliteral _
  · induction skipped generalizing before with
    | nil => exact hliteral before
    | cons x skipped ih =>
      obtain ⟨hx, hskipped⟩ := List.forall_mem_cons.1 h
      have hhead : ∀ y ∈ (skipped ++ r.literal :: rest).head?, y.token.inSourcedClause := by
        intro y hy
        cases skipped with
        | nil =>
          obtain rfl : r.literal = y := Option.some.inj hy
          exact .inr ⟨r.specifier, rfl⟩
        | cons z skipped =>
          obtain rfl : z = y := Option.some.inj hy
          exact .inl (hskipped z List.mem_cons_self)
      rw [List.cons_append, references, reference?_of_inSourcedClause before (.inl hx) hhead]
      exact ih _ hskipped

/-- The literals that are referred to are some of the tokens, in order. -/
theorem sublist_literals (before : Option Token) (ls : List Lexeme) :
    ((references before ls).map Reference.literal).Sublist ls := by
  cases ls with
  | nil => exact .slnil
  | cons x ls =>
    rw [references]
    cases hr : reference? before x.token ls with
    | none => exact (sublist_literals _ ls).cons x
    | some r =>
      obtain ⟨skipped, rest, rfl, hskipped⟩ := exists_of_reference? hr
      rw [references_skipped hskipped]
      have hrest := (sublist_literals (some (.literal r.specifier)) rest).cons_cons r.literal
      exact (hrest.trans (List.sublist_append_right skipped _)).cons x
termination_by ls.length
decreasing_by
  all_goals
    subst_vars
    simp only [List.length_cons, List.length_append]
    omega

/-! ## Each specifier once -/

/-- The references have specifiers, and no two have the same. -/
structure Distinct (found : List Reference) : Prop where
  pairwise : found.Pairwise fun r q => r.specifier ≠ q.specifier
  ne_empty : ∀ r ∈ found, r.specifier ≠ ""

theorem Distinct.record {found : List Reference} (h : Distinct found) (r : Reference) :
    Distinct (record found r) := by
  by_cases hr : r.specifier = "" ∨ Reference.Listed found r.specifier
  · rwa [record_of_listed hr]
  · rw [record_of_not_listed hr]
    obtain ⟨hempty, hlisted⟩ := not_or.1 hr
    refine ⟨List.pairwise_cons.2 ⟨fun q hq hs => hlisted ?_, h.pairwise⟩,
      List.forall_mem_cons.2 ⟨hempty, h.ne_empty⟩⟩
    exact Reference.listed_iff.2 ⟨q, hq, hs.symm⟩

theorem Distinct.foldl_record {found : List Reference} (h : Distinct found)
    (refs : List Reference) : Distinct (refs.foldl Source.record found) := by
  induction refs generalizing found with
  | nil => exact h
  | cons r refs ih => exact ih (h.record r)

theorem sublist_foldl_record (found refs : List Reference) :
    (refs.foldl record found).reverse.Sublist (found.reverse ++ refs) := by
  induction refs generalizing found with
  | nil =>
    rw [List.append_nil]
    exact List.Sublist.refl _
  | cons r refs ih =>
    by_cases hr : r.specifier = "" ∨ Reference.Listed found r.specifier
    · rw [List.foldl_cons, record_of_listed hr]
      exact (ih found).trans (.append_left (List.sublist_cons_self r refs) _)
    · rw [List.foldl_cons, record_of_not_listed hr]
      have hr := ih (r :: found)
      rwa [List.reverse_cons, List.append_assoc, List.singleton_append] at hr

/-- The first reference to a specifier that is not listed yet is the one that is listed. -/
theorem find?_of_mem_foldl_record {found refs : List Reference}
    (h : r ∈ refs.foldl record found) (hr : r.specifier ≠ "") :
    r ∈ found ∨ ¬ Reference.Listed found r.specifier ∧
      refs.find? (·.specifier == r.specifier) = some r := by
  induction refs generalizing found with
  | nil => exact .inl h
  | cons q refs ih =>
    by_cases hq : q.specifier = "" ∨ Reference.Listed found q.specifier
    · rw [List.foldl_cons, record_of_listed hq] at h
      refine (ih h).imp_right fun ⟨hlisted, hfind⟩ => ⟨hlisted, ?_⟩
      rw [List.find?_cons_of_neg, hfind]
      intro hs
      obtain hs : q.specifier = r.specifier := by simpa using hs
      rw [hs] at hq
      exact hq.elim hr hlisted
    · rw [List.foldl_cons, record_of_not_listed hq] at h
      rcases ih h with hmem | ⟨hlisted, hfind⟩
      · rcases List.mem_cons.1 hmem with rfl | hmem
        · exact .inr ⟨mt Or.inr hq, List.find?_cons_of_pos (by simp)⟩
        · exact .inl hmem
      · have hcons : ∀ v, Reference.Listed (q :: found) v ↔
            q.specifier = v ∨ Reference.Listed found v := by
          intro v
          rw [Reference.listed_iff, Reference.listed_iff, List.exists_mem_cons_iff]
        obtain ⟨hs, hlisted⟩ := not_or.1 (mt (hcons _).2 hlisted)
        refine .inr ⟨hlisted, ?_⟩
        rw [List.find?_cons_of_neg, hfind]
        simpa using hs

theorem sublist_collect (ls : List Lexeme) :
    (collect none [] ls).reverse.Sublist (references none ls) := by
  rw [collect_eq_foldl]
  exact sublist_foldl_record [] _

/-- The literals of the references that are listed are some of the tokens, in order. -/
theorem sublist_collect_literals (ls : List Lexeme) :
    ((collect none [] ls).reverse.map Reference.literal).Sublist ls :=
  ((sublist_collect ls).map _).trans (sublist_literals none ls)

theorem distinct_collect (ls : List Lexeme) : Distinct (collect none [] ls) := by
  rw [collect_eq_foldl]
  exact Distinct.foldl_record ⟨.nil, nofun⟩ _

theorem find?_of_mem_collect (h : r ∈ collect none [] ls) :
    (references none ls).find? (·.specifier == r.specifier) = some r := by
  have hr := (distinct_collect ls).ne_empty r h
  rw [collect_eq_foldl] at h
  rcases find?_of_mem_foldl_record h hr with hnil | ⟨-, hfind⟩
  · cases hnil
  · exact hfind

/-! ## Literals in the text -/

/-- A quote stands behind the first `n` characters of the text and then `v`, up to the next such
quote that is not escaped. -/
def QuotedAt (text : List Char) (n : Nat) (v : List Char) : Prop :=
  ∃ quote ∈ ['"', '\'', '`'], ∃ before after,
    text = before ++ quote :: (v ++ quote :: after) ∧ before.length = n ∧ Enclosed quote v

theorem QuotedAt.append {text v : List Char} {n : Nat} (h : QuotedAt text n v) (u : List Char) :
    QuotedAt (u ++ text) (u.length + n) v := by
  obtain ⟨quote, hquote, before, after, rfl, rfl, hv⟩ := h
  exact ⟨quote, hquote, u ++ before, after, (List.append_assoc _ _ _).symm, List.length_append, hv⟩

namespace Lexer

variable {s t : State} {a : Char} {r text : List Char}

/-- A token that is found at the text `text` is what the text begins with, if it is a literal. -/
def Excerpt (text : List Char) (token : Token) : Prop :=
  ∀ v, token = .literal v → QuotedAt text 0 v.toList

/-- The step adds at most one token, and a literal is what the text begins with. -/
def Quotes (s t : State) : Prop :=
  t.lexemes = s.lexemes ∨
    ∃ token, t.lexemes = ⟨token, s.cursor.place⟩ :: s.lexemes ∧ Excerpt s.cursor.rest token

theorem slash_quotes (h : slash s r = .ok t) : Quotes s t := by
  unfold slash at h
  split at h
  · cases h; exact .inl rfl
  · split at h
    · cases h; exact .inl rfl
    · cases h
  · split at h
    · split at h
      · cases h; exact .inr ⟨.other, rfl, nofun⟩
      · cases h; exact .inr ⟨.punct '/', rfl, nofun⟩
    · cases h; exact .inr ⟨.punct '/', rfl, nofun⟩

theorem quoted_quotes (ha : a = '"' ∨ a = '\'') (hs : s.cursor.rest = a :: r)
    (h : quoted s a r = .ok t) : Quotes s t := by
  unfold quoted at h
  split at h
  · next text c hread =>
    cases h
    obtain ⟨_, rfl, rfl, hbody⟩ := readString_ends ha hread
    refine .inr ⟨.literal (String.ofList text), rfl, ?_⟩
    rintro v ⟨⟩
    refine ⟨a, by rcases ha with rfl | rfl <;> decide, [], c.rest, ?_, rfl, ?_⟩
    · rw [hs, String.toList_ofList]
      rfl
    · rwa [String.toList_ofList]
  · cases h

theorem template_quotes (hs : s.cursor.rest = '`' :: r) (h : template s false r = .ok t) :
    Quotes s t := by
  unfold template at h
  split at h
  · next text c hread =>
    cases h
    obtain ⟨_, rfl, rfl, hbody⟩ := readTemplate_ends hread
    refine .inr ⟨.literal (String.ofList text), rfl, ?_⟩
    rintro v ⟨⟩
    refine ⟨'`', by decide, [], c.rest, ?_, rfl, ?_⟩
    · rw [hs, String.toList_ofList]
      rfl
    · rwa [String.toList_ofList]
  · cases h; exact .inr ⟨.other, rfl, nofun⟩
  · cases h

theorem closeBrace_quotes (h : closeBrace s r = .ok t) : Quotes s t := by
  unfold closeBrace at h
  split at h
  · cases h; exact .inr ⟨.punct '\x7d', rfl, nofun⟩
  · unfold template at h
    split at h
    · cases h; exact .inr ⟨.other, rfl, nofun⟩
    · cases h; exact .inr ⟨.other, rfl, nofun⟩
    · cases h
  · cases h; exact .inr ⟨.punct '\x7d', rfl, nofun⟩

theorem step_quotes (h : step s = .ok t) : Quotes s t := by
  cases hs : s.cursor.rest with
  | nil =>
    rw [step_of_rest_nil hs] at h
    cases h
    exact .inl rfl
  | cons a r =>
    obtain ⟨f, hf, hstep⟩ := exists_reads a
    rw [hstep s r hs] at h
    cases hf with
    | feed => cases h; exact .inl rfl
    | blank => cases h; exact .inl rfl
    | slash => exact slash_quotes h
    | quote ha => exact quoted_quotes ha hs h
    | template => exact template_quotes hs h
    | opening => cases h; exact .inr ⟨.punct '\x7b', rfl, nofun⟩
    | closing => exact closeBrace_quotes h
    | word => cases h; exact .inr ⟨_, rfl, nofun⟩
    | number => cases h; exact .inr ⟨.other, rfl, nofun⟩
    | mark => cases h; exact .inr ⟨_, rfl, nofun⟩

namespace Visits

/-- What is left of the text stands behind what has been read. -/
theorem exists_eq_append (h : Visits text s) :
    ∃ u, text = u ++ s.cursor.rest ∧ s.cursor.offset = u.length := by
  obtain ⟨u, hu, hlen⟩ := h.ahead
  exact ⟨u, hu, hlen.trans (Nat.zero_add _)⟩

/-- A token opens where the lexer has been. -/
theorem exists_of_mem (h : Visits text s) {x : Lexeme} (hx : x ∈ s.lexemes) :
    ∃ t, Visits text t ∧ x.place = t.cursor.place := by
  induction h with
  | start => cases hx
  | @step s t h _ hs ih =>
    rcases (step_steps hs).lexemes with hlexemes | ⟨token, hlexemes⟩
    · exact ih (hlexemes ▸ hx)
    · rw [hlexemes] at hx
      rcases List.mem_cons.1 hx with rfl | hx
      · exact ⟨s, h, rfl⟩
      · exact ih hx

theorem quotedAt (h : Visits text s) : ∀ x ∈ s.lexemes, ∀ v, x.token = .literal v →
    QuotedAt text x.place.offset v.toList := by
  induction h with
  | start => nofun
  | @step s t h _ hs ih =>
    rcases step_quotes hs with hlexemes | ⟨token, hlexemes, htoken⟩
    · rwa [hlexemes]
    · rw [hlexemes]
      refine List.forall_mem_cons.2 ⟨fun v hv => ?_, ih⟩
      obtain ⟨u, rfl, hoffset⟩ := h.exists_eq_append
      show QuotedAt (u ++ s.cursor.rest) s.cursor.offset v.toList
      rw [hoffset]
      exact (htoken v hv).append u

/-- Tokens open one after the other, before the cursor. -/
theorem pairwise (h : Visits text s) :
    s.lexemes.Pairwise (fun x y => y.place.offset < x.place.offset ∧ y.place.line ≤ x.place.line) ∧
      ∀ x ∈ s.lexemes, x.place.offset < s.cursor.offset ∧ x.place.line ≤ s.cursor.line := by
  induction h with
  | start => exact ⟨.nil, nofun⟩
  | @step s t h hr hs ih =>
    obtain ⟨hpairwise, hbefore⟩ := ih
    obtain ⟨hahead, hlexemes⟩ := step_steps hs
    have hlt := hahead.offset_lt (step_length_lt hr hs)
    have hle := step_line_le hs
    have hbehind : ∀ x ∈ s.lexemes, x.place.offset < t.cursor.offset ∧
        x.place.line ≤ t.cursor.line := fun x hx =>
      ⟨Nat.lt_trans (hbefore x hx).1 hlt, Nat.le_trans (hbefore x hx).2 hle⟩
    rcases hlexemes with hlexemes | ⟨token, hlexemes⟩
    · rw [hlexemes]
      exact ⟨hpairwise, hbehind⟩
    · rw [hlexemes]
      exact ⟨List.pairwise_cons.2 ⟨hbefore, hpairwise⟩,
        List.forall_mem_cons.2 ⟨⟨hlt, hle⟩, hbehind⟩⟩

end Visits

end Lexer

open Lexer in
/-- The literals of an accepted text's references are some of the tokens that the lexer finds. -/
theorem exists_visits_of_scan {text : String} {rs : List Reference} (h : scan text = .ok rs) :
    ∃ s, Visits text.toList s ∧ (collect none [] s.lexemes.reverse).reverse = rs ∧
      lexemes text.toList = .ok s.lexemes.reverse ∧
      (rs.map Reference.literal).Sublist s.lexemes.reverse := by
  obtain ⟨s, hs, rfl⟩ := scan_eq_ok_iff.1 h
  have hlexemes : lexemes text.toList = .ok s.lexemes.reverse := by
    unfold lexemes
    rw [hs]
    rfl
  exact ⟨s, Visits.start.of_finish hs, rfl, hlexemes, sublist_collect_literals _⟩

open Lexer in
/--
The references of a text that can be counted in 32 bits are excerpts of it: they open further and
further on in the text and are reported on lines that do not decrease. Each has a specifier of its
own, which is what stands between its quotes, and is the first reference that a token makes to this
specifier.
-/
theorem scan_in_order {text : String} {rs : List Reference} (hcount : Countable text.toList)
    (h : scan text = .ok rs) :
    rs.Pairwise (fun r q => r.place.offset < q.place.offset ∧ r.line ≤ q.line ∧
        r.specifier ≠ q.specifier) ∧
      (∀ r ∈ rs, r.specifier ≠ "" ∧ r.line.toNat = r.place.line ∧
        QuotedAt text.toList r.place.offset r.specifier.toList) ∧
      ∃ ls, lexemes text.toList = .ok ls ∧
        ∀ r ∈ rs, (references none ls).find? (·.specifier == r.specifier) = some r := by
  have hline := line_eq_of_scan hcount h
  obtain ⟨s, hvisits, rfl, hlexemes, hliterals⟩ := exists_visits_of_scan h
  have hdistinct := distinct_collect s.lexemes.reverse
  refine ⟨?_, ?_, s.lexemes.reverse, hlexemes, ?_⟩
  · have hplaces : s.lexemes.reverse.Pairwise fun x y =>
        x.place.offset < y.place.offset ∧ x.place.line ≤ y.place.line :=
      List.pairwise_reverse.2 hvisits.pairwise.1
    have hrs := List.pairwise_map.1 (hplaces.sublist hliterals)
    have hspecifiers : (collect none [] s.lexemes.reverse).reverse.Pairwise fun r q =>
        r.specifier ≠ q.specifier :=
      List.pairwise_reverse.2 (hdistinct.pairwise.imp Ne.symm)
    have hboth : (collect none [] s.lexemes.reverse).reverse.Pairwise fun r q =>
        (r.place.offset < q.place.offset ∧ r.place.line ≤ q.place.line) ∧
          r.specifier ≠ q.specifier :=
      hrs.imp₂ (fun _ _ hplace hs => ⟨hplace, hs⟩) hspecifiers
    refine hboth.imp_of_mem fun {r q} hr hq ⟨⟨hoffset, hle⟩, hs⟩ => ?_
    refine ⟨hoffset, UInt32.le_iff_toNat_le.2 ?_, hs⟩
    rwa [hline r hr, hline q hq]
  · intro r hr
    have hmem := hliterals.subset (List.mem_map_of_mem hr)
    exact ⟨hdistinct.ne_empty r (List.mem_reverse.1 hr), hline r hr,
      hvisits.quotedAt r.literal (List.mem_reverse.1 hmem) r.specifier rfl⟩
  · intro r hr
    exact find?_of_mem_collect (List.mem_reverse.1 hr)

/-- A clause that binds the name `from` and a specifier with an escaped quote, then two references
to one specifier. -/
theorem scan_in_order_clauses :
    Countable "import\x7bfrom\x7dfrom'a\\'b';\nexport*from\"c\";require(`c`)".toList ∧
      scan "import\x7bfrom\x7dfrom'a\\'b';\nexport*from\"c\";require(`c`)" =
        .ok [⟨"a\\'b", .esmImport, ⟨16, 1⟩⟩, ⟨"c", .esmExport, ⟨35, 2⟩⟩] ∧
      QuotedAt "import\x7bfrom\x7dfrom'a\\'b';\nexport*from\"c\";require(`c`)".toList 16
        "a\\'b".toList ∧
      ∃ ls, lexemes "import\x7bfrom\x7dfrom'a\\'b';\nexport*from\"c\";require(`c`)".toList =
          .ok ls ∧
        (references none ls).find? (·.specifier == "c") = some ⟨"c", .esmExport, ⟨35, 2⟩⟩ := by
  have hcount : Countable
      "import\x7bfrom\x7dfrom'a\\'b';\nexport*from\"c\";require(`c`)".toList := by decide
  have h : scan "import\x7bfrom\x7dfrom'a\\'b';\nexport*from\"c\";require(`c`)" =
      .ok [⟨"a\\'b", .esmImport, ⟨16, 1⟩⟩, ⟨"c", .esmExport, ⟨35, 2⟩⟩] := by cbv
  obtain ⟨-, hquoted, ls, hls, hfirst⟩ := scan_in_order hcount h
  exact ⟨hcount, h, (hquoted _ List.mem_cons_self).2.2, ls, hls,
    hfirst ⟨"c", .esmExport, ⟨35, 2⟩⟩ (.tail _ List.mem_cons_self)⟩

end PackageMap.Source
