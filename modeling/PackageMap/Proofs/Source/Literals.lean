import PackageMap.Source.Reference

/-!
# Literals of references

A reference is made by a word to a literal behind it, past nothing but a parenthesis or a clause
(`exists_of_reference?`). So the literals of the references that are listed are some of the tokens
(`literal_mem_of_mem_collect`).
-/

namespace PackageMap.Source

/-- The literal that a reference is made to. -/
def Reference.literal (r : Reference) : Lexeme := ⟨.literal r.specifier, r.place⟩

/-- What may stand between a word and the literal that it refers to: a parenthesis or a clause. -/
def LeadsToLiteral (skipped : List Lexeme) : Prop :=
  (∃ p, skipped = [⟨.punct '(', p⟩]) ∨ ∀ x ∈ skipped, x.token.inClause = true

variable {before : Option Token} {token : Token} {ls : List Lexeme} {r : Reference}

theorem exists_of_clauseSource {limit : Nat} {text : String} {place : Place}
    (h : clauseSource limit ls = some (text, place)) :
    ∃ clause rest, ls = clause ++ ⟨.literal text, place⟩ :: rest ∧
      ∀ x ∈ clause, x.token.inClause = true := by
  fun_induction clauseSource limit ls with
  | case1 => cases h
  | case2 => cases h
  | case3 limit l text place rest hfrom =>
    cases h
    refine ⟨[l], rest, rfl, fun x hx => ?_⟩
    rw [List.mem_singleton.1 hx, hfrom]
    rfl
  | case4 limit l ls hne hin ih =>
    obtain ⟨clause, rest, rfl, hclause⟩ := ih h
    exact ⟨l :: clause, rest, rfl, List.forall_mem_cons.2 ⟨hin, hclause⟩⟩
  | case5 => cases h

theorem exists_of_reference? (h : reference? before token ls = some r) :
    ∃ skipped rest, ls = skipped ++ r.literal :: rest ∧ LeadsToLiteral skipped := by
  have hclause {kind : ReferenceKind} {limit : Nat}
      (h : (clauseSource limit ls).map (fun source => ⟨source.1, kind, source.2⟩) = some r) :
      ∃ skipped rest, ls = skipped ++ r.literal :: rest ∧ LeadsToLiteral skipped := by
    obtain ⟨⟨text, place⟩, hsource, rfl⟩ := Option.map_eq_some_iff.1 h
    obtain ⟨clause, rest, rfl, hin⟩ := exists_of_clauseSource hsource
    exact ⟨clause, rest, rfl, .inr hin⟩
  unfold reference? at h
  split at h
  · cases h
  split at h
  · unfold requireReference? at h
    split at h
    · next p _ _ _ rest =>
      cases h
      exact ⟨[⟨.punct '(', p⟩], _, rfl, .inl ⟨p, rfl⟩⟩
    · cases h
  · unfold importReference? at h
    split at h
    · cases h
      exact ⟨[], _, rfl, .inr nofun⟩
    · next p _ _ _ _ _ =>
      split at h
      · cases h
        exact ⟨[⟨.punct '(', p⟩], _, rfl, .inl ⟨p, rfl⟩⟩
      · cases h
    · split at h
      · exact hclause h
      · cases h
    · cases h
  · unfold exportReference? at h
    split at h
    · split at h
      · exact hclause h
      · cases h
    · cases h
  · cases h

theorem record_subset (found : List Reference) (r : Reference) : record found r ⊆ r :: found := by
  unfold record
  split
  · exact List.subset_cons_self r found
  · exact List.Subset.refl _

/-- What is listed was listed before or refers to a token. -/
theorem mem_collect {found : List Reference} (h : r ∈ collect before found ls) :
    r ∈ found ∨ r.literal ∈ ls := by
  induction ls generalizing before found with
  | nil => exact .inl h
  | cons x ls ih =>
    rw [collect] at h
    rcases ih h with hfound | hmem
    · cases hq : reference? before x.token ls with
      | none =>
        rw [hq] at hfound
        exact .inl hfound
      | some q =>
        rw [hq] at hfound
        rcases List.mem_cons.1 (record_subset found q hfound) with rfl | hr
        · obtain ⟨skipped, rest, rfl, -⟩ := exists_of_reference? hq
          exact .inr (.tail x (List.mem_append_right skipped List.mem_cons_self))
        · exact .inl hr
    · exact .inr (.tail _ hmem)

theorem literal_mem_of_mem_collect (h : r ∈ collect before [] ls) : r.literal ∈ ls :=
  (mem_collect h).resolve_left List.not_mem_nil

end PackageMap.Source
