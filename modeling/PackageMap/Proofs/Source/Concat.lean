import Mathlib
import PackageMap.Proofs.Source.Counters
import PackageMap.Proofs.Source.Seam
import PackageMap.Proofs.Source.Separated

/-!
# Texts one after the other

An empty line and a semicolon part two texts completely: the first is read as if it ended there and
the second as if it began there. Lines are counted as long as they fit into 32 bits.
-/

namespace PackageMap.Source

namespace Lexer

variable {s t : State}

theorem regexAllowed_congr (t : Token) {before before' : List Token}
    (h : ∀ op, op = '+' ∨ op = '-' → updatesOperand op before = updatesOperand op before') :
    regexAllowed (t :: before) = regexAllowed (t :: before') := by
  cases t with
  | punct c =>
    simp only [regexAllowed]
    by_cases hc : c = '+' ∨ c = '-'
    · rw [h c hc]
    · obtain ⟨hp, hm⟩ := not_or.1 hc
      simp only [beq_false_of_ne hp, beq_false_of_ne hm, Bool.or_false, Bool.false_and]
  | _ => rfl

theorem updatesOperand_semicolon {op : Char} (h : op = '+' ∨ op = '-') (before : List Token) :
    updatesOperand op (.punct ';' :: before) = false := by
  cases before with
  | nil => rfl
  | cons operand before => rcases h with rfl | rfl <;> rfl

theorem updatesOperand_of_semicolon (op : Char) (last : Token) (before : List Token) :
    updatesOperand op (last :: .punct ';' :: before) = false := by
  cases last with
  | punct c => exact Bool.and_false _
  | _ => rfl

/-- A semicolon behind a text decides about slashes as the start of a text does. -/
theorem slashAlike_semicolon (place : Place) (ls : List Lexeme) :
    SlashAlike [] (⟨.punct ';', place⟩ :: ls) := by
  intro new
  rcases new with _ | ⟨t, _ | ⟨u, _ | ⟨v, new⟩⟩⟩
  · rfl
  · refine regexAllowed_congr t fun op hop => ?_
    exact (updatesOperand_semicolon hop _).symm
  · refine regexAllowed_congr t fun op hop => ?_
    have hnil : updatesOperand op [u] = false := by cases u <;> rfl
    exact hnil.trans (updatesOperand_of_semicolon op u _).symm
  · rfl

/-- The state after an empty line and a semicolon, before the text `r`. -/
def State.afterSemicolon (s : State) (r : List Char) : State :=
  ⟨⟨r, s.cursor.offset + 3, s.cursor.line + 2⟩,
    ⟨.punct ';', ⟨s.cursor.offset + 2, s.cursor.line + 2⟩⟩ :: s.lexemes, s.depths⟩

theorem finish_semicolon (s : State) (r : List Char) :
    finish (s.withRest ('\n' :: '\n' :: ';' :: r)) = finish (s.afterSemicolon r) := by
  rw [finish_of_step (by simp [State.withRest]) rfl]
  rw [finish_of_step (by simp [State.withRest, State.moveTo]) rfl]
  rw [finish_of_step (by simp [State.withRest, State.moveTo]) rfl]
  rfl

end Lexer

/-- The references of two accepted texts with an empty line and a semicolon between them. -/
theorem scan_separated {a b : String} {s : Lexer.State} {ra rb : List Reference}
    (ha : scan a = .ok ra) (hs : Lexer.finish (.start a.toList) = .ok s) (hopen : s.depths = [])
    (hb : scan b = .ok rb) (hfirst : ¬ ['#', '!'] <+: b.toList) :
    scan (a ++ "\n\n;" ++ b) =
      .ok (ra ++ (rb.filter fun r => ¬ Reference.Listed ra r.specifier).map
        (Reference.shift (s.cursor.offset + 3) (s.cursor.line - 1 + 2))) := by
  obtain ⟨s', hs', rfl⟩ := scan_eq_ok_iff.1 ha
  obtain rfl : s = s' := Except.ok.inj (hs.symm.trans hs')
  obtain ⟨t, ht, rfl⟩ := scan_eq_ok_iff.1 hb
  have hline : 1 ≤ s.cursor.line := Lexer.start_line a.toList ▸ Lexer.finish_line_le hs
  -- the run over the whole text passes the end of `a` and the separator
  have htext : (a ++ "\n\n;" ++ b).toList = a.toList ++ '\n' :: '\n' :: ';' :: b.toList := by
    rw [String.toList_append, String.toList_append, List.append_assoc]
    rfl
  have hrun : Lexer.finish (.start (a ++ "\n\n;" ++ b).toList) =
      Lexer.finish (s.afterSemicolon b.toList) := by
    rw [htext, Lexer.start_seam, Lexer.finish_seam hs, Lexer.finish_semicolon]
  -- and goes on as the run over `b` does
  have hstart : Lexer.State.start b.toList = ⟨.ofText b.toList, [], []⟩ := by
    refine Lexer.start_of_ne fun r hr => hfirst ⟨r, ?_⟩
    rw [hr]
    rfl
  have hshift : Lexer.Shifted (s.cursor.offset + 3) (s.cursor.line - 1 + 2) []
      (⟨.punct ';', ⟨s.cursor.offset + 2, s.cursor.line + 2⟩⟩ :: s.lexemes)
      (Lexer.State.start b.toList) (s.afterSemicolon b.toList) := by
    rw [hstart]
    refine ⟨?_, hopen, [], rfl, rfl⟩
    show Cursor.mk _ _ (s.cursor.line + 2) = Cursor.mk _ _ (s.cursor.line - 1 + 2 + 1)
    rw [show s.cursor.line - 1 + 2 + 1 = s.cursor.line + 2 by omega]
    rfl
  obtain ⟨t', ht', hshift'⟩ :=
    Lexer.finish_shifted (Lexer.slashAlike_semicolon _ _) hshift ht
  obtain ⟨new, hnew, hnew'⟩ := hshift'.lexemes
  rw [List.append_nil] at hnew
  subst hnew
  refine scan_eq_ok_iff.2 ⟨t', hrun.trans ht', ?_⟩
  rw [hnew', List.reverse_append, List.reverse_cons, List.append_assoc, List.singleton_append,
    collect_separated, ← List.map_reverse]
  have hcollect : collect none (collect none [] s.lexemes.reverse)
      (t.lexemes.reverse.map (Lexeme.shift (s.cursor.offset + 3) (s.cursor.line - 1 + 2))) =
      onTop _ _ (collect none [] t.lexemes.reverse) (collect none [] s.lexemes.reverse) :=
    collect_onTop none [] _ _
  rw [hcollect, onTop, List.reverse_append, ← List.map_reverse, ← List.filter_reverse]
  simp only [Reference.listed_reverse]

/--
Scanning two accepted texts with an empty line and a semicolon between them: the references of the
first, then those of the second that the first does not have, at their places in the whole. The
lexer counts lines from 1, so it has moved over `s.cursor.line - 1` of them when it stops. If the
whole text can be counted in 32 bits, each of these lines is the one that is reported.
-/
theorem scan_concat {a b : String} {s : Lexer.State} {ra rb : List Reference}
    (hcount : Countable (a ++ "\n\n;" ++ b).toList) (ha : scan a = .ok ra)
    (hs : Lexer.finish (.start a.toList) = .ok s) (hopen : s.depths = [])
    (hb : scan b = .ok rb) (hfirst : ¬ ['#', '!'] <+: b.toList) :
    ∃ rs, scan (a ++ "\n\n;" ++ b) = .ok rs ∧
      rs = ra ++ (rb.filter fun r => ¬ Reference.Listed ra r.specifier).map
        (Reference.shift (s.cursor.offset + 3) (s.cursor.line - 1 + 2)) ∧
      ∀ r ∈ ra ++ rb ++ rs, r.line.toNat = r.place.line := by
  have hrs := scan_separated ha hs hopen hb hfirst
  refine ⟨_, hrs, rfl, ?_⟩
  have htext : (a ++ "\n\n;" ++ b).toList = a.toList ++ "\n\n;".toList ++ b.toList := by
    rw [String.toList_append, String.toList_append]
  rw [htext] at hcount
  have hcount' := hcount.of_sublist (List.sublist_append_left _ _)
  intro r hr
  rcases List.mem_append.1 hr with hr | hr
  · rcases List.mem_append.1 hr with hr | hr
    · exact line_eq_of_scan (hcount'.of_sublist (List.sublist_append_left _ _)) ha r hr
    · exact line_eq_of_scan (hcount.of_sublist (List.sublist_append_right _ _)) hb r hr
  · exact line_eq_of_scan (htext ▸ hcount) hrs r hr

/-- A second text that repeats a specifier of the first and adds one, after a comment over two lines. -/
theorem scan_concat_import :
    Countable ("import'x'/*\n*/" ++ "\n\n;" ++ "/'/;import'x';import'y'").toList ∧
      scan "import'x'/*\n*/" = .ok [⟨"x", .esmImport, ⟨6, 1⟩⟩] ∧
      scan "/'/;import'x';import'y'" = .ok [⟨"x", .esmImport, ⟨10, 1⟩⟩, ⟨"y", .esmImport, ⟨20, 1⟩⟩] ∧
      scan ("import'x'/*\n*/" ++ "\n\n;" ++ "/'/;import'x';import'y'") =
        .ok [⟨"x", .esmImport, ⟨6, 1⟩⟩, ⟨"y", .esmImport, ⟨37, 4⟩⟩] := by
  have hcount : Countable ("import'x'/*\n*/" ++ "\n\n;" ++ "/'/;import'x';import'y'").toList := by
    decide
  have ha : scan "import'x'/*\n*/" = .ok [⟨"x", .esmImport, ⟨6, 1⟩⟩] := by cbv
  have hs : Lexer.finish (.start "import'x'/*\n*/".toList) =
      .ok ⟨⟨[], 14, 2⟩, [⟨.literal "x", ⟨6, 1⟩⟩, ⟨.ident "import", ⟨0, 1⟩⟩], []⟩ := by cbv
  have hb : scan "/'/;import'x';import'y'" =
      .ok [⟨"x", .esmImport, ⟨10, 1⟩⟩, ⟨"y", .esmImport, ⟨20, 1⟩⟩] := by cbv
  obtain ⟨rs, hrs, rfl, -⟩ := scan_concat hcount ha hs rfl hb (by decide)
  exact ⟨hcount, ha, hb, hrs⟩

end PackageMap.Source
