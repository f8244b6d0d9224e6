import PackageMap.Proofs.Source.Step

/-!
# Lines only grow

No reader moves back to an earlier line, so the lexer stops on a line no earlier than the one on
which it starts.
-/

namespace PackageMap.Source

variable {offset line : Nat} {r taken text : List Char} {c : Cursor}

theorem skipLine_line (r : List Char) (offset line : Nat) : (skipLine r offset line).line = line := by
  induction r generalizing offset with
  | nil => rfl
  | cons a r ih =>
    unfold skipLine
    by_cases ha : a = '\n'
    · rw [if_pos ha]
    · rw [if_neg ha]
      exact ih _

theorem le_line {p : Prop} [Decidable p] (line : Nat) : line ≤ if p then line + 1 else line := by
  split <;> omega

theorem skipComment_line_le (h : skipComment r offset line = some c) : line ≤ c.line := by
  fun_induction skipComment r offset line with
  | case1 => cases h
  | case2 => cases h; exact Nat.le_refl _
  | case3 a r offset line hne ih => exact Nat.le_trans (le_line line) (ih h)

theorem readString_line_le {quote : Char}
    (h : readString quote r offset line taken = some (text, c)) : line ≤ c.line := by
  fun_induction readString quote r offset line taken with
  | case1 => cases h
  | case2 r offset line taken ih => exact Nat.le_trans (Nat.le_succ line) (ih h)
  | case3 a r offset line taken hne ih => exact Nat.le_trans (le_line line) (ih h)
  | case4 => cases h
  | case5 => cases h; exact Nat.le_refl _
  | case6 a r offset line taken hcr hesc hn hq ih => exact ih h

theorem readTemplate_line_le {how : TemplateEnd}
    (h : readTemplate r offset line taken = some (text, how, c)) : line ≤ c.line := by
  fun_induction readTemplate r offset line taken with
  | case1 => cases h
  | case2 r offset line taken ih => exact Nat.le_trans (Nat.le_succ line) (ih h)
  | case3 a r offset line taken hne ih => exact Nat.le_trans (le_line line) (ih h)
  | case4 => cases h; exact Nat.le_refl _
  | case5 => cases h; exact Nat.le_refl _
  | case6 a r offset line taken hcr hesc hd hq ih => exact Nat.le_trans (le_line line) (ih h)

namespace Lexer

variable {s t : State}

theorem slash_line_le (h : slash s r = .ok t) : s.cursor.line ≤ t.cursor.line := by
  unfold slash at h
  split at h
  · cases h
    exact Nat.le_of_eq (skipLine_line _ _ _).symm
  · split at h
    · next hc => cases h; exact skipComment_line_le hc
    · cases h
  · split at h
    · split at h
      · cases h; exact Nat.le_refl _
      · cases h; exact Nat.le_refl _
    · cases h; exact Nat.le_refl _

theorem quoted_line_le {quote : Char} (h : quoted s quote r = .ok t) :
    s.cursor.line ≤ t.cursor.line := by
  unfold quoted at h
  split at h
  · next hr => cases h; exact readString_line_le hr
  · cases h

theorem template_line_le {resumed : Bool} (h : template s resumed r = .ok t) :
    s.cursor.line ≤ t.cursor.line := by
  unfold template at h
  split at h
  · next hr => cases h; exact readTemplate_line_le hr
  · next hr => cases h; exact readTemplate_line_le hr
  · cases h

theorem closeBrace_line_le (h : closeBrace s r = .ok t) : s.cursor.line ≤ t.cursor.line := by
  unfold closeBrace at h
  split at h
  · cases h; exact Nat.le_refl _
  · next outer _ => exact template_line_le (s := { s with depths := outer }) h
  · cases h; exact Nat.le_refl _

theorem step_line_le (h : step s = .ok t) : s.cursor.line ≤ t.cursor.line := by
  cases hs : s.cursor.rest with
  | nil =>
    rw [step_of_rest_nil hs] at h
    cases h
    exact Nat.le_refl _
  | cons c r =>
    obtain ⟨f, hf, hstep⟩ := exists_reads c
    rw [hstep s r hs] at h
    cases hf with
    | feed => cases h; exact Nat.le_succ _
    | slash => exact slash_line_le h
    | quote => exact quoted_line_le h
    | template => exact template_line_le h
    | closing => exact closeBrace_line_le h
    | _ => cases h; exact Nat.le_refl _

theorem finish_line_le (h : finish s = .ok t) : s.cursor.line ≤ t.cursor.line := by
  fun_induction finish s with
  | case1 => cases h; exact Nat.le_refl _
  | case2 => cases h
  | case3 s hr u hu ih => exact Nat.le_trans (step_line_le hu) (ih h)

theorem start_line (text : List Char) : (State.start text).cursor.line = 1 := by
  unfold State.start
  split
  · exact skipLine_line _ _ _
  · rfl

end Lexer

end PackageMap.Source
