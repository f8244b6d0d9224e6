import PackageMap.Proofs.Source.Concat
import PackageMap.Proofs.Source.Excerpt
import PackageMap.Proofs.Source.Progress

/-!
# Literals that are closed

The steps of a run cut the text into stretches. Each stretch that opens a string or a block comment
closes it too, and a template literal is closed by the same stretch or by one that goes on behind an
interpolation (`step_takes`). So in the end as many literals are closed as have been opened, but for
the templates whose interpolations are open there (`count_stretches`): at the end of the text these
are no error.
-/

namespace PackageMap.Source

/-! ## Where readers stop -/

variable {offset line : Nat} {r : List Char} {c : Cursor}

/-- The interpolations that are open behind a stretch of template text. -/
def TemplateEnd.depths : TemplateEnd → List Nat → List Nat
  | .closed, outer => outer
  | .interpolation, outer => 0 :: outer

theorem skipComment_ends (h : skipComment r offset line = some c) :
    ∃ body, r = body ++ '*' :: '/' :: c.rest := by
  fun_induction skipComment r offset line with
  | case1 => cases h
  | case2 => cases h; exact ⟨[], rfl⟩
  | case3 a r offset line hne ih =>
    obtain ⟨body, rfl⟩ := ih h
    exact ⟨a :: body, rfl⟩

/-! ## Stretches -/

/-- Whether a stretch of text begins with what opens a construct. -/
def Construct.opens : Construct → List Char → Bool
  | .stringLiteral, u => u.head? == some '"' || u.head? == some '\''
  | .templateLiteral, u => u.head? == some '`'
  | .blockComment, u => u.take 2 == ['/', '*']

/-- Whether a stretch of text ends with what closes a construct that it opens. A template may also
go on behind the brace that ends an interpolation. -/
def Construct.closes : Construct → List Char → Bool
  | .stringLiteral, u => opens .stringLiteral u && u.tail.getLast? == u.head?
  | .templateLiteral, u =>
    (u.head? == some '`' || u.head? == some '\x7d') && u.tail.getLast? == some '`'
  | .blockComment, u => opens .blockComment u && ['*', '/'].isSuffixOf (u.drop 2)

namespace Lexer

/-- How many constructs of a kind are open between two steps: the templates that the lexer is inside
of, and no others. -/
def openAt : Construct → List Nat → Nat
  | .templateLiteral, depths => depths.length
  | _, _ => 0

/-- What a step takes, by the interpolations that are open before it and after it. -/
inductive Takes : List Nat → List Nat → List Char → Prop
  | plain {depths depths' : List Nat} {a : Char} (ha : a ∉ ['"', '\'', '`', '/', '\x7d'])
      (hlen : depths'.length = depths.length) (u : List Char) : Takes depths depths' (a :: u)
  | slash (depths : List Nat) {u : List Char} (h : u.head? ≠ some '*') :
      Takes depths depths ('/' :: u)
  | comment (depths : List Nat) (body : List Char) :
      Takes depths depths ('/' :: '*' :: (body ++ ['*', '/']))
  | string (depths : List Nat) {quote : Char} (hq : quote = '"' ∨ quote = '\'')
      (body : List Char) : Takes depths depths (quote :: (body ++ [quote]))
  | template (outer : List Nat) (how : TemplateEnd) (body : List Char) :
      Takes outer (how.depths outer) ('`' :: (body ++ how.mark))
  | brace {depths depths' : List Nat} (hlen : depths'.length = depths.length) :
      Takes depths depths' ['\x7d']
  | resume (outer : List Nat) (how : TemplateEnd) (body : List Char) :
      Takes (0 :: outer) (how.depths outer) ('\x7d' :: (body ++ how.mark))

variable {s t : State} {u : List Char}

theorem eq_of_append_eq {v w : List Char} (h : u ++ r = v) (hv : v = w ++ r) : u = w :=
  List.append_cancel_right (h.trans hv)

theorem Takes.slash_of_head (depths : List Nat) (h : (u ++ r).head? ≠ some '*') :
    Takes depths depths ('/' :: u) := by
  refine .slash depths fun hstar => h ?_
  rw [List.head?_append, hstar]
  rfl

theorem slash_takes (h : slash s r = .ok t) (hu : u ++ t.cursor.rest = r) :
    Takes s.depths t.depths ('/' :: u) := by
  unfold slash at h
  split at h
  · next r =>
    cases h
    exact .slash_of_head _ (by rw [hu]; simp)
  · split at h
    · next r c hc =>
      cases h
      obtain ⟨body, hbody⟩ := skipComment_ends hc
      have hstretch : u = '*' :: (body ++ ['*', '/']) := eq_of_append_eq hu (by simp [hbody]; rfl)
      subst hstretch
      exact .comment _ body
    · cases h
  · next hb =>
    have hhead : (u ++ t.cursor.rest).head? ≠ some '*' := by
      rw [hu]
      exact fun hstar => hb _ (List.eq_cons_of_mem_head? hstar)
    split at h
    · split at h
      · cases h; exact .slash_of_head _ hhead
      · cases h; exact .slash_of_head _ hhead
    · cases h; exact .slash_of_head _ hhead

theorem quoted_takes {quote : Char} (hq : quote = '"' ∨ quote = '\'') (h : quoted s quote r = .ok t)
    (hu : u ++ t.cursor.rest = r) : Takes s.depths t.depths (quote :: u) := by
  unfold quoted at h
  split at h
  · next hread =>
    cases h
    obtain ⟨body, -, hbody, -⟩ := readString_ends hq hread
    have hstretch : u = body ++ [quote] := eq_of_append_eq hu (by simp [hbody]; rfl)
    subst hstretch
    exact .string _ hq body
  · cases h

/-- A stretch of template text, whether it begins at the backtick or behind an interpolation. -/
theorem template_takes {resumed : Bool} (h : template s resumed r = .ok t)
    (hu : u ++ t.cursor.rest = r) :
    ∃ (how : TemplateEnd) (body : List Char), u = body ++ how.mark ∧
      t.depths = how.depths s.depths := by
  unfold template at h
  split at h
  · next hread =>
    cases h
    obtain ⟨body, -, hbody, -⟩ := readTemplate_ends hread
    exact ⟨.closed, body, eq_of_append_eq hu (by simp [hbody]; rfl), rfl⟩
  · next hread =>
    cases h
    obtain ⟨body, -, hbody, -⟩ := readTemplate_ends hread
    exact ⟨.interpolation, body, eq_of_append_eq hu (by simp [hbody]; rfl), rfl⟩
  · cases h

theorem closeBrace_takes (h : closeBrace s r = .ok t) (hu : u ++ t.cursor.rest = r) :
    Takes s.depths t.depths ('\x7d' :: u) := by
  unfold closeBrace at h
  split at h
  · cases h
    obtain rfl : u = [] := List.append_left_eq_self.1 hu
    exact .brace rfl
  · next outer hd =>
    obtain ⟨how, body, rfl, hdepths⟩ := template_takes h hu
    rw [hd, hdepths]
    exact .resume outer how body
  · next n outer hd =>
    cases h
    obtain rfl : u = [] := List.append_left_eq_self.1 hu
    exact .brace (by rw [hd]; rfl)

theorem openers_subset_special : ['"', '\'', '`', '/', '\x7d'] ⊆ special := by decide

/-- What a step takes: nothing that opens a construct, or a string or a comment up to its end, or a
stretch of a template. -/
theorem step_takes (hr : s.cursor.rest ≠ []) (h : step s = .ok t) :
    ∃ u, s.cursor.rest = u ++ t.cursor.rest ∧ Takes s.depths t.depths u := by
  obtain ⟨u, hrest, -⟩ := (step_steps h).ahead
  have hlt := step_length_lt hr h
  obtain ⟨a, u, rfl⟩ := List.exists_cons_of_ne_nil (l := u) (by
    rintro rfl
    rw [hrest, List.nil_append] at hlt
    omega)
  refine ⟨a :: u, hrest, ?_⟩
  obtain ⟨f, hf, hstep⟩ := exists_reads a
  rw [hstep s (u ++ t.cursor.rest) hrest] at h
  generalize hu : u ++ t.cursor.rest = r at h
  cases hf with
  | feed => cases h; exact .plain (by decide) rfl u
  | blank hc => cases h; exact .plain (fun hmem => hc (openers_subset_special hmem)) rfl u
  | slash => exact slash_takes h hu
  | quote hc => exact quoted_takes hc h hu
  | template =>
    obtain ⟨how, body, rfl, hdepths⟩ := template_takes h hu
    rw [hdepths]
    exact .template _ how body
  | opening =>
    cases h
    refine .plain (by decide) ?_ u
    unfold openBrace
    cases s.depths <;> rfl
  | closing => exact closeBrace_takes h hu
  | word hc => cases h; exact .plain (fun hmem => hc (openers_subset_special hmem)) rfl u
  | number hc => cases h; exact .plain (fun hmem => hc (openers_subset_special hmem)) rfl u
  | mark hc => cases h; exact .plain (fun hmem => hc (openers_subset_special hmem)) rfl u

/-- A step that takes a stretch closes what the stretch opens, but for the template that it leaves
for an interpolation. -/
theorem Takes.count {depths depths' : List Nat} (h : Takes depths depths' u) (c : Construct) :
    openAt c depths + (c.opens u).toNat = openAt c depths' + (c.closes u).toNat := by
  cases h with
  | plain ha hlen u =>
    simp only [List.mem_cons, List.not_mem_nil, or_false, not_or] at ha
    obtain ⟨hdouble, hsingle, htick, hslash, hbrace⟩ := ha
    cases c <;>
      simp [openAt, Construct.opens, Construct.closes, hlen, beq_false_of_ne hdouble,
        beq_false_of_ne hsingle, beq_false_of_ne htick, beq_false_of_ne hslash,
        beq_false_of_ne hbrace]
  | @slash _ u hhead =>
    have hstar : (u.take 1 == ['*']) = false := by
      cases u with
      | nil => rfl
      | cons a u => simpa using hhead
    cases c <;> simp [openAt, Construct.opens, Construct.closes, hstar]
  | comment _ body =>
    have hends : ['*', '/'].isSuffixOf (body ++ ['*', '/']) = true :=
      List.isSuffixOf_iff_suffix.2 (List.suffix_append _ _)
    cases c <;> simp [openAt, Construct.opens, Construct.closes, hends]
  | string _ hq body =>
    rcases hq with rfl | rfl <;> cases c <;> simp [openAt, Construct.opens, Construct.closes]
  | template outer how body =>
    cases how <;> cases c <;>
      simp [openAt, Construct.opens, Construct.closes, TemplateEnd.mark, TemplateEnd.depths]
  | brace hlen => cases c <;> simp [openAt, Construct.opens, Construct.closes, hlen]
  | resume outer how body =>
    cases how <;> cases c <;>
      simp [openAt, Construct.opens, Construct.closes, TemplateEnd.mark, TemplateEnd.depths]

/-! ## Runs -/

/-- The stretches of text that the steps take from a state on. One that a step fails at goes on to
the end of the text. -/
def stretches (s : State) : List (List Char) :=
  if _hr : s.cursor.rest = [] then []
  else
    match _h : step s with
    | .error _ => [s.cursor.rest]
    | .ok s' =>
      s.cursor.rest.take (s.cursor.rest.length - s'.cursor.rest.length) :: stretches s'
termination_by s.cursor.rest.length
decreasing_by exact step_length_lt _hr _h

theorem stretches_of_rest_nil (h : s.cursor.rest = []) : stretches s = [] := by
  unfold stretches
  simp [h]

theorem stretches_of_step (hr : s.cursor.rest ≠ []) (h : step s = .ok t)
    (hu : s.cursor.rest = u ++ t.cursor.rest) : stretches s = u :: stretches t := by
  have htake : s.cursor.rest.take (s.cursor.rest.length - t.cursor.rest.length) = u := by
    rw [hu, List.length_append, Nat.add_sub_cancel, List.take_left]
  rw [stretches, dif_neg hr]
  split
  · next he => rw [h] at he; cases he
  · next s' hs' =>
    rw [h] at hs'
    cases hs'
    rw [htake]

/-- The stretches are the text. -/
theorem flatten_stretches (s : State) : (stretches s).flatten = s.cursor.rest := by
  fun_induction stretches s with
  | case1 s hr => rw [hr]; rfl
  | case2 s hr e he => simp
  | case3 s hr t ht ih =>
    obtain ⟨u, hu, -⟩ := (step_steps ht).ahead
    rw [List.flatten_cons, ih, hu, List.length_append, Nat.add_sub_cancel, List.take_left]

/-- As many constructs of a kind are closed in a run as are opened or have been open before, but for
those that are open in the end. -/
theorem count_stretches (h : finish s = .ok t) (c : Construct) :
    openAt c s.depths + (stretches s).countP c.opens =
      openAt c t.depths + (stretches s).countP c.closes := by
  fun_induction finish s with
  | case1 s hr =>
    cases h
    rw [stretches_of_rest_nil hr]
    rfl
  | case2 => cases h
  | case3 s hr s' hs' ih =>
    obtain ⟨u, hu, htakes⟩ := step_takes hr hs'
    have hstep := htakes.count c
    have hrest := ih h
    have htoNat (p : List Char → Bool) : (if p u = true then 1 else 0) = (p u).toNat := by
      cases p u <;> rfl
    rw [stretches_of_step hr hs' hu, List.countP_cons, List.countP_cons, htoNat, htoNat]
    omega

/-- As many constructs of each kind are closed in the text as are opened in it. -/
def AllClosed (text : List Char) : Prop :=
  ∀ c : Construct, (stretches (.start text)).countP c.opens =
    (stretches (.start text)).countP c.closes

end Lexer

/-- In an accepted text all strings, comments and templates are closed if and only if the lexer
ends outside of interpolations. Those that it ends in are the templates that are not closed. -/
theorem scan_closes_iff {text : String} {rs : List Reference} (h : scan text = .ok rs) :
    ∃ s, Lexer.finish (.start text.toList) = .ok s ∧
      (∀ c : Construct, (Lexer.stretches (.start text.toList)).countP c.opens =
        Lexer.openAt c s.depths + (Lexer.stretches (.start text.toList)).countP c.closes) ∧
      (Lexer.AllClosed text.toList ↔ s.depths = []) := by
  obtain ⟨s, hs, -⟩ := scan_eq_ok_iff.1 h
  have hcount (c : Construct) : (Lexer.stretches (.start text.toList)).countP c.opens =
      Lexer.openAt c s.depths + (Lexer.stretches (.start text.toList)).countP c.closes := by
    have hzero : Lexer.openAt c (Lexer.State.start text.toList).depths = 0 := by cases c <;> rfl
    rw [← Lexer.count_stretches hs c, hzero, Nat.zero_add]
  refine ⟨s, hs, hcount, ?_⟩
  constructor
  · intro hall
    have hopen := hcount .templateLiteral
    rw [hall .templateLiteral, Nat.right_eq_add] at hopen
    exact List.eq_nil_of_length_eq_zero hopen
  · intro hnil c
    have hzero : Lexer.openAt c [] = 0 := by cases c <;> rfl
    rw [hcount c, hnil, hzero, Nat.zero_add]

/-- A template in an interpolation of another one, with a string and a comment before it. -/
theorem scan_closes_iff_nested :
    scan "`a$\x7b'b'/*c*/+`$\x7bd\x7d`\x7d`" = .ok [] ∧
      Lexer.AllClosed "`a$\x7b'b'/*c*/+`$\x7bd\x7d`\x7d`".toList := by
  have h : scan "`a$\x7b'b'/*c*/+`$\x7bd\x7d`\x7d`" = .ok [] := by cbv
  have hdepths : (Lexer.finish (.start "`a$\x7b'b'/*c*/+`$\x7bd\x7d`\x7d`".toList)).map
      Lexer.State.depths = .ok [] := by cbv
  obtain ⟨s, hs, -, hclosed⟩ := scan_closes_iff h
  rw [hs] at hdepths
  exact ⟨h, hclosed.2 (Except.ok.inj hdepths)⟩

/-- A template whose interpolation the text ends in is accepted and not closed. -/
theorem scan_leaves_open :
    scan "`$\x7ba" = .ok [] ∧
      Lexer.finish (.start "`$\x7ba".toList) =
        .ok ⟨⟨[], 4, 1⟩, [⟨.ident "a", ⟨3, 1⟩⟩, ⟨.other, ⟨0, 1⟩⟩], [0]⟩ ∧
      ¬ Lexer.AllClosed "`$\x7ba".toList := by
  have h : scan "`$\x7ba" = .ok [] := by cbv
  have hs : Lexer.finish (.start "`$\x7ba".toList) =
      .ok ⟨⟨[], 4, 1⟩, [⟨.ident "a", ⟨3, 1⟩⟩, ⟨.other, ⟨0, 1⟩⟩], [0]⟩ := by cbv
  refine ⟨h, hs, fun hall => ?_⟩
  have hstretches : Lexer.stretches (.start "`$\x7ba".toList) = [['`', '$', '\x7b'], ['a']] := by
    cbv
  have htemplate := hall .templateLiteral
  rw [hstretches] at htemplate
  revert htemplate
  decide

end PackageMap.Source
