import PackageMap.Proofs.Tree.Spelling

/-!
# Paths seen from a directory

What is seen from a path that is itself seen from a directory is seen from the directory. So only
the beginning of such paths depends on how the directory is written: the components after it, and
with them the order of the paths, do not.
-/

namespace PackageMap

namespace Path

variable {p q r : Path} {s x : String}

theorem text_ne_of_isAbsolute (h : p.isAbsolute) : p.text ≠ "" := by
  intro hempty
  unfold isAbsolute at h
  rw [hempty] at h
  cases h

theorem isAbsolute_ofList (cs : List Char) :
    (Path.mk (String.ofList cs)).isAbsolute = (cs.head? == some '/') := by
  unfold isAbsolute
  rw [String.toList_ofList]

theorem isAbsolute_of_not_mem (h : '/' ∉ x.toList) : (Path.mk x).isAbsolute = false := by
  rw [← Bool.not_eq_true]
  exact fun habs => h (List.mem_of_head? (beq_iff_eq.1 habs))

theorem child_of_isAbsolute (h : (Path.mk x).isAbsolute) (p : Path) : p.child x = ⟨x⟩ := if_pos h

/-- What is absolute stays so with more text after it. -/
theorem isAbsolute_append (h : (Path.mk s).isAbsolute) (x : String) :
    (Path.mk (s ++ x)).isAbsolute = true := by
  unfold isAbsolute at *
  obtain ⟨cs, hcs⟩ := List.head?_eq_some_iff.1 (beq_iff_eq.1 h)
  dsimp only at hcs
  rw [String.toList_append, hcs]
  rfl

theorem isAbsolute_append_of_ne (h : s ≠ "") (x : String) :
    (Path.mk (s ++ x)).isAbsolute = (Path.mk s).isAbsolute := by
  unfold isAbsolute
  rw [String.toList_append]
  cases hcs : s.toList with
  | nil => exact absurd (String.toList_eq_nil_iff.1 hcs) h
  | cons a cs => rfl

theorem append_child (p : Path) {text : String} (h : text ≠ "") (ending : String) :
    (p.child text).append ending = p.child (text ++ ending) := by
  unfold append child
  rw [isAbsolute_append_of_ne h]
  split
  · rfl
  split
  · rw [String.append_assoc]
  · rw [String.append_assoc]

/-- A relative path is put after a slash, which the path may end in already. -/
theorem exists_toList_child (hp : p.text ≠ "") (hs : (Path.mk s).isAbsolute = false) :
    ∃ cs, (p.child s).text.toList = cs ++ '/' :: s.toList ∧
      (p.text.toList = cs ∨ p.text.toList = cs ++ ['/']) := by
  unfold child
  rw [hs, if_neg Bool.false_ne_true]
  by_cases hslash : p.text.toList.getLast? = some '/'
  · rw [if_pos (.inr hslash)]
    obtain ⟨cs, hcs⟩ := List.getLast?_eq_some_iff.1 hslash
    refine ⟨cs, ?_, .inr hcs⟩
    rw [String.toList_append, hcs, List.append_assoc]
    rfl
  · rw [if_neg (not_or.2 ⟨hp, hslash⟩)]
    refine ⟨p.text.toList, ?_, .inl rfl⟩
    rw [String.toList_append, String.toList_append, List.append_assoc]
    rfl

theorem isAbsolute_child (hp : p.isAbsolute) (s : String) : (p.child s).isAbsolute = true := by
  cases hs : (Path.mk s).isAbsolute with
  | true =>
    rw [child_of_isAbsolute hs]
    exact hs
  | false =>
    unfold child
    rw [hs, if_neg Bool.false_ne_true]
    split
    · exact isAbsolute_append hp s
    · rw [String.append_assoc]
      exact isAbsolute_append hp ("/" ++ s)

theorem text_child_ne (h : s ≠ "") (x : String) : ((Path.mk s).child x).text ≠ "" := by
  unfold child
  split
  · next hx => exact text_ne_of_isAbsolute hx
  split
  · exact fun hempty => h (String.append_eq_empty_iff.1 hempty).1
  · rw [String.append_assoc]
    exact fun hempty => h (String.append_eq_empty_iff.1 hempty).1

theorem text_child_ne_of_ne (h : x ≠ "") (p : Path) : (p.child x).text ≠ "" := by
  unfold child
  split
  · exact h
  split
  · exact fun hempty => h (String.append_eq_empty_iff.1 hempty).2
  · exact fun hempty => h (String.append_eq_empty_iff.1 hempty).2

/-- The slash between a path and what follows it, where one is needed. -/
def slashAfter (s : String) : String :=
  if s = "" ∨ s.toList.getLast? = some '/' then "" else "/"

theorem child_of_not_isAbsolute (hs : (Path.mk s).isAbsolute = false) :
    p.child s = ⟨p.text ++ slashAfter p.text ++ s⟩ := by
  unfold child slashAfter
  rw [hs, if_neg Bool.false_ne_true]
  split
  · rw [String.append_empty]
  · rfl

theorem slashAfter_slash (h : s.toList.getLast? = some '/') : slashAfter s = "" := if_pos (.inr h)

theorem slashAfter_append_of_ne (h : x ≠ "") (s : String) :
    slashAfter (s ++ x) = slashAfter x := by
  have hne : s ++ x ≠ "" := fun hempty => h (String.append_eq_empty_iff.1 hempty).2
  have hlast : (s ++ x).toList.getLast? = x.toList.getLast? := by
    obtain ⟨c, hc⟩ := Option.isSome_iff_exists.1
      (List.getLast?_isSome.2 (mt String.toList_eq_nil_iff.1 h))
    rw [String.toList_append, List.getLast?_append, hc, Option.some_or]
  simp only [slashAfter, hne, h, hlast, false_or]

/-- A slash is needed behind what follows a path exactly if it is needed behind the same alone. -/
theorem slashAfter_child (h : p.text ≠ "") (s : String) :
    slashAfter (p.text ++ slashAfter p.text ++ s) = slashAfter s := by
  by_cases hs : s = ""
  · subst hs
    rw [String.append_empty]
    by_cases hslash : p.text.toList.getLast? = some '/'
    · rw [slashAfter_slash hslash, String.append_empty, slashAfter_slash hslash]
      rfl
    · have hneeded : slashAfter p.text = "/" := if_neg (not_or.2 ⟨h, hslash⟩)
      rw [hneeded, slashAfter_append_of_ne (by decide)]
      rfl
  · exact slashAfter_append_of_ne hs _

theorem isAbsolute_child_eq_false (hs : (Path.mk s).isAbsolute = false)
    (hx : (Path.mk x).isAbsolute = false) : ((Path.mk s).child x).isAbsolute = false := by
  rw [child_of_not_isAbsolute hx]
  dsimp only
  by_cases hempty : s = ""
  · subst hempty
    exact hx
  · rw [String.append_assoc, isAbsolute_append_of_ne hempty]
    exact hs

/-- What is seen from a path that is seen from a directory is seen from the directory. -/
theorem child_child (hp : p.isAbsolute) (s x : String) :
    (p.child s).child x = p.child ((Path.mk s).child x).text := by
  cases hx : (Path.mk x).isAbsolute with
  | true => rw [child_of_isAbsolute hx, child_of_isAbsolute hx, child_of_isAbsolute hx]
  | false =>
    cases hs : (Path.mk s).isAbsolute with
    | true =>
      have hchild : (Path.mk ((Path.mk s).child x).text).isAbsolute = true := isAbsolute_child hs x
      rw [child_of_isAbsolute hs, child_of_isAbsolute hchild]
    | false =>
      have hrel := isAbsolute_child_eq_false hs hx
      rw [child_of_not_isAbsolute hx] at hrel
      rw [child_of_not_isAbsolute hx, child_of_not_isAbsolute (p := ⟨s⟩) hx,
        child_of_not_isAbsolute hs]
      dsimp only
      rw [child_of_not_isAbsolute hrel]
      rw [slashAfter_child (text_ne_of_isAbsolute hp)]
      simp only [String.append_assoc]

/-! ## Segments -/

/-- The segments of a path that is seen from a directory are those of the directory and its own, up
to empty ones. -/
theorem filterMap_segments_child {β : Type} {f : Segment → Option β} (hf : f [] = none)
    (hp : p.text ≠ "") (hs : (Path.mk s).isAbsolute = false) :
    (segments (p.child s).text.toList).filterMap f =
      (segments p.text.toList).filterMap f ++ (segments s.toList).filterMap f := by
  obtain ⟨cs, hchild, hcs | hcs⟩ := exists_toList_child hp hs
  · rw [hchild, segments_append, List.filterMap_append, hcs]
  · have hslash : segments (cs ++ ['/']) = segments cs ++ [[]] := segments_append cs []
    rw [hchild, segments_append, hcs, hslash, List.filterMap_append, List.filterMap_append,
      List.filterMap_cons_none hf, List.filterMap_nil, List.append_nil]

/-- The components that a text has where a path goes on. -/
def trail (s : String) : List Component := (segments s.toList).filterMap segmentComponent?

theorem components_of_isAbsolute (h : p.isAbsolute) : p.components = .root :: trail p.text := by
  obtain ⟨s, ss, hss⟩ := (head?_eq_slash_iff _).1 (beq_iff_eq.1 h)
  unfold components trail
  rw [split_of_segments hss (by simp), hss]
  rfl

theorem components_child (hp : p.isAbsolute) (hs : (Path.mk s).isAbsolute = false) :
    (p.child s).components = p.components ++ trail s := by
  rw [components_of_isAbsolute (isAbsolute_child hp s), components_of_isAbsolute hp]
  unfold trail
  rw [filterMap_segments_child rfl (text_ne_of_isAbsolute hp) hs, List.cons_append]

theorem same_child_iff (hp : p.isAbsolute) (hs : (Path.mk s).isAbsolute = false)
    (hx : (Path.mk x).isAbsolute = false) :
    (p.child s).Same (p.child x) ↔ trail s = trail x := by
  unfold Same
  rw [components_child hp hs, components_child hp hx, List.append_cancel_left_eq]

theorem componentsLe_append (as bs cs : List Component) :
    componentsLe (as ++ bs) (as ++ cs) = componentsLe bs cs := by
  induction as with
  | nil => rfl
  | cons a as ih => rw [List.cons_append, List.cons_append, componentsLe, if_pos rfl, ih]

theorem le_child (hp : p.isAbsolute) (hs : (Path.mk s).isAbsolute = false)
    (hx : (Path.mk x).isAbsolute = false) :
    (p.child s).le (p.child x) = componentsLe (trail s) (trail x) := by
  unfold Path.le
  rw [components_child hp hs, components_child hp hx, componentsLe_append]

theorem getLast?_segments_child (hp : p.text ≠ "") (hs : (Path.mk s).isAbsolute = false) :
    (segments (p.child s).text.toList).getLast? = (segments s.toList).getLast? := by
  obtain ⟨cs, hchild, -⟩ := exists_toList_child hp hs
  obtain ⟨last, hlast⟩ := Option.isSome_iff_exists.1
    (List.getLast?_isSome.2 (segments_ne_nil s.toList))
  rw [hchild, segments_append, List.getLast?_append, hlast, Option.some_or]

/-! ## Named files -/

theorem join_segments (cs : List Char) : join (segments cs) = cs := by
  rw [segments_eq_splitOn]
  exact List.intercalate_splitOn '/'

theorem eq_assemble_of_segments {ss : List Segment} (h : segments p.text.toList = [] :: ss)
    (hne : ss ≠ []) : p = assemble .root ss := by
  have htext : p.text.toList = '/' :: join ss := by
    rw [← join_segments p.text.toList, h, join_cons hne]
    rfl
  show p = ⟨String.ofList ('/' :: join ss)⟩
  rw [← htext, String.ofList_toList]

theorem isAbsolute_name (n : Name) : (Path.mk n.text).isAbsolute = false :=
  isAbsolute_of_not_mem (Tree.slash_not_mem n)

/-- The directory of a named file is the path that it is seen from, if that ends in a name. -/
theorem parent?_child {m n : Name} (hp : p.isAbsolute)
    (hlast : (segments p.text.toList).getLast? = some m.text.toList) :
    (p.child n.text).parent? = some p := by
  obtain ⟨s, ss, hss⟩ := (head?_eq_slash_iff _).1 (beq_iff_eq.1 hp)
  obtain ⟨init, hinit⟩ : ∃ init, s :: ss = init ++ [m.text.toList] := by
    rw [hss, List.getLast?_cons_cons] at hlast
    exact List.getLast?_eq_some_iff.1 hlast
  have hsegments : segments (p.child n.text).text.toList =
      [] :: ((init ++ [m.text.toList]) ++ [n.text.toList]) := by
    obtain ⟨cs, hchild, hcs | hcs⟩ :=
      exists_toList_child (text_ne_of_isAbsolute hp) (isAbsolute_name n)
    · rw [hchild, segments_append, ← hcs, hss, hinit, segments_of_not_mem (Tree.slash_not_mem n)]
      rfl
    · have hends := Tree.endsInSlash_eq_false hlast
      unfold Tree.endsInSlash at hends
      rw [hcs, List.getLast?_concat] at hends
      cases hends
  have hself : p = assemble .root (init ++ [m.text.toList]) :=
    eq_assemble_of_segments (hinit ▸ hss) (by simp)
  rw [parent?_of_split (split_of_segments hsegments (by simp)) (Tree.isSilent_name n),
    List.reverse_append, List.reverse_singleton, List.singleton_append, shorten,
    Tree.isSilent_name m, if_neg Bool.false_ne_true, List.head?_cons, List.reverse_cons,
    List.reverse_reverse, ← hself]

/-! ## Endings of names -/

section Endings

variable {name ext : String}

/-- What is left from the last dot on, with something before the dot. Names are read backwards. -/
theorem exists_dropWhile_eq {cs : List Char} (h : 1 < (cs.dropWhile (· != '.')).length) :
    ∃ above ≠ [], cs = cs.takeWhile (· != '.') ++ '.' :: above := by
  obtain ⟨c, above, hcut⟩ := List.exists_cons_of_length_pos (Nat.lt_of_succ_lt h)
  have hc := List.head?_dropWhile_not (· != '.') cs
  rw [hcut] at h hc
  obtain rfl : c = '.' := by simpa using hc
  refine ⟨above, ?_, ?_⟩
  · rintro rfl
    exact absurd h (by simp)
  · rw [← hcut, List.takeWhile_append_dropWhile]

/-- The extension of a name is what follows its last dot, if something stands before the dot. -/
theorem extension?_eq_some_iff (h : p.fileName? = some name) :
    p.extension? = some ext ↔ '.' ∉ ext.toList ∧ ∃ stem ≠ "", name = stem ++ "." ++ ext := by
  unfold extension?
  rw [h, Option.bind_eq_bind, Option.bind_some]
  dsimp only
  constructor
  · intro hext
    split at hext
    · cases hext
    next hlen =>
    obtain ⟨above, hne, hcut⟩ := exists_dropWhile_eq (Nat.lt_of_not_le hlen)
    obtain rfl := Option.some.inj hext
    refine ⟨?_, String.ofList above.reverse, ?_, ?_⟩
    · rw [String.toList_ofList, List.mem_reverse]
      intro hdot
      exact absurd (List.all_eq_true.1 List.all_takeWhile '.' hdot) (by decide)
    · intro hempty
      rw [← String.toList_eq_nil_iff, String.toList_ofList] at hempty
      exact hne (List.reverse_eq_nil_iff.1 hempty)
    · rw [← String.toList_inj, ← List.reverse_inj]
      refine hcut.trans ?_
      simp
  · rintro ⟨hdot, stem, hstem, rfl⟩
    have hreverse : (stem ++ "." ++ ext).toList.reverse =
        ext.toList.reverse ++ '.' :: stem.toList.reverse := by simp
    have hafter : ∀ c ∈ ext.toList.reverse, (c != '.') = true := by
      intro c hc
      rw [bne_iff_ne]
      rintro rfl
      exact hdot (List.mem_reverse.1 hc)
    rw [hreverse, List.takeWhile_append_of_pos hafter, List.dropWhile_append_of_pos hafter,
      List.takeWhile_cons_of_neg (by decide), List.dropWhile_cons_of_neg (by decide), if_neg]
    · simp
    · have hlen := List.length_pos_iff.2 (mt String.toList_eq_nil_iff.1 hstem)
      rw [List.length_cons, List.length_reverse]
      omega

theorem fileName?_name (n : Name) : (Path.mk n.text).fileName? = some n.text := by
  have hsegments : segments n.text.toList = [n.text.toList] :=
    segments_of_not_mem (Tree.slash_not_mem n)
  have hsplit : (Path.mk n.text).split = (.none, [] ++ [n.text.toList]) := by
    unfold split
    rw [hsegments]
    split
    · next h => exact absurd (congrArg List.length h) (by simp)
    · next h =>
      have hdot := Tree.isSilent_name n
      rw [(List.cons.inj h).1] at hdot
      cases hdot
    · rfl
  rw [fileName?_of_split hsplit (Tree.isSilent_name n) (Tree.name_ne_up n), String.ofList_toList]

end Endings

end Path

end PackageMap
