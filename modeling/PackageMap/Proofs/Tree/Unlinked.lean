import PackageMap.Proofs.Tree.Respelled

/-!
# Trees without links

In a tree without links the way to what is seen from a path goes through the directory that the path
leads to, and one name further (`Unlinked.locate_child_iff`).
-/

namespace PackageMap

theorem Name.text_inj {n m : Name} : n.text = m.text ↔ n = m := by
  obtain ⟨text, valid⟩ := n
  obtain ⟨text', valid'⟩ := m
  constructor
  · intro h
    cases h
    rfl
  · intro h
    cases h
    rfl

namespace Tree

variable {t : Tree} {how : Manner} {k : Nat} {loc l dir : Location} {steps rest : List Step}
  {p : Path} {n : Name}

/-! ## The names in a directory -/

/-- Every name stands under its own text. -/
def Keyed (es : List (String × Name)) : Prop := ∀ e ∈ es, e.1 = e.2.text

theorem Keyed.mem_iff {es : List (String × Name)} (h : Keyed es) :
    n ∈ es.map Prod.snd ↔ n.text ∈ es.map Prod.fst := by
  simp only [List.mem_map]
  constructor
  · rintro ⟨e, he, rfl⟩
    exact ⟨e, he, h e he⟩
  · rintro ⟨e, he, hn⟩
    exact ⟨e, he, Name.text_inj.1 ((h e he).symm.trans hn)⟩

theorem Keyed.put {es : List (String × Name)} (h : Keyed es) (n : Name) :
    Keyed (Ordered.put n.text n es) := by
  intro e he
  rcases Ordered.eq_or_mem_of_mem_put he with rfl | he
  · rfl
  · exact h e he

theorem Keyed.mem_foldl_put {es : List (String × Name)} (h : Keyed es) (names : List Name) :
    n ∈ (names.foldl (fun es m => Ordered.put m.text m es) es).map Prod.snd ↔
      n ∈ es.map Prod.snd ∨ n ∈ names := by
  induction names generalizing es with
  | nil => simp
  | cons m names ih =>
    rw [List.foldl_cons, ih (h.put m), (h.put m).mem_iff, Ordered.mem_keys_put, ← h.mem_iff,
      Name.text_inj, List.mem_cons, or_assoc, or_left_comm]

theorem childName?_eq_some_iff : childName? dir loc = some n ↔ loc = n :: dir := by
  cases loc with
  | nil => simp [childName?]
  | cons m above =>
    show (if above = dir then some m else none) = some n ↔ m :: above = n :: dir
    split
    · next h => simp [h]
    · next h => simp [h]

/-- The names in a directory are those that there are entries for. -/
theorem mem_children_iff : n ∈ t.children dir ↔ ∃ e, t.entry? (n :: dir) = some e := by
  unfold children entry?
  rw [Keyed.mem_foldl_put fun e he => absurd he List.not_mem_nil, if_neg (List.cons_ne_nil n dir), ← Option.isSome_iff_exists,
    List.lookup_isSome_iff]
  simp only [List.map_nil, List.not_mem_nil, false_or, List.mem_filterMap, childName?_eq_some_iff,
    beq_iff_eq]
  exact exists_congr fun e => and_congr_right fun _ => eq_comm

/-! ## Ways in two parts -/

/-- A way leads through where its first part leads. -/
theorem Leads.exists_of_append (h : Leads t how k loc (steps ++ rest) l) :
    ∃ j mid, Leads t how k loc steps mid ∧ Leads t how j mid rest l := by
  generalize hall : steps ++ rest = all at h
  induction h generalizing steps with
  | @done k loc =>
    obtain ⟨rfl, rfl⟩ := List.append_eq_nil_iff.1 hall
    exact ⟨k, loc, .done, .done⟩
  | @here k loc l all hd h ih =>
    rcases List.append_eq_cons_iff.1 hall with ⟨rfl, rfl⟩ | ⟨steps, rfl, hrest⟩
    · exact ⟨k, loc, .done, .here hd h⟩
    · obtain ⟨j, mid, hsteps, hmid⟩ := ih hrest.symm
      exact ⟨j, mid, .here hd hsteps, hmid⟩
  | @up k loc l all hd h ih =>
    rcases List.append_eq_cons_iff.1 hall with ⟨rfl, rfl⟩ | ⟨steps, rfl, hrest⟩
    · exact ⟨k, loc, .done, .up hd h⟩
    · obtain ⟨j, mid, hsteps, hmid⟩ := ih hrest.symm
      exact ⟨j, mid, .up hd hsteps, hmid⟩
  | @name k loc l all n e hd ha he hlink h ih =>
    rcases List.append_eq_cons_iff.1 hall with ⟨rfl, rfl⟩ | ⟨steps, rfl, hrest⟩
    · exact ⟨k, loc, .done, .name hd ha he hlink h⟩
    · obtain ⟨j, mid, hsteps, hmid⟩ := ih hrest.symm
      exact ⟨j, mid, .name hd ha he hlink hsteps, hmid⟩
  | @link k loc l all n target hd ha he h ih =>
    rcases List.append_eq_cons_iff.1 hall with ⟨rfl, rfl⟩ | ⟨steps, rfl, rfl⟩
    · exact ⟨k + 1, loc, .done, .link hd ha he h⟩
    · obtain ⟨j, mid, hsteps, hmid⟩ := ih (List.append_assoc _ _ _)
      exact ⟨j, mid, .link hd ha he hsteps, hmid⟩

/-! ## What is seen from a path -/

theorem stepsAfter_name (n : Name) : stepsAfter n.text = [.name n.text] := by
  have hlast : (Path.segments n.text.toList).getLast? = some n.text.toList := by
    rw [Path.segments_of_not_mem (slash_not_mem n)]
    rfl
  have hnamed : namedSteps n.text = [.name n.text] := by
    unfold namedSteps
    rw [Path.segments_of_not_mem (slash_not_mem n), List.filterMap_cons_some (stepOf?_name n)]
    rfl
  unfold stepsAfter
  rw [hnamed, endsInSlash_eq_false hlast, if_neg]
  · rfl
  · simp [(isName_iff.1 n.valid).1]

theorem startOf_child {s : String} (hp : p.text ≠ "") (hs : (Path.mk s).isAbsolute = false) :
    t.startOf (p.child s) = t.startOf p := by
  have habsolute : (p.child s).isAbsolute = p.isAbsolute := by
    rw [Path.child_of_not_isAbsolute hs, String.append_assoc, Path.isAbsolute_append_of_ne hp]
  unfold startOf
  rw [habsolute]

theorem textError?_eq_none_iff : textError? p = none ↔
    '\x00' ∉ p.text.toList ∧ p.text ≠ "" ∧ p.text.utf8ByteSize < pathLimit := by
  unfold textError? emptyError?
  by_cases hnul : '\x00' ∈ p.text.toList
  · simp [hnul]
  by_cases hempty : p.text = ""
  · simp [hempty]
  · simp [hnul, hempty]

/-- Nothing is wrong with the text of a path that another is seen from, if nothing is with that. -/
theorem textError?_of_child {s : String} (hp : p.text ≠ "") (hs : (Path.mk s).isAbsolute = false)
    (h : textError? (p.child s) = none) : textError? p = none := by
  have htext : (p.child s).text = p.text ++ (Path.slashAfter p.text ++ s) := by
    rw [Path.child_of_not_isAbsolute hs, String.append_assoc]
  obtain ⟨hnul, -, hsize⟩ := textError?_eq_none_iff.1 h
  rw [htext, String.toList_append] at hnul
  rw [htext, String.utf8ByteSize_append] at hsize
  refine textError?_eq_none_iff.2 ⟨fun hmem => hnul (List.mem_append_left _ hmem), hp, ?_⟩
  exact Nat.lt_of_le_of_lt (Nat.le_add_right _ _) hsize

/-- A directory may also be asked for by a slash at the end. -/
theorem Leads.stepsOf {text : String} (h : Leads t how k loc (namedSteps text) l)
    (hl : t.Passable how l) : Leads t how k loc (stepsOf text) l := by
  obtain ⟨j, hj⟩ := h.exists_follow_append
  refine leads_of_follow ?_
  unfold Tree.stepsOf
  rw [hj]
  split
  · rw [follow_here hl, follow_nil]
  · exact follow_nil

/-! ## One name further -/

/-- From a path of a directory one name more leads to what stands there under the name. -/
theorem Leads.child {e : Entry} (h : Leads t .direct k (t.startOf p) (Tree.stepsOf p.text) dir)
    (hp : p.text ≠ "") (hd : t.entry? dir = some .directory) (he : t.entry? (n :: dir) = some e)
    (hlink : ∀ target, e ≠ .link target) :
    Leads t .direct k (t.startOf (p.child n.text)) (Tree.stepsOf (p.child n.text).text)
      (n :: dir) := by
  have hn := Path.isAbsolute_name n
  obtain ⟨j, hj⟩ := (h.thin (thins_namedSteps p.text)).exists_follow_append
  rw [startOf_child hp hn, stepsOf_child hp hn, stepsAfter_name]
  refine leads_of_follow ?_
  rw [hj, follow_name ⟨rfl, hd⟩ rfl he hlink]
  exact follow_nil

/-- A path leads one name further than the path that it is seen from, which leads to a directory. -/
theorem Unlinked.locate_child_iff (h : t.Unlinked) (hp : p.text ≠ "") (n : Name) :
    t.locate (p.child n.text) = .ok l ↔ textError? (p.child n.text) = none ∧
      ∃ dir, t.locate p = .ok dir ∧ t.entry? dir = some .directory ∧ l = n :: dir ∧
        ∃ e, t.entry? l = some e := by
  have hn := Path.isAbsolute_name n
  rw [locate_eq_ok_iff]
  refine and_congr_right fun htext => ?_
  have htext' := textError?_of_child hp hn htext
  constructor
  · intro hway
    rw [startOf_child hp hn, stepsOf_child hp hn, stepsAfter_name] at hway
    obtain ⟨j, dir, hdir, hlast⟩ := hway.exists_of_append
    generalize hsteps : [Step.name n.text] = last at hlast
    cases hlast with
    | done => cases hsteps
    | here => cases hsteps
    | up => cases hsteps
    | @name _ _ _ _ m e hd _ he _ hrest =>
      obtain ⟨hm, rfl⟩ := List.cons.inj hsteps
      obtain rfl := Name.text_inj.1 (Step.name.inj hm)
      cases hrest
      exact ⟨dir, locate_eq_ok_iff.2 ⟨htext', hdir.stepsOf hd⟩, hd.2, rfl, e, he⟩
    | link _ _ he _ => exact (h.entry?_ne_link _ _ he).elim
  · rintro ⟨dir, hdir, hd, rfl, e, he⟩
    exact (locate_eq_ok_iff.1 hdir).2.child hp hd he fun target hlink =>
      h.entry?_ne_link _ target (hlink ▸ he)

end Tree

end PackageMap
