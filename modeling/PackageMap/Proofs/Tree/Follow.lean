import PackageMap.Proofs.Tree.Spelling

/-!
# Where steps lead

`Leads` says step by step where a way leads that `follow` goes to its end. What holds of every way
is proved by induction on it: it stays below directories, it does not depend on steps that stay
where they are, and writing its locations out changes nothing but which ways are too long.
-/

namespace PackageMap.Tree

variable {t : Tree} {how : Manner} {k : Nat} {loc l : Location} {steps rest : List Step}

/-- Where the target of a link in the directory `dir` is seen from. -/
def linkBase (target : String) (dir : Location) : Location :=
  if (Path.mk target).isAbsolute then [] else dir

/-- A directory that a way may go on from. -/
def Passable (t : Tree) (how : Manner) (loc : Location) : Prop :=
  how.admits loc 1 = true ∧ t.entry? loc = some .directory

/-- The steps lead from the first location to the second over at most so many links. -/
inductive Leads (t : Tree) (how : Manner) : Nat → Location → List Step → Location → Prop
  | done {k : Nat} {loc : Location} : Leads t how k loc [] loc
  | here {k : Nat} {loc l : Location} {rest : List Step} (hd : t.Passable how loc)
      (h : Leads t how k loc rest l) : Leads t how k loc (.here :: rest) l
  | up {k : Nat} {loc l : Location} {rest : List Step} (hd : t.Passable how loc)
      (h : Leads t how k loc.tail rest l) : Leads t how k loc (.up :: rest) l
  | name {k : Nat} {loc l : Location} {rest : List Step} {n : Name} {e : Entry}
      (hd : t.Passable how loc) (ha : how.admits (n :: loc) 0 = true)
      (he : t.entry? (n :: loc) = some e) (hlink : ∀ target, e ≠ .link target)
      (h : Leads t how k (n :: loc) rest l) : Leads t how k loc (.name n.text :: rest) l
  | link {k : Nat} {loc l : Location} {rest : List Step} {n : Name} {target : String}
      (hd : t.Passable how loc) (ha : how.admits (n :: loc) 0 = true)
      (he : t.entry? (n :: loc) = some (.link target))
      (h : Leads t how k (linkBase target loc) (stepsOf target ++ rest) l) :
      Leads t how (k + 1) loc (.name n.text :: rest) l

theorem text_of_ofText? {text : String} {n : Name} (h : Name.ofText? text = some n) :
    n.text = text := by
  unfold Name.ofText? at h
  split at h
  · cases h; rfl
  · cases h

theorem leads_of_advance {jump : Location → List Step → Except IoError Location}
    (hjump : ∀ loc steps l, jump loc steps = .ok l → ∃ j, k = j + 1 ∧ Leads t how j loc steps l)
    (h : t.advance how jump loc steps = .ok l) : Leads t how k loc steps l := by
  induction steps generalizing loc with
  | nil =>
    cases h
    exact .done
  | cons s rest ih =>
    unfold advance at h
    split at h
    · cases h
    next ha =>
    have ha : how.admits loc 1 = true := by simpa using ha
    split at h
    · cases h
    · cases h
    · cases h
    next hd =>
    split at h
    · exact .here ⟨ha, hd⟩ (ih h)
    · exact .up ⟨ha, hd⟩ (ih h)
    next text =>
    split at h
    · cases h
    next n hn =>
    obtain rfl := text_of_ofText? hn
    split at h
    · cases h
    next hname =>
    have hname : how.admits (n :: loc) 0 = true := by simpa using hname
    split at h
    · cases h
    · next target he =>
      obtain ⟨j, rfl, hj⟩ := hjump _ _ _ h
      exact .link ⟨ha, hd⟩ hname he hj
    · next e hlink he => exact .name ⟨ha, hd⟩ hname he hlink (ih h)

theorem leads_of_follow (h : t.follow how k loc steps = .ok l) : Leads t how k loc steps l := by
  induction k generalizing loc steps l with
  | zero => exact leads_of_advance (fun _ _ _ h => by cases h) h
  | succ k ih => exact leads_of_advance (fun _ _ _ h => ⟨k, rfl, ih h⟩) h

/-! ## One step -/

theorem follow_nil : t.follow how k loc [] = .ok loc := by
  cases k <;> rfl

theorem follow_here (hd : t.Passable how loc) :
    t.follow how k loc (.here :: rest) = t.follow how k loc rest := by
  cases k <;> simp only [follow, advance, hd.1, hd.2, Bool.not_true, Bool.false_eq_true, if_false]

theorem follow_up (hd : t.Passable how loc) :
    t.follow how k loc (.up :: rest) = t.follow how k loc.tail rest := by
  cases k <;> simp only [follow, advance, hd.1, hd.2, Bool.not_true, Bool.false_eq_true, if_false]

theorem follow_name {n : Name} {e : Entry} (hd : t.Passable how loc)
    (ha : how.admits (n :: loc) 0 = true) (he : t.entry? (n :: loc) = some e)
    (hlink : ∀ target, e ≠ .link target) :
    t.follow how k loc (.name n.text :: rest) = t.follow how k (n :: loc) rest := by
  cases e with
  | link target => exact (hlink target rfl).elim
  | _ =>
    cases k <;> simp only [follow, advance, hd.1, hd.2, ha, he, Name.ofText?_text, Bool.not_true,
      Bool.false_eq_true, if_false]

theorem follow_link {n : Name} {target : String} (hd : t.Passable how loc)
    (ha : how.admits (n :: loc) 0 = true) (he : t.entry? (n :: loc) = some (.link target)) :
    t.follow how (k + 1) loc (.name n.text :: rest) =
      t.follow how k (linkBase target loc) (stepsOf target ++ rest) := by
  simp only [follow, advance, hd.1, hd.2, ha, he, Name.ofText?_text, Bool.not_true,
    Bool.false_eq_true, if_false]
  rfl

theorem follow_of_leads (h : Leads t how k loc steps l) : t.follow how k loc steps = .ok l := by
  induction h with
  | done => exact follow_nil
  | here hd _ ih => rw [follow_here hd, ih]
  | up hd _ ih => rw [follow_up hd, ih]
  | name hd ha he hlink _ ih => rw [follow_name hd ha he hlink, ih]
  | link hd ha he _ ih => rw [follow_link hd ha he, ih]

theorem follow_eq_ok_iff : t.follow how k loc steps = .ok l ↔ Leads t how k loc steps l :=
  ⟨leads_of_follow, follow_of_leads⟩

theorem Leads.unique {l' : Location} (h : Leads t how k loc steps l)
    (h' : Leads t how k loc steps l') : l = l' :=
  Except.ok.inj ((follow_of_leads h).symm.trans (follow_of_leads h'))

/-- A way starts in a directory. -/
theorem Leads.entry?_of_ne_nil (h : Leads t how k loc steps l) (hne : steps ≠ []) :
    t.entry? loc = some .directory := by
  cases h with
  | done => exact (hne rfl).elim
  | here hd _ => exact hd.2
  | up hd _ => exact hd.2
  | name hd _ _ _ _ => exact hd.2
  | link hd _ _ _ => exact hd.2

/-! ## Below directories -/

/-- All locations above are directories. -/
def Stands (t : Tree) : Location → Prop
  | [] => True
  | _ :: above => t.entry? above = some .directory ∧ Stands t above

instance decidableStands (t : Tree) : (loc : Location) → Decidable (t.Stands loc)
  | [] => .isTrue trivial
  | _ :: above => @instDecidableAnd _ _ _ (decidableStands t above)

theorem Stands.tail (h : t.Stands loc) : t.Stands loc.tail := by
  cases loc with
  | nil => exact h
  | cons n above => exact h.2

theorem Stands.linkBase (h : t.Stands loc) (target : String) :
    t.Stands (Tree.linkBase target loc) := by
  unfold Tree.linkBase
  split
  · trivial
  · exact h

theorem Leads.stands (h : Leads t how k loc steps l) (hloc : t.Stands loc) : t.Stands l := by
  induction h with
  | done => exact hloc
  | here _ _ ih => exact ih hloc
  | up _ _ ih => exact ih hloc.tail
  | name hd _ _ _ _ ih => exact ih ⟨hd.2, hloc⟩
  | link _ _ _ _ ih => exact ih (hloc.linkBase _)

/-- There is an entry, and it is no link. -/
def Lands (t : Tree) (loc : Location) : Prop :=
  ∃ e, t.entry? loc = some e ∧ ∀ target, e ≠ .link target

theorem lands_of_directory (h : t.entry? loc = some .directory) : t.Lands loc :=
  ⟨.directory, h, nofun⟩

/-- A way does not end at a link. -/
theorem Leads.lands (h : Leads t how k loc steps l) (hs : t.Stands loc) (hloc : t.Lands loc) :
    t.Lands l := by
  induction h with
  | done => exact hloc
  | here _ _ ih => exact ih hs hloc
  | @up _ loc _ _ _ _ ih =>
    refine ih hs.tail ?_
    cases loc with
    | nil => exact hloc
    | cons n above => exact lands_of_directory hs.1
  | name hd _ he hlink _ ih => exact ih ⟨hd.2, hs⟩ ⟨_, he, hlink⟩
  | @link _ loc _ _ _ target hd _ _ _ ih =>
    refine ih (hs.linkBase target) ?_
    unfold Tree.linkBase
    split
    · exact lands_of_directory rfl
    · exact lands_of_directory hd.2

/-! ## Ways written out -/

theorem Passable.direct (h : t.Passable how loc) : t.Passable .direct loc := ⟨rfl, h.2⟩

/-- A way that may be written out is also a way when it is not. -/
theorem Leads.direct (h : Leads t how k loc steps l) : Leads t .direct k loc steps l := by
  induction h with
  | done => exact .done
  | here hd _ ih => exact .here hd.direct ih
  | up hd _ ih => exact .up hd.direct ih
  | name hd _ he hlink _ ih => exact .name hd.direct rfl he hlink ih
  | link hd _ he _ ih => exact .link hd.direct rfl he ih

theorem size_tail_le (loc : Location) :
    (Location.path loc.tail).text.utf8ByteSize ≤ loc.path.text.utf8ByteSize := by
  cases loc with
  | nil => exact Nat.le_refl _
  | cons n above =>
    by_cases habove : above = []
    · subst habove
      exact Nat.succ_le_of_lt (size_path_pos [n])
    · rw [text_path_cons n habove, String.utf8ByteSize_append, String.utf8ByteSize_append,
        List.tail_cons]
      omega

theorem size_of_admits {more : Nat} (h : Manner.written.admits loc more = true) :
    loc.path.text.utf8ByteSize + more < pathLimit := of_decide_eq_true h

/-- What is written out at the end of a way is below the limit. -/
theorem Leads.size_lt (h : Leads t .written k loc steps l) (hne : steps ≠ []) :
    l.path.text.utf8ByteSize < pathLimit := by
  have hor : (steps = [] ∧ l = loc) ∨ l.path.text.utf8ByteSize < pathLimit := by
    clear hne
    induction h with
    | done => exact .inl ⟨rfl, rfl⟩
    | here hd _ ih =>
      have hsize := size_of_admits hd.1
      rcases ih with ⟨-, rfl⟩ | hl
      · exact .inr (by omega)
      · exact .inr hl
    | @up _ loc _ _ hd _ ih =>
      have hsize := size_of_admits hd.1
      have htail := size_tail_le loc
      rcases ih with ⟨-, rfl⟩ | hl
      · exact .inr (by omega)
      · exact .inr hl
    | name hd ha _ _ _ ih =>
      rcases ih with ⟨-, rfl⟩ | hl
      · exact .inr (size_of_admits ha)
      · exact .inr hl
    | @link _ loc _ _ _ target hd _ _ _ ih =>
      have hsize := size_of_admits hd.1
      rcases ih with ⟨-, rfl⟩ | hl
      · unfold linkBase
        split
        · exact .inr (by decide)
        · exact .inr (by omega)
      · exact .inr hl
  exact hor.resolve_left fun h => hne h.1

theorem follow_of_not_admits {s : Step} (h : how.admits loc 1 = false) :
    t.follow how k loc (s :: rest) = .error .nameTooLong := by
  cases k <;> simp only [follow, advance, h, Bool.not_false, if_true]

theorem follow_name_of_not_admits {n : Name} (hd : t.Passable how loc)
    (h : how.admits (n :: loc) 0 = false) :
    t.follow how k loc (.name n.text :: rest) = .error .nameTooLong := by
  cases k <;> simp only [follow, advance, hd.1, hd.2, h, Name.ofText?_text, Bool.not_true,
    Bool.not_false, Bool.false_eq_true, if_false, if_true]

/-- A way that cannot be written out goes through a location that is too long. -/
theorem Leads.written (h : Leads t .direct k loc steps l) :
    t.follow .written k loc steps = .ok l ∨
      t.follow .written k loc steps = .error .nameTooLong := by
  have hpass {loc : Location} {s : Step} {rest : List Step} {k : Nat} {l : Location}
      (hd : t.entry? loc = some .directory)
      (h : t.Passable .written loc → t.follow .written k loc (s :: rest) = .ok l ∨
        t.follow .written k loc (s :: rest) = .error .nameTooLong) :
      t.follow .written k loc (s :: rest) = .ok l ∨
        t.follow .written k loc (s :: rest) = .error .nameTooLong := by
    cases ha : Manner.written.admits loc 1 with
    | true => exact h ⟨ha, hd⟩
    | false => exact .inr (follow_of_not_admits ha)
  induction h with
  | done => exact .inl follow_nil
  | here hd _ ih => exact hpass hd.2 fun hd => by rwa [follow_here hd]
  | up hd _ ih => exact hpass hd.2 fun hd => by rwa [follow_up hd]
  | @name _ loc _ _ n _ hd _ he hlink _ ih =>
    refine hpass hd.2 fun hd => ?_
    cases ha : Manner.written.admits (n :: loc) 0 with
    | true => rwa [follow_name hd ha he hlink]
    | false => exact .inr (follow_name_of_not_admits hd ha)
  | @link _ loc _ _ n _ hd _ he _ ih =>
    refine hpass hd.2 fun hd => ?_
    cases ha : Manner.written.admits (n :: loc) 0 with
    | true => rwa [follow_link hd ha he]
    | false => exact .inr (follow_name_of_not_admits hd ha)

/-! ## Steps that stay -/

/-- Leave out some of the steps that stay where they are. -/
inductive Thins : List Step → List Step → Prop
  | nil : Thins [] []
  | drop {steps steps' : List Step} (h : Thins steps steps') : Thins (.here :: steps) steps'
  | cons {s : Step} {steps steps' : List Step} (h : Thins steps steps') :
      Thins (s :: steps) (s :: steps')

theorem Thins.refl (steps : List Step) : Thins steps steps := by
  induction steps with
  | nil => exact .nil
  | cons s steps ih => exact .cons ih

theorem Thins.append {steps' : List Step} (before : List Step) (h : Thins steps steps') :
    Thins (before ++ steps) (before ++ steps') := by
  induction before with
  | nil => exact h
  | cons s before ih => exact .cons ih

theorem thins_moves (steps : List Step) : Thins steps (moves steps) := by
  induction steps with
  | nil => exact .nil
  | cons s steps ih =>
    by_cases hs : s = .here
    · subst hs
      exact .drop ih
    · rw [moves, List.filter_cons_of_pos (by simpa using hs)]
      exact .cons ih

/-- A way leads to the same location when it does not ask for directories where it stays. -/
theorem Leads.thin {steps' : List Step} (h : Leads t how k loc steps l) (hs : Thins steps steps') :
    Leads t how k loc steps' l := by
  induction h generalizing steps' with
  | done =>
    cases hs
    exact .done
  | here hd _ ih =>
    cases hs with
    | drop hs => exact ih hs
    | cons hs => exact .here hd (ih hs)
  | up hd _ ih =>
    cases hs with
    | cons hs => exact .up hd (ih hs)
  | name hd ha he hlink _ ih =>
    cases hs with
    | cons hs => exact .name hd ha he hlink (ih hs)
  | link hd ha he _ ih =>
    cases hs with
    | cons hs => exact .link hd ha he (ih (hs.append _))

/-! ## The way to a location -/

/-- The way from the root to a location is the names that its path is made of, if those above it may
be gone through. -/
theorem leads_location_of_admits {e : Entry} (hloc : t.Stands loc)
    (hadmits : ∀ n above, n :: above <:+ loc →
      how.admits above 1 = true ∧ how.admits (n :: above) 0 = true)
    (he : t.entry? loc = some e) (hlink : ∀ target, e ≠ .link target)
    (h : Leads t how k loc rest l) :
    Leads t how k [] ((loc.reverse.map fun n => .name n.text) ++ rest) l := by
  induction loc generalizing e rest with
  | nil => exact h
  | cons n above ih =>
    obtain ⟨habove, hname⟩ := hadmits n above List.suffix_rfl
    rw [List.reverse_cons, List.map_append, List.append_assoc]
    refine ih hloc.2 (fun m b hb => hadmits m b (hb.trans (List.suffix_cons n above))) hloc.1
      (by simp) ?_
    exact .name ⟨habove, hloc.1⟩ hname he hlink h

theorem leads_location {e : Entry} (hloc : t.Stands loc) (he : t.entry? loc = some e)
    (hlink : ∀ target, e ≠ .link target) (h : Leads t .direct k loc rest l) :
    Leads t .direct k [] ((loc.reverse.map fun n => .name n.text) ++ rest) l :=
  leads_location_of_admits hloc (fun _ _ _ => ⟨rfl, rfl⟩) he hlink h

theorem size_path_le_of_suffix {above : Location} (h : above <:+ loc) :
    above.path.text.utf8ByteSize ≤ loc.path.text.utf8ByteSize := by
  induction loc with
  | nil =>
    obtain rfl := List.suffix_nil.1 h
    exact Nat.le_refl _
  | cons n rest ih =>
    rcases List.suffix_cons_iff.1 h with rfl | hrest
    · exact Nat.le_refl _
    · exact Nat.le_trans (ih hrest) (size_tail_le (n :: rest))

/-- A location whose path is within the limit can be written out, and so can those above it, with a
slash. -/
theorem admits_of_suffix {n : Name} {above : Location} (h : n :: above <:+ loc)
    (hsize : loc.path.text.utf8ByteSize < pathLimit) :
    Manner.written.admits above 1 = true ∧ Manner.written.admits (n :: above) 0 = true := by
  have hname := size_path_le_of_suffix h
  have habove : above.path.text.utf8ByteSize + 1 < pathLimit := by
    by_cases hroot : above = []
    · subst hroot
      decide
    · have hslash : "/".utf8ByteSize = 1 := by decide
      rw [text_path_cons n hroot, String.utf8ByteSize_append, String.utf8ByteSize_append,
        hslash] at hname
      omega
  exact ⟨decide_eq_true habove, decide_eq_true (Nat.lt_of_le_of_lt hname hsize)⟩

end PackageMap.Tree
