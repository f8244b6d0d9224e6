import PackageMap.Proofs.Tree.Unlinked
import PackageMap.Tree.Write

/-!
# Ways in a changed tree

Where one entry is put in or left out nothing else changes, and no way to a directory changes that
does not go through it. A way does not go through a file, so a file may come and go unnoticed.
-/

namespace PackageMap.Tree

variable {t u : Tree} {how : Manner} {k : Nat} {loc l dir start : Location} {steps : List Step}
  {p : Path} {e : Entry}

/-! ## Entries -/

theorem lookup_filter_ne (loc l : Location) (es : List (Location × Entry)) :
    (es.filter fun x => x.1 != loc).lookup l = if l = loc then none else es.lookup l := by
  induction es with
  | nil => split <;> rfl
  | cons x es ih =>
    obtain ⟨m, e⟩ := x
    by_cases hm : m = loc
    · subst hm
      rw [List.filter_cons_of_neg (by simp), ih]
      split
      · rfl
      · next hl => rw [List.lookup_cons, beq_false_of_ne hl]
    · rw [List.filter_cons_of_pos (by simpa using hm), List.lookup_cons, List.lookup_cons, ih]
      by_cases hl : l = m
      · subst hl
        rw [beq_self_eq_true, if_neg hm, if_neg hm]
      · rw [beq_false_of_ne hl]

theorem entry?_put (hne : loc ≠ []) (l : Location) :
    entry? (t.put loc e) l = if l = loc then some e else t.entry? l := by
  unfold put entry?
  by_cases hroot : l = []
  · rw [if_pos hroot, if_pos hroot, if_neg (hroot ▸ hne.symm)]
  · rw [if_neg hroot, if_neg hroot, List.lookup_append, lookup_filter_ne]
    by_cases hl : l = loc
    · rw [if_pos hl, if_pos hl, Option.none_or, List.lookup_cons, beq_iff_eq.2 hl]
    · rw [if_neg hl, if_neg hl, List.lookup_cons, beq_false_of_ne hl, List.lookup_nil,
        Option.or_none]

/-- The tree without the entry at the location. What lies below it stays. -/
def without (t : Tree) (loc : Location) : Tree :=
  { t with entries := t.entries.filter fun x => x.1 != loc }

theorem entry?_without (hne : loc ≠ []) (l : Location) :
    entry? (t.without loc) l = if l = loc then none else t.entry? l := by
  unfold without entry?
  by_cases hroot : l = []
  · rw [if_pos hroot, if_pos hroot, if_neg (hroot ▸ hne.symm)]
  · rw [if_neg hroot, if_neg hroot, lookup_filter_ne]

/-- There is no entry at the location, and none below it. -/
def Vacant (t : Tree) (loc : Location) : Prop := ∀ x ∈ t.entries, ¬ loc <:+ x.1

theorem Vacant.entry?_eq_none (h : t.Vacant loc) (hne : loc ≠ []) : t.entry? loc = none := by
  rw [Option.eq_none_iff_forall_ne_some]
  exact fun e he => h _ (mem_entries_of_some he hne) List.suffix_rfl

/-- What is put where nothing was and then removed leaves no trace. -/
theorem Vacant.erase_put (h : t.Vacant loc) (e : Entry) : (t.put loc e).erase loc = t := by
  have hkeep : t.entries.filter (fun x => x.1 != loc) = t.entries := by
    rw [List.filter_eq_self]
    intro x hx
    rw [bne_iff_ne]
    rintro rfl
    exact h x hx List.suffix_rfl
  have hrest : t.entries.filter (fun x => !loc.isSuffixOf x.1) = t.entries := by
    rw [List.filter_eq_self]
    intro x hx
    rw [Bool.not_eq_true', ← Bool.not_eq_true, List.isSuffixOf_iff_suffix]
    exact h x hx
  have hself : [(loc, e)].filter (fun x => !loc.isSuffixOf x.1) = [] := by simp
  unfold erase put
  dsimp only
  rw [hkeep, List.filter_append, hrest, hself, List.append_nil]

/-! ## Ways -/

/-- A way stays one where entries are added. -/
theorem Leads.mono (h : Leads t how k start steps l)
    (hsub : ∀ loc e, t.entry? loc = some e → u.entry? loc = some e) :
    Leads u how k start steps l := by
  induction h with
  | done => exact .done
  | here hd _ ih => exact .here ⟨hd.1, hsub _ _ hd.2⟩ ih
  | up hd _ ih => exact .up ⟨hd.1, hsub _ _ hd.2⟩ ih
  | name hd ha he hlink _ ih => exact .name ⟨hd.1, hsub _ _ hd.2⟩ ha (hsub _ _ he) hlink ih
  | link hd ha he _ ih => exact .link ⟨hd.1, hsub _ _ hd.2⟩ ha (hsub _ _ he) ih

/-- There is a file at the location, or nothing. -/
def Closed (t : Tree) (loc : Location) : Prop := ∀ e ∈ t.entry? loc, ∃ bytes, e = .file bytes

theorem Closed.ne (h : t.Closed loc) (he : t.entry? l = some e) (hfile : ∀ bytes, e ≠ .file bytes) :
    l ≠ loc := by
  rintro rfl
  obtain ⟨bytes, rfl⟩ := h e he
  exact hfile bytes rfl

/-- A way to a directory does not go through a file, so it is a way without the file, too. -/
theorem Leads.of_closed (h : Leads t how k start steps l) (hl : t.entry? l = some .directory)
    (hclosed : t.Closed loc) (hsame : ∀ x, x ≠ loc → u.entry? x = t.entry? x) :
    Leads u how k start steps l := by
  have hpass {x : Location} (hd : t.Passable how x) : u.Passable how x :=
    ⟨hd.1, (hsame x (hclosed.ne hd.2 nofun)).trans hd.2⟩
  induction h with
  | done => exact .done
  | here hd _ ih => exact .here (hpass hd) (ih hl)
  | up hd _ ih => exact .up (hpass hd) (ih hl)
  | @name _ x l rest n e hd ha he hlink hrest ih =>
    have hne : n :: x ≠ loc := by
      intro heq
      -- behind a file there is no way, and the way does not end at it
      have hdir : t.entry? (n :: x) = some .directory := by
        cases hrest with
        | done => exact hl
        | here hd _ => exact hd.2
        | up hd _ => exact hd.2
        | name hd _ _ _ _ => exact hd.2
        | link hd _ _ _ => exact hd.2
      exact hclosed.ne hdir nofun heq
    exact .name (hpass hd) ha ((hsame _ hne).trans he) hlink (ih hl)
  | link hd ha he _ ih =>
    exact .link (hpass hd) ha ((hsame _ (hclosed.ne he nofun)).trans he) (ih hl)

theorem followDirectory_eq_ok_iff : t.followDirectory start steps = .ok dir ↔
    Leads t .direct linkLimit start steps dir ∧ t.entry? dir = some .directory := by
  unfold followDirectory
  rw [← follow_eq_ok_iff]
  cases t.follow .direct linkLimit start steps with
  | error e => simp
  | ok l =>
    constructor
    · intro h
      dsimp only at h
      split at h
      · next he =>
        cases h
        exact ⟨rfl, he⟩
      · cases h
      · cases h
    · rintro ⟨h, he⟩
      cases h
      dsimp only
      rw [he]

/-! ## Places -/

theorem splitLast_eq_some_iff {last : Step} {before : List Step} :
    splitLast steps = some (before, last) ↔ steps = before ++ [last] := by
  unfold splitLast
  rw [Option.map_eq_some_iff]
  constructor
  · rintro ⟨s, hs, heq⟩
    obtain ⟨rfl, rfl⟩ := Prod.mk.inj heq
    obtain ⟨init, rfl⟩ := List.getLast?_eq_some_iff.1 hs
    rw [List.dropLast_concat]
  · rintro rfl
    exact ⟨last, List.getLast?_concat, by rw [List.dropLast_concat]⟩

/-- A path names a place by a name in the directory that the steps before it lead to. -/
theorem place_eq_ok_iff : t.place p = .ok loc ↔ textError? p = none ∧ ∃ before n dir,
    namedSteps p.text = before ++ [.name n.text] ∧
      t.followDirectory (t.startOf p) before = .ok dir ∧ loc = n :: dir := by
  unfold place
  cases textError? p with
  | some e => simp
  | none =>
    rw [eq_self_iff_true, true_and]
    dsimp only
    constructor
    · intro h
      split at h
      · cases h
      next before last hsplit =>
      split at h
      · cases h
      next dir hdir =>
      split at h
      next text =>
        split at h
        · cases h
        next n hn =>
        cases h
        refine ⟨before, n, dir, ?_, hdir, rfl⟩
        rw [text_of_ofText? hn]
        exact splitLast_eq_some_iff.1 hsplit
      · cases h
    · rintro ⟨before, n, dir, hsteps, hdir, rfl⟩
      rw [splitLast_eq_some_iff.2 hsteps]
      dsimp only
      rw [hdir]
      dsimp only
      rw [Name.ofText?_text]

/-- A path names the same place in a tree where its directory part leads to the same directory. -/
theorem place_eq_of_followDirectory (h : t.place p = .ok loc) (hcwd : u.cwd = t.cwd)
    (hdir : ∀ start steps dir, t.followDirectory start steps = .ok dir →
      u.followDirectory start steps = .ok dir) : u.place p = .ok loc := by
  obtain ⟨htext, before, n, dir, hsteps, hd, rfl⟩ := place_eq_ok_iff.1 h
  have hstart : u.startOf p = t.startOf p := by unfold startOf; rw [hcwd]
  exact place_eq_ok_iff.2 ⟨htext, before, n, dir, hsteps, hstart ▸ hdir _ _ _ hd, rfl⟩

theorem place_mono (h : t.place p = .ok loc) (hcwd : u.cwd = t.cwd)
    (hsub : ∀ loc e, t.entry? loc = some e → u.entry? loc = some e) : u.place p = .ok loc := by
  refine place_eq_of_followDirectory h hcwd fun start steps dir hdir => ?_
  obtain ⟨hway, hd⟩ := followDirectory_eq_ok_iff.1 hdir
  exact followDirectory_eq_ok_iff.2 ⟨hway.mono hsub, hsub _ _ hd⟩

theorem place_of_closed (h : t.place p = .ok loc) (hcwd : u.cwd = t.cwd) (hclosed : t.Closed l)
    (hsame : ∀ x, x ≠ l → u.entry? x = t.entry? x) : u.place p = .ok loc := by
  refine place_eq_of_followDirectory h hcwd fun start steps dir hdir => ?_
  obtain ⟨hway, hd⟩ := followDirectory_eq_ok_iff.1 hdir
  have hne := hclosed.ne hd nofun
  exact followDirectory_eq_ok_iff.2 ⟨hway.of_closed hd hclosed hsame, (hsame dir hne).trans hd⟩

end PackageMap.Tree
