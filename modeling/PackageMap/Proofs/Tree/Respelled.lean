import PackageMap.Proofs.Path.Child
import PackageMap.Proofs.Tree.Canonical

/-!
# Directories under two paths

Two absolute paths with one canonical path lead to one directory, so the same is seen from both.
What may differ is how much of a limit they use up: the length of their text, and the links on the
way.
-/

namespace PackageMap.Tree

variable {t : Tree} {how : Manner} {j k : Nat} {loc l dir : Location} {steps rest : List Step}
  {p q r r' : Path} {s : String}

/-! ## The links that are left -/

/-- A way goes on from where its first part leads, with the links that are left. -/
theorem Leads.exists_follow_append (h : Leads t how k loc steps l) :
    ∃ j, ∀ rest, t.follow how k loc (steps ++ rest) = t.follow how j l rest := by
  induction h with
  | done => exact ⟨_, fun rest => rfl⟩
  | here hd _ ih =>
    obtain ⟨j, hj⟩ := ih
    exact ⟨j, fun rest => by rw [List.cons_append, follow_here hd, hj]⟩
  | up hd _ ih =>
    obtain ⟨j, hj⟩ := ih
    exact ⟨j, fun rest => by rw [List.cons_append, follow_up hd, hj]⟩
  | name hd ha he hlink _ ih =>
    obtain ⟨j, hj⟩ := ih
    exact ⟨j, fun rest => by rw [List.cons_append, follow_name hd ha he hlink, hj]⟩
  | link hd ha he _ ih =>
    obtain ⟨j, hj⟩ := ih
    exact ⟨j, fun rest => by rw [List.cons_append, follow_link hd ha he, ← List.append_assoc, hj]⟩

theorem advance_congr {jump jump' : Location → List Step → Except IoError Location}
    (hjump : ∀ loc steps, jump loc steps ≠ .error .tooManyLinks →
      jump' loc steps = jump loc steps)
    (h : t.advance how jump loc steps ≠ .error .tooManyLinks) :
    t.advance how jump' loc steps = t.advance how jump loc steps := by
  induction steps generalizing loc with
  | nil => rfl
  | cons s rest ih =>
    unfold advance at h ⊢
    cases ha : how.admits loc 1 with
    | false => rfl
    | true =>
      rw [ha] at h
      cases hd : t.entry? loc with
      | none => rfl
      | some e =>
        rw [hd] at h
        cases e with
        | file bytes => rfl
        | link target => rfl
        | directory =>
          cases s with
          | here => exact ih h
          | up => exact ih h
          | name text =>
            dsimp only at h ⊢
            cases hn : Name.ofText? text with
            | none => rfl
            | some n =>
              rw [hn] at h
              dsimp only at h ⊢
              cases hname : how.admits (n :: loc) 0 with
              | false => rfl
              | true =>
                rw [hname] at h
                cases he : t.entry? (n :: loc) with
                | none => rfl
                | some e =>
                  rw [he] at h
                  cases e with
                  | file bytes => exact ih h
                  | directory => exact ih h
                  | link target => exact hjump _ _ h

/-- More links change nothing unless there were too many. -/
theorem follow_of_le (h : t.follow how j loc steps ≠ .error .tooManyLinks) (hjk : j ≤ k) :
    t.follow how k loc steps = t.follow how j loc steps := by
  induction j generalizing k loc steps with
  | zero =>
    cases k with
    | zero => rfl
    | succ k => exact advance_congr (fun _ _ hnone => (hnone rfl).elim) h
  | succ j ih =>
    obtain ⟨k, rfl⟩ := Nat.exists_eq_add_of_lt hjk
    exact advance_congr (fun _ _ hnone => ih hnone (by omega)) h

/-- With different numbers of links a way leads to the same unless one of them is too small. -/
theorem follow_congr (h : t.follow how j loc steps = .error .tooManyLinks ↔
    t.follow how k loc steps = .error .tooManyLinks) :
    t.follow how j loc steps = t.follow how k loc steps := by
  by_cases hj : t.follow how j loc steps = .error .tooManyLinks
  · rw [hj, h.1 hj]
  rcases Nat.le_total j k with hjk | hkj
  · exact (follow_of_le hj hjk).symm
  · exact follow_of_le (mt h.2 hj) hkj

/-! ## Steps seen from a directory -/

/-- The steps that a text asks for where a path goes on. -/
def stepsAfter (s : String) : List Step :=
  namedSteps s ++ if s = "" ∨ endsInSlash s then [.here] else []

theorem namedSteps_child (hp : p.text ≠ "") (hs : (Path.mk s).isAbsolute = false) :
    namedSteps (p.child s).text = namedSteps p.text ++ namedSteps s :=
  Path.filterMap_segments_child rfl hp hs

theorem stepsOf_child (hp : p.text ≠ "") (hs : (Path.mk s).isAbsolute = false) :
    stepsOf (p.child s).text = namedSteps p.text ++ stepsAfter s := by
  have hends : endsInSlash (p.child s).text = true ↔ s = "" ∨ endsInSlash s = true := by
    obtain ⟨cs, hchild, -⟩ := Path.exists_toList_child hp hs
    unfold endsInSlash
    rw [hchild, List.getLast?_append, List.getLast?_cons]
    cases hlast : s.toList.getLast? with
    | none =>
      have hempty : s = "" := String.toList_eq_nil_iff.1 (List.getLast?_eq_none_iff.1 hlast)
      simp [hempty]
    | some c =>
      have hne : s ≠ "" := by
        rintro rfl
        cases hlast
      simp [hne]
  unfold stepsOf stepsAfter
  rw [namedSteps_child hp hs, List.append_assoc]
  simp only [hends]

theorem thins_namedSteps (text : String) : Thins (stepsOf text) (namedSteps text) := by
  unfold stepsOf
  split
  · have h := Thins.append (namedSteps text) (.drop (.nil))
    rwa [List.append_nil] at h
  · rw [List.append_nil]
    exact .refl _

/-- A path that is no error by its text does not make one of what is seen from it. -/
theorem emptyError?_child (hp : emptyError? p = none) (hs : (Path.mk s).isAbsolute = false) :
    emptyError? (p.child s) = if s.toList.contains '\x00' then some .nulInPath else none := by
  have hnul : '\x00' ∉ p.text.toList := by
    intro hmem
    unfold emptyError? at hp
    rw [if_pos (by simpa using hmem)] at hp
    cases hp
  obtain ⟨cs, hchild, hcs⟩ := Path.exists_toList_child (text_ne_of_emptyError? hp) hs
  have hcs : '\x00' ∉ cs := by
    rcases hcs with hcs | hcs
    · rwa [← hcs]
    · rw [hcs] at hnul
      exact fun hmem => hnul (List.mem_append_left _ hmem)
  have hne : (p.child s).text ≠ "" := by
    intro hempty
    rw [hempty] at hchild
    exact absurd (congrArg List.length hchild) (by simp)
  unfold emptyError?
  rw [hchild, if_neg hne]
  simp [hcs]

/-! ## Two paths for one directory -/

/-- Two absolute paths with the canonical path of a directory. -/
structure Spell (t : Tree) (r r' : Path) (dir : Location) : Prop where
  left : r.isAbsolute
  right : r'.isAbsolute
  canonical_left : t.canonical r = .ok dir
  canonical_right : t.canonical r' = .ok dir

/-- The limits make no difference to which of two paths is looked up: both are too long or neither
is, and both follow too many links or neither does. -/
structure SameLimits (t : Tree) (p q : Path) : Prop where
  size : p.text.utf8ByteSize < pathLimit ↔ q.text.utf8ByteSize < pathLimit
  links : t.locate p = .error .tooManyLinks ↔ t.locate q = .error .tooManyLinks

/-- Two paths are looked up alike. -/
structure Agree (t : Tree) (p q : Path) : Prop where
  text : textError? p = textError? q
  locate : t.locate p = t.locate q

theorem Agree.refl (p : Path) : t.Agree p p := ⟨rfl, rfl⟩

/-- The way to what is seen from a directory goes on from the directory. -/
theorem exists_follow_child (hp : p.isAbsolute) (hc : t.canonical p = .ok dir)
    (hs : (Path.mk s).isAbsolute = false) (how : Manner) :
    ∃ j, t.follow how linkLimit (t.startOf (p.child s)) (stepsOf (p.child s).text) =
      t.follow how j dir (stepsAfter s) := by
  obtain ⟨hempty, hway⟩ := canonical_eq_ok_iff.1 hc
  have hstart : t.startOf p = [] := if_pos hp
  have hchild : t.startOf (p.child s) = [] := if_pos (Path.isAbsolute_child hp s)
  rw [hstart] at hway
  have hnamed : Leads t how linkLimit [] (namedSteps p.text) dir := by
    cases how with
    | direct => exact hway.direct.thin (thins_namedSteps _)
    | written => exact hway.thin (thins_namedSteps _)
  obtain ⟨j, hj⟩ := hnamed.exists_follow_append
  exact ⟨j, by rw [hchild, stepsOf_child (text_ne_of_emptyError? hempty) hs, hj]⟩

namespace Spell

variable (h : Spell t r r' dir)

include h

section

variable (hs : (Path.mk s).isAbsolute = false)

include hs

/-- The ways go on from the same directory, so they differ at most in the links that are left. -/
theorem follow_child (how : Manner)
    (hlinks : t.follow how linkLimit (t.startOf (r.child s)) (stepsOf (r.child s).text) =
        .error .tooManyLinks ↔
      t.follow how linkLimit (t.startOf (r'.child s)) (stepsOf (r'.child s).text) =
        .error .tooManyLinks) :
    t.follow how linkLimit (t.startOf (r.child s)) (stepsOf (r.child s).text) =
      t.follow how linkLimit (t.startOf (r'.child s)) (stepsOf (r'.child s).text) := by
  obtain ⟨j, hj⟩ := exists_follow_child h.left h.canonical_left hs how
  obtain ⟨k, hk⟩ := exists_follow_child h.right h.canonical_right hs how
  rw [hj, hk] at hlinks ⊢
  exact follow_congr hlinks

theorem emptyError?_child : emptyError? (r.child s) = emptyError? (r'.child s) := by
  rw [Tree.emptyError?_child (canonical_eq_ok_iff.1 h.canonical_left).1 hs,
    Tree.emptyError?_child (canonical_eq_ok_iff.1 h.canonical_right).1 hs]

theorem textError?_child
    (hsize : (r.child s).text.utf8ByteSize < pathLimit ↔
      (r'.child s).text.utf8ByteSize < pathLimit) :
    textError? (r.child s) = textError? (r'.child s) := by
  have hlong : (r.child s).text.utf8ByteSize ≥ pathLimit ↔
      (r'.child s).text.utf8ByteSize ≥ pathLimit := by
    rw [ge_iff_le, ge_iff_le, ← Nat.not_lt, ← Nat.not_lt, hsize]
  unfold textError?
  rw [h.emptyError?_child hs]
  simp only [hlong]

theorem locate_child (hl : SameLimits t (r.child s) (r'.child s)) :
    t.locate (r.child s) = t.locate (r'.child s) := by
  have hlinks := hl.links
  unfold locate at hlinks ⊢
  rw [← h.textError?_child hs hl.size] at hlinks ⊢
  cases herror : textError? (r.child s) with
  | some e => rfl
  | none =>
    rw [herror] at hlinks
    exact h.follow_child hs .direct hlinks

theorem canonical_child
    (hlinks : t.canonical (r.child s) = .error .tooManyLinks ↔
      t.canonical (r'.child s) = .error .tooManyLinks) :
    t.canonical (r.child s) = t.canonical (r'.child s) := by
  unfold canonical at hlinks ⊢
  rw [← h.emptyError?_child hs] at hlinks ⊢
  cases herror : emptyError? (r.child s) with
  | some e => rfl
  | none =>
    rw [herror] at hlinks
    exact h.follow_child hs .written hlinks

end

/-- The same is looked up from both paths where the limits make no difference. -/
theorem agree (hl : (Path.mk s).isAbsolute = false → SameLimits t (r.child s) (r'.child s)) :
    Agree t (r.child s) (r'.child s) := by
  cases hs : (Path.mk s).isAbsolute with
  | true =>
    rw [Path.child_of_isAbsolute hs, Path.child_of_isAbsolute hs]
    exact .refl _
  | false => exact ⟨h.textError?_child hs (hl hs).size, h.locate_child hs (hl hs)⟩

/-- The same has one canonical path from both, unless one of them follows too many links. -/
theorem canonical_eq (hlinks : (Path.mk s).isAbsolute = false →
      (t.canonical (r.child s) = .error .tooManyLinks ↔
        t.canonical (r'.child s) = .error .tooManyLinks)) :
    t.canonical (r.child s) = t.canonical (r'.child s) := by
  cases hs : (Path.mk s).isAbsolute with
  | true => rw [Path.child_of_isAbsolute hs, Path.child_of_isAbsolute hs]
  | false => exact h.canonical_child hs (hlinks hs)

/-- What has a canonical path is kept under it. -/
theorem canonicalOrSelf_eq (hlinks : (Path.mk s).isAbsolute = false →
      (t.canonical (r.child s) = .error .tooManyLinks ↔
        t.canonical (r'.child s) = .error .tooManyLinks))
    (hc : (Path.mk s).isAbsolute = false → ∃ loc, t.canonical (r.child s) = .ok loc) :
    t.canonicalOrSelf (r.child s) = t.canonicalOrSelf (r'.child s) := by
  cases hs : (Path.mk s).isAbsolute with
  | true => rw [Path.child_of_isAbsolute hs, Path.child_of_isAbsolute hs]
  | false =>
    obtain ⟨loc, hloc⟩ := hc hs
    unfold canonicalOrSelf
    rw [← h.canonical_eq hlinks, hloc]

end Spell

namespace Agree

variable (h : Agree t p q)

include h

theorem file? : t.file? p = t.file? q := by
  unfold Tree.file?
  rw [h.locate]

theorem isFile : t.isFile p = t.isFile q := by
  unfold Tree.isFile
  rw [h.file?]

theorem directory? : t.directory? p = t.directory? q := by
  unfold Tree.directory?
  rw [h.locate]

theorem isDirectory : t.isDirectory p = t.isDirectory q := by
  unfold Tree.isDirectory
  rw [h.directory?]

theorem read : t.read p = t.read q := by
  unfold Tree.read
  rw [h.locate]

end Agree

/-! ## Trees without links -/

theorem mem_entries_of_some {e : Entry} (h : t.entry? loc = some e) (hne : loc ≠ []) :
    (loc, e) ∈ t.entries := by
  unfold entry? at h
  rw [if_neg hne] at h
  obtain ⟨before, after, hentries, -⟩ := List.lookup_eq_some_iff.1 h
  rw [hentries]
  exact List.mem_append_right _ List.mem_cons_self

/-- The tree has no symbolic links. -/
def Unlinked (t : Tree) : Prop := ∀ loc target, (loc, .link target) ∉ t.entries

theorem Unlinked.entry?_ne_link (h : t.Unlinked) (loc : Location) (target : String) :
    t.entry? loc ≠ some (.link target) := by
  intro he
  by_cases hroot : loc = []
  · subst hroot
    cases he
  · exact h loc target (mem_entries_of_some he hroot)

/-- A tree that has no links, and no location that cannot be written out. -/
structure Plain (t : Tree) : Prop where
  noLinks : ∀ loc target, (loc, .link target) ∉ t.entries
  small : ∀ e ∈ t.entries, e.1.path.text.utf8ByteSize + 1 < pathLimit

theorem emptyError?_ne_tooManyLinks (p : Path) : emptyError? p ≠ some .tooManyLinks := by
  unfold emptyError?
  split
  · nofun
  split <;> nofun

theorem textError?_ne_tooManyLinks (p : Path) : textError? p ≠ some .tooManyLinks := by
  unfold textError?
  split
  · next e he =>
    rintro ⟨⟩
    exact emptyError?_ne_tooManyLinks p he
  · split <;> nofun

namespace Plain

variable (h : Plain t)

include h

theorem entry?_ne_link (loc : Location) (target : String) : t.entry? loc ≠ some (.link target) :=
  Unlinked.entry?_ne_link h.noLinks loc target

theorem admits {e : Entry} (he : t.entry? loc = some e) (how : Manner) :
    how.admits loc 1 = true := by
  cases how with
  | direct => rfl
  | written =>
    by_cases hroot : loc = []
    · subst hroot
      decide
    · have hsmall := h.small _ (mem_entries_of_some he hroot)
      unfold Manner.admits
      exact decide_eq_true hsmall

theorem advance_ne_tooManyLinks {jump : Location → List Step → Except IoError Location} :
    t.advance how jump loc steps ≠ .error .tooManyLinks := by
  induction steps generalizing loc with
  | nil => rintro ⟨⟩
  | cons s rest ih =>
    unfold advance
    split
    · rintro ⟨⟩
    split
    · rintro ⟨⟩
    · rintro ⟨⟩
    · rintro ⟨⟩
    split
    · exact ih
    · exact ih
    split
    · rintro ⟨⟩
    split
    · rintro ⟨⟩
    split
    · rintro ⟨⟩
    · next he => exact (h.entry?_ne_link _ _ he).elim
    · exact ih

theorem follow_ne_tooManyLinks : t.follow how k loc steps ≠ .error .tooManyLinks := by
  cases k with
  | zero => exact h.advance_ne_tooManyLinks
  | succ k => exact h.advance_ne_tooManyLinks

theorem written (hl : Leads t .direct k loc steps l) : Leads t .written k loc steps l := by
  induction hl with
  | done => exact .done
  | here hd _ ih => exact .here ⟨h.admits hd.2 _, hd.2⟩ ih
  | up hd _ ih => exact .up ⟨h.admits hd.2 _, hd.2⟩ ih
  | name hd _ he hlink _ ih =>
    have hsmall := of_decide_eq_true (h.admits he .written)
    exact .name ⟨h.admits hd.2 _, hd.2⟩ (decide_eq_true (by omega)) he hlink ih
  | link _ _ he _ _ => exact (h.entry?_ne_link _ _ he).elim

theorem locate_ne_tooManyLinks (p : Path) : t.locate p ≠ .error .tooManyLinks := by
  unfold locate
  split
  · next e herror =>
    rintro ⟨⟩
    exact textError?_ne_tooManyLinks p herror
  · exact h.follow_ne_tooManyLinks

theorem canonical_ne_tooManyLinks (p : Path) : t.canonical p ≠ .error .tooManyLinks := by
  unfold Tree.canonical
  split
  · next e herror =>
    rintro ⟨⟩
    exact emptyError?_ne_tooManyLinks p herror
  · exact h.follow_ne_tooManyLinks

/-- Without links only the length of a path is limited. -/
theorem sameLimits (hsize : p.text.utf8ByteSize = q.text.utf8ByteSize) : SameLimits t p q where
  size := by rw [hsize]
  links := iff_of_false (h.locate_ne_tooManyLinks p) (h.locate_ne_tooManyLinks q)

theorem exists_canonical (hfile : t.isFile p) : ∃ loc, t.canonical p = .ok loc := by
  obtain ⟨loc, bytes, hl, -⟩ := isFile_iff.1 hfile
  obtain ⟨htext, hway⟩ := locate_eq_ok_iff.1 hl
  exact ⟨loc, canonical_eq_ok_iff.2 ⟨emptyError?_of_textError? htext, h.written hway⟩⟩

end Plain

end PackageMap.Tree
