import PackageMap.Proofs.Installed
import PackageMap.Seed

/-!
# Reason files below a directory

The Reason files of a package are those that names lead down to from its directory. If everything on
the way can be opened then the enumeration finds them all, each by its location
(`reasonFilesBelow_eq_ok_iff`, `mem_sourcesBelow_iff`), and the names lead from any path of the
directory to the files (`reaches_below`).
-/

namespace PackageMap

/-! ## Results of lists -/

theorem ok_eq_ok_iff {ε α : Type} {P : Prop} {a b : α} (hP : P) :
    (.ok a : Except ε α) = .ok b ↔ P ∧ b = a :=
  ⟨fun h => ⟨hP, (Except.ok.inj h).symm⟩, fun h => congrArg _ h.2.symm⟩

/-- A list of results is known if each result is. -/
theorem mapM_eq_ok_iff {ε α β : Type} {f : α → Except ε β} {P : α → Prop} {g : α → β} {l : List α}
    (h : ∀ a ∈ l, ∀ b, f a = .ok b ↔ P a ∧ b = g a) {bs : List β} :
    l.mapM f = .ok bs ↔ (∀ a ∈ l, P a) ∧ bs = l.map g := by
  induction l generalizing bs with
  | nil => simp [pure, Except.pure, eq_comm]
  | cons a l ih =>
    have ha := h a List.mem_cons_self
    have ih {bs : List β} := @ih (fun b hb => h b (List.mem_cons_of_mem _ hb)) bs
    rw [List.mapM_cons, List.forall_mem_cons, List.map_cons]
    cases hfa : f a with
    | error e =>
      refine iff_of_false nofun fun hP => ?_
      cases hfa.symm.trans ((ha (g a)).2 ⟨hP.1.1, rfl⟩)
    | ok b =>
      obtain ⟨hP, rfl⟩ := (ha b).1 hfa
      cases hrest : l.mapM f with
      | error e =>
        refine iff_of_false nofun fun hP => ?_
        cases hrest.symm.trans (ih.2 ⟨hP.1.2, rfl⟩)
      | ok cs =>
        obtain ⟨hPs, rfl⟩ := ih.1 hrest
        constructor
        · rintro ⟨⟩
          exact ⟨⟨hP, hPs⟩, rfl⟩
        · rintro ⟨-, rfl⟩
          rfl

theorem flatten_mapM_eq_ok_iff {ε α β : Type} {f : α → Except ε (List β)} {P : α → Prop}
    {g : α → List β} {l : List α} (h : ∀ a ∈ l, ∀ b, f a = .ok b ↔ P a ∧ b = g a) {bs : List β} :
    (do return (← l.mapM f).flatten) = (.ok bs : Except ε (List β)) ↔
      (∀ a ∈ l, P a) ∧ bs = l.flatMap g := by
  have hfound {found : List (List β)} := @mapM_eq_ok_iff _ _ _ f P g l h found
  cases hl : l.mapM f with
  | error e =>
    refine iff_of_false nofun fun hP => ?_
    cases hl.symm.trans (hfound.2 ⟨hP.1, rfl⟩)
  | ok found =>
    obtain ⟨hP, rfl⟩ := hfound.1 hl
    constructor
    · rintro ⟨⟩
      exact ⟨hP, List.flatMap_def.symm⟩
    · rintro ⟨-, rfl⟩
      exact congrArg Except.ok List.flatMap_def.symm

namespace Seeder

open Installed (pathBelow)
open Resolve (manifestName modulesName)

variable {t : Tree} {p : Path} {loc base l : Location} {names : List Name} {n k : Name}
  {bytes : ByteArray} {depth : Nat}

/-! ## Names of Reason files -/

/-- The name of a Reason file: that of a configuration, or one that ends as sources do. -/
def IsReasonName (name : String) : Prop :=
  name = buildName ∨ name = manifestName ∨
    ∃ stem ≠ "", ∃ ext ∈ sourceExtensions, name = stem ++ "." ++ ext

theorem isReasonFile_iff : isReasonFile n = true ↔ IsReasonName n.text := by
  have hdots : ∀ ext ∈ sourceExtensions, '.' ∉ ext.toList := by decide
  unfold isReasonFile IsReasonName
  rw [Bool.or_eq_true, Bool.or_eq_true, beq_iff_eq, beq_iff_eq, or_assoc, Option.any_eq_true]
  simp only [Path.extension?_eq_some_iff (Path.fileName?_name n), List.contains_iff_mem]
  refine or_congr_right (or_congr_right ⟨?_, ?_⟩)
  · rintro ⟨ext, ⟨-, stem, hstem, hname⟩, hext⟩
    exact ⟨stem, hstem, ext, hext, hname⟩
  · rintro ⟨stem, hstem, ext, hext, hname⟩
    exact ⟨ext, ⟨hdots ext hext, stem, hstem, hname⟩, hext⟩

theorem IsReasonName.ne_modulesName {name : String} (h : IsReasonName name) :
    name ≠ modulesName := by
  rintro rfl
  rcases h with h | h | ⟨stem, -, ext, -, h⟩
  · exact absurd h (by decide)
  · exact absurd h (by decide)
  · have hdot : '.' ∈ modulesName.toList := by
      rw [h]
      simp
    exact absurd hdot (by decide)

/-! ## The directories of a package -/

/-- The names lead down from the base through directories that belong to its package. -/
structure Descends (t : Tree) (base : Location) (names : List Name) : Prop where
  down : t.Down base names
  own : ∀ n ∈ names, n.text ≠ modulesName

theorem descends_nil : Descends t loc [] := ⟨trivial, nofun⟩

theorem descends_cons_iff : Descends t loc (n :: names) ↔
    n.text ≠ modulesName ∧ t.entry? (n :: loc) = some .directory ∧ Descends t (n :: loc) names := by
  constructor
  · rintro ⟨⟨he, hdown⟩, hown⟩
    obtain ⟨hn, hnames⟩ := List.forall_mem_cons.1 hown
    exact ⟨hn, he, hdown, hnames⟩
  · rintro ⟨hn, he, hdown, hnames⟩
    exact ⟨⟨he, hdown⟩, List.forall_mem_cons.2 ⟨hn, hnames⟩⟩

/-- A Reason file with these bytes stands in the directory that the names lead down to. -/
structure Holds (t : Tree) (base : Location) (names : List Name) (n : Name) (bytes : ByteArray) :
    Prop where
  descends : Descends t base names
  reason : IsReasonName n.text
  entry : t.entry? (n :: (names.reverse ++ base)) = some (.file bytes)

theorem reverse_cons_append (n : Name) (names : List Name) (loc : Location) :
    (n :: names).reverse ++ loc = names.reverse ++ n :: loc := by
  rw [List.reverse_cons, List.append_assoc]
  rfl

theorem holds_cons_iff : Holds t loc (n :: names) k bytes ↔
    n.text ≠ modulesName ∧ t.entry? (n :: loc) = some .directory ∧
      Holds t (n :: loc) names k bytes := by
  constructor
  · rintro ⟨hdescends, hk, he⟩
    obtain ⟨hn, hd, hdescends⟩ := descends_cons_iff.1 hdescends
    rw [reverse_cons_append] at he
    exact ⟨hn, hd, hdescends, hk, he⟩
  · rintro ⟨hn, hd, hdescends, hk, he⟩
    refine ⟨descends_cons_iff.2 ⟨hn, hd, hdescends⟩, hk, ?_⟩
    rw [reverse_cons_append]
    exact he

/-! ## What is searched to the end -/

/-- Nothing below a path that leads to the base is beyond a limit: each directory can be opened, and
each Reason file has a canonical path. -/
structure FitsBelow (t : Tree) (p : Path) (base : Location) : Prop where
  opened : ∀ names, Descends t base names → (pathBelow p names).text.utf8ByteSize < pathLimit
  written : ∀ names n bytes, Holds t base names n bytes →
    t.canonical ((pathBelow p names).child n.text) ≠ .error .nameTooLong

/-- Nothing is beyond a limit that is looked up for one name in a directory. -/
def FitsEntry (t : Tree) (p : Path) (loc : Location) (n : Name) : Prop :=
  n.text ≠ modulesName →
    match t.entry? (n :: loc) with
    | some (.file _) => isReasonFile n → t.canonical (p.child n.text) ≠ .error .nameTooLong
    | some .directory => FitsBelow t (p.child n.text) (n :: loc)
    | _ => True

theorem fitsBelow_iff : FitsBelow t p loc ↔
    p.text.utf8ByteSize < pathLimit ∧ ∀ n ∈ t.children loc, FitsEntry t p loc n := by
  constructor
  · rintro ⟨hopened, hwritten⟩
    refine ⟨hopened [] descends_nil, fun n _ hn => ?_⟩
    cases he : t.entry? (n :: loc) with
    | none => trivial
    | some e =>
      cases e with
      | link target => trivial
      | file bytes =>
        intro hreason
        exact hwritten [] n bytes ⟨descends_nil, isReasonFile_iff.1 hreason, he⟩
      | directory =>
        constructor
        · intro names hnames
          exact hopened (n :: names) (descends_cons_iff.2 ⟨hn, he, hnames⟩)
        · intro names k bytes hholds
          exact hwritten (n :: names) k bytes (holds_cons_iff.2 ⟨hn, he, hholds⟩)
  · rintro ⟨hsize, hentries⟩
    have hbelow (n : Name) (hn : n.text ≠ modulesName) (he : t.entry? (n :: loc) = some .directory) :
        FitsBelow t (p.child n.text) (n :: loc) := by
      have hfits := hentries n (Tree.mem_children_iff.2 ⟨_, he⟩) hn
      rwa [he] at hfits
    constructor
    · intro names hnames
      cases names with
      | nil => exact hsize
      | cons n names =>
        obtain ⟨hn, he, hnames⟩ := descends_cons_iff.1 hnames
        exact (hbelow n hn he).opened names hnames
    · intro names k bytes hholds
      cases names with
      | nil =>
        have he := hholds.entry
        have hfits := hentries k (Tree.mem_children_iff.2 ⟨_, he⟩) hholds.reason.ne_modulesName
        rw [List.reverse_nil, List.nil_append] at he
        rw [he] at hfits
        exact hfits (isReasonFile_iff.2 hholds.reason)
      | cons n names =>
        obtain ⟨hn, he, hholds⟩ := holds_cons_iff.1 hholds
        exact (hbelow n hn he).written names k bytes hholds

/-- The locations of the Reason files in a directory and below, at most so deep. -/
def sourcesBelow (t : Tree) : Nat → Location → List Location
  | 0, _ => []
  | depth + 1, loc =>
    (t.children loc).flatMap fun n =>
      if n.text = modulesName then []
      else
        match t.entry? (n :: loc) with
        | some (.file _) => if isReasonFile n then [n :: loc] else []
        | some .directory => sourcesBelow t depth (n :: loc)
        | _ => []

theorem reasonFile_eq_ok_iff (hp : t.Reaches p loc) (hd : t.entry? loc = some .directory)
    (he : t.entry? (n :: loc) = some (.file bytes)) {locs : List Location} :
    reasonFile t p n = .ok locs ↔
      (isReasonFile n → t.canonical (p.child n.text) ≠ .error .nameTooLong) ∧
        locs = if isReasonFile n then [n :: loc] else [] := by
  unfold reasonFile
  by_cases hreason : isReasonFile n = true
  · rw [if_pos hreason, if_pos hreason]
    rcases (hp.child hd he nofun).canonical with hc | hc
    · rw [hc]
      exact ok_eq_ok_iff fun _ => nofun
    · rw [hc]
      exact iff_of_false nofun fun h => h.1 hreason rfl
  · rw [if_neg hreason, if_neg hreason]
    exact ok_eq_ok_iff (absurd · hreason)

/-- The enumeration ends unless something is beyond a limit, and finds the same from each path. -/
theorem reasonFilesBelow_eq_ok_iff (hp : t.Reaches p loc) (hd : t.entry? loc = some .directory)
    (hdepth : ∀ names, t.Down loc names → names.length < depth) {locs : List Location} :
    reasonFilesBelow t depth p = .ok locs ↔
      FitsBelow t p loc ∧ locs = sourcesBelow t depth loc := by
  -- No way down is as long as the depth, so it is never used up. A path that leads to a directory
  -- leads to its entries when their names are added: the path and the location go down together.
  induction depth generalizing p loc locs with
  | zero => exact absurd (hdepth [] trivial) (Nat.not_lt_zero _)
  | succ depth ih =>
    rw [fitsBelow_iff]
    unfold reasonFilesBelow sourcesBelow
    by_cases hsize : p.text.utf8ByteSize < pathLimit
    · rw [Tree.locate_eq_ok_iff_reaches.2 ⟨hsize, hp⟩, and_iff_right hsize]
      refine flatten_mapM_eq_ok_iff fun n _ found => ?_
      unfold FitsEntry
      by_cases hn : n.text = modulesName
      · rw [if_pos hn, if_pos hn]
        exact ok_eq_ok_iff (absurd hn ·)
      rw [if_neg hn, if_neg hn, forall_prop_of_true hn]
      cases he : t.entry? (n :: loc) with
      | none => exact ok_eq_ok_iff trivial
      | some e =>
        cases e with
        | link target => exact ok_eq_ok_iff trivial
        | file bytes => exact reasonFile_eq_ok_iff hp hd he
        | directory =>
          refine ih (hp.child hd he nofun) he fun names hnames => ?_
          exact Nat.lt_of_succ_lt_succ (hdepth (n :: names) ⟨he, hnames⟩)
    · refine iff_of_false (fun hfound => ?_) fun h => hsize h.1.1
      cases hl : t.locate p with
      | error e =>
        rw [hl] at hfound
        cases hfound
      | ok l => exact hsize (Tree.locate_eq_ok_iff_reaches.1 hl).1

theorem mem_sourcesBelow_iff : l ∈ sourcesBelow t depth loc ↔
    ∃ names n bytes, names.length < depth ∧ Holds t loc names n bytes ∧
      l = n :: (names.reverse ++ loc) := by
  induction depth generalizing loc with
  | zero => simp [sourcesBelow]
  | succ depth ih =>
    unfold sourcesBelow
    rw [List.mem_flatMap]
    constructor
    · rintro ⟨n, -, hl⟩
      split at hl
      · cases hl
      next hn =>
      cases he : t.entry? (n :: loc) with
      | none =>
        rw [he] at hl
        cases hl
      | some e =>
        rw [he] at hl
        cases e with
        | link target => cases hl
        | file bytes =>
          dsimp only at hl
          split at hl
          · next hreason =>
            exact ⟨[], n, bytes, Nat.succ_pos _, ⟨descends_nil, isReasonFile_iff.1 hreason, he⟩,
              List.mem_singleton.1 hl⟩
          · cases hl
        | directory =>
          obtain ⟨names, k, bytes, hlen, hholds, rfl⟩ := ih.1 hl
          exact ⟨n :: names, k, bytes, Nat.succ_lt_succ hlen, holds_cons_iff.2 ⟨hn, he, hholds⟩,
            by rw [reverse_cons_append]⟩
    · rintro ⟨names, k, bytes, hlen, hholds, rfl⟩
      cases names with
      | nil =>
        have he := hholds.entry
        refine ⟨k, Tree.mem_children_iff.2 ⟨_, he⟩, ?_⟩
        rw [List.reverse_nil, List.nil_append] at he ⊢
        rw [if_neg hholds.reason.ne_modulesName, he]
        dsimp only
        rw [if_pos (isReasonFile_iff.2 hholds.reason)]
        exact List.mem_singleton_self _
      | cons n names =>
        obtain ⟨hn, he, hholds⟩ := holds_cons_iff.1 hholds
        refine ⟨n, Tree.mem_children_iff.2 ⟨_, he⟩, ?_⟩
        rw [if_neg hn, he]
        exact ih.2 ⟨names, k, bytes, Nat.lt_of_succ_lt_succ hlen, hholds,
          by rw [reverse_cons_append]⟩

/-! ## Ways to the files -/

theorem reaches_below (hp : t.Reaches p loc) (hd : t.entry? loc = some .directory)
    (h : t.Down loc names) : t.Reaches (pathBelow p names) (names.reverse ++ loc) := by
  induction names generalizing p loc with
  | nil => exact hp
  | cons n names ih =>
    rw [reverse_cons_append]
    exact ih (hp.child hd h.1 nofun) h.1 h.2

theorem pathBelow_path (h : loc ≠ []) (names : List Name) :
    pathBelow loc.path names = Location.path (names.reverse ++ loc) := by
  induction names generalizing loc with
  | nil => rfl
  | cons n names ih =>
    rw [reverse_cons_append, ← ih (List.cons_ne_nil n loc), ← Tree.child_path h]
    rfl

end Seeder

end PackageMap
