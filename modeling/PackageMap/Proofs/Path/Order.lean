import Mathlib.Data.List.Sort
import Mathlib.Data.String.Basic
import PackageMap.Ordered
import PackageMap.Path.Basic

/-!
# The order of paths

Any two paths can be compared, and only paths that are the same stand before each other. So paths
stand in one order whatever order they come in, up to how each of them is written.
-/

namespace PackageMap

/-! ## Lists in order -/

namespace Ordered

variable {α : Type}

theorem insert_eq_orderedInsert (le : α → α → Bool) (a : α) (bs : List α) :
    insert le a bs = bs.orderedInsert (fun a b => le a b = true) a := by
  induction bs with
  | nil => rfl
  | cons b bs ih => rw [insert, List.orderedInsert_cons, ih]

theorem sort_eq_insertionSort (le : α → α → Bool) (as : List α) :
    sort le as = as.insertionSort fun a b => le a b = true := by
  induction as with
  | nil => rfl
  | cons a as ih =>
    rw [List.insertionSort_cons, ← ih, ← insert_eq_orderedInsert]
    rfl

theorem pairwise_sort {le : α → α → Bool} (htotal : ∀ a b, le a b = true ∨ le b a = true)
    (htrans : ∀ a b c, le a b = true → le b c = true → le a c = true) (as : List α) :
    (sort le as).Pairwise fun a b => le a b = true := by
  have : Std.Total fun a b => le a b = true := ⟨htotal⟩
  have : IsTrans α fun a b => le a b = true := ⟨htrans⟩
  rw [sort_eq_insertionSort]
  exact List.pairwise_insertionSort _ as

end Ordered

namespace Path

/-! ## Components -/

namespace Component

variable {a b c : Component}

theorem le_total (a b : Component) : a.le b = true ∨ b.le a = true := by
  cases a <;> cases b <;> simp [Component.le, rank, String.le_total]

theorem le_antisymm (hab : a.le b = true) (hba : b.le a = true) : a = b := by
  cases a <;> cases b <;> simp_all [Component.le, rank]
  exact String.le_antisymm hab hba

theorem le_trans (hab : a.le b = true) (hbc : b.le c = true) : a.le c = true := by
  cases a <;> cases b <;> cases c <;> simp_all [Component.le, rank]
  exact String.le_trans hab hbc

end Component

/-! ## Lists of components -/

variable {as bs cs : List Component}

theorem componentsLe_total (as bs : List Component) :
    componentsLe as bs = true ∨ componentsLe bs as = true := by
  fun_induction componentsLe as bs with
  | case1 => exact .inl rfl
  | case2 => exact .inr rfl
  | case3 a as bs ih =>
    rw [componentsLe, if_pos rfl]
    exact ih
  | case4 a as b bs hne =>
    rw [componentsLe, if_neg (Ne.symm hne)]
    exact Component.le_total a b

theorem componentsLe_antisymm (h : componentsLe as bs = true) (h' : componentsLe bs as = true) :
    as = bs := by
  fun_induction componentsLe as bs with
  | case1 bs =>
    cases bs with
    | nil => rfl
    | cons b bs => cases h'
  | case2 => cases h
  | case3 a as bs ih =>
    rw [componentsLe, if_pos rfl] at h'
    rw [ih h h']
  | case4 a as b bs hne =>
    rw [componentsLe, if_neg (Ne.symm hne)] at h'
    exact (hne (Component.le_antisymm h h')).elim

theorem componentsLe_trans (h : componentsLe as bs = true) (h' : componentsLe bs cs = true) :
    componentsLe as cs = true := by
  fun_induction componentsLe as bs generalizing cs with
  | case1 => rfl
  | case2 => cases h
  | case3 a as bs ih =>
    cases cs with
    | nil => cases h'
    | cons c cs =>
      unfold componentsLe at h' ⊢
      split at h'
      · next hac => rw [if_pos hac, ih h h']
      · next hac => rw [if_neg hac, h']
  | case4 a as b bs hne =>
    cases cs with
    | nil => cases h'
    | cons c cs =>
      unfold componentsLe at h' ⊢
      split at h'
      · next hbc =>
        subst hbc
        rw [if_neg hne, h]
      · next hbc =>
        have hac : a ≠ c := by
          rintro rfl
          exact hne (Component.le_antisymm h h')
        rw [if_neg hac, Component.le_trans h h']

/-! ## Paths -/

protected theorem le_total (p q : Path) : p.le q = true ∨ q.le p = true :=
  componentsLe_total p.components q.components

protected theorem le_trans (p q r : Path) (h : p.le q = true) (h' : q.le r = true) :
    p.le r = true :=
  componentsLe_trans h h'

theorem pairwise_sort (ps : List Path) :
    (Ordered.sort Path.le ps).Pairwise fun p q => p.le q = true :=
  Ordered.pairwise_sort Path.le_total Path.le_trans ps

/-- The same paths stand in one order, whichever way each of them is written. -/
theorem forall₂_same_sort {ps qs : List Path} (h : ps.Perm qs) :
    List.Forall₂ Same (Ordered.sort Path.le ps) (Ordered.sort Path.le qs) := by
  have hperm : (Ordered.sort Path.le ps).Perm (Ordered.sort Path.le qs) :=
    ((Ordered.sort_perm _ ps).trans h).trans (Ordered.sort_perm _ qs).symm
  have hordered (ps : List Path) : ((Ordered.sort Path.le ps).map components).Pairwise
      fun as bs => componentsLe as bs = true :=
    List.pairwise_map.2 (pairwise_sort ps)
  have hcomponents : (Ordered.sort Path.le ps).map components =
      (Ordered.sort Path.le qs).map components :=
    (hperm.map components).eq_of_pairwise (fun _ _ _ _ => componentsLe_antisymm) (hordered ps)
      (hordered qs)
  have hsame : List.Forall₂ (· = ·) ((Ordered.sort Path.le ps).map components)
      ((Ordered.sort Path.le qs).map components) := by
    rw [hcomponents]
    exact List.forall₂_refl _
  rwa [List.forall₂_map_left_iff, List.forall₂_map_right_iff] at hsame

end Path

end PackageMap
