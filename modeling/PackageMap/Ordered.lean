/-!
# Ordered lists

Lists that are kept in order while elements are put into them: by any order, and by a text that is
the key of a value and stands once.
-/

namespace PackageMap.Ordered

variable {α : Type}

/-- Insert before the first element that `a` may stand before. -/
def insert (le : α → α → Bool) (a : α) : List α → List α
  | [] => [a]
  | b :: bs => if le a b then a :: b :: bs else b :: insert le a bs

theorem insert_perm (le : α → α → Bool) (a : α) (bs : List α) : (insert le a bs).Perm (a :: bs) := by
  induction bs with
  | nil => exact .refl _
  | cons b bs ih =>
    unfold insert
    split
    · exact .refl _
    · exact (ih.cons b).trans (.swap a b bs)

/-- The list in order. -/
def sort (le : α → α → Bool) (as : List α) : List α := as.foldr (insert le) []

theorem sort_perm (le : α → α → Bool) (as : List α) : (sort le as).Perm as := by
  induction as with
  | nil => exact .refl _
  | cons a as ih => exact (insert_perm le a _).trans (ih.cons a)

/-- Put a value under its key, in the place of another. -/
def put (key : String) (a : α) : List (String × α) → List (String × α)
  | [] => [(key, a)]
  | (k, b) :: rest =>
    if key = k then (key, a) :: rest
    else if key < k then (key, a) :: (k, b) :: rest
    else (k, b) :: put key a rest

private theorem lookup_entry (k l : String) (b : α) (es : List (String × α)) :
    ((l, b) :: es).lookup k = if k = l then some b else es.lookup k := by
  by_cases h : k = l
  · simp [h]
  · simp [h, List.lookup_cons, beq_false_of_ne h]

theorem lookup_put (key k : String) (a : α) (es : List (String × α)) :
    (put key a es).lookup k = if k = key then some a else es.lookup k := by
  induction es with
  | nil => exact lookup_entry k key a []
  | cons e es ih =>
    obtain ⟨l, b⟩ := e
    unfold put
    split
    · next h => subst h; simp only [lookup_entry]; split <;> rfl
    · split
      · simp only [lookup_entry]
      · next h _ =>
        simp only [lookup_entry, ih]
        split
        · next hk => subst hk; rw [if_neg (Ne.symm h)]
        · rfl

theorem mem_keys_put {key k : String} {a : α} {es : List (String × α)} :
    k ∈ (put key a es).map Prod.fst ↔ k = key ∨ k ∈ es.map Prod.fst := by
  induction es with
  | nil => simp [put]
  | cons e es ih =>
    obtain ⟨l, b⟩ := e
    unfold put
    split
    · next h => subst h; simp
    · split
      · simp
      · simp only [List.map_cons, List.mem_cons, ih]
        exact or_left_comm

theorem eq_or_mem_of_mem_put {key : String} {a : α} {es : List (String × α)} {e : String × α}
    (h : e ∈ put key a es) : e = (key, a) ∨ e ∈ es := by
  induction es with
  | nil => exact .inl (List.mem_singleton.1 h)
  | cons d es ih =>
    unfold put at h
    split at h
    · exact (List.mem_cons.1 h).imp_right (List.mem_cons_of_mem d)
    · split at h
      · exact List.mem_cons.1 h
      · rcases List.mem_cons.1 h with rfl | h
        · exact .inr List.mem_cons_self
        · exact (ih h).imp_right (List.mem_cons_of_mem d)

theorem length_put {key : String} {a : α} {es : List (String × α)}
    (h : key ∉ es.map Prod.fst) : (put key a es).length = es.length + 1 := by
  induction es with
  | nil => rfl
  | cons e es ih =>
    obtain ⟨l, b⟩ := e
    rw [List.map_cons, List.mem_cons, not_or] at h
    unfold put
    rw [if_neg h.1]
    split
    · rfl
    · rw [List.length_cons, List.length_cons, ih h.2]

end PackageMap.Ordered
