import PackageMap.Path.Basic
import PackageMap.Text.Counting

/-!
# Tables keyed by paths

Paths that are the same have one entry, in whichever way they are written. Each entry keeps the
path it was first put under. Only so many paths of a bounded length fit into a table.
-/

namespace PackageMap

/-- An entry is the components of a path, the path as it was first put, and its value. -/
abbrev PathEntry (α : Type) := List Path.Component × Path × α

structure PathTable (α : Type) where
  entries : List (PathEntry α)
  keyed : ∀ e ∈ entries, e.1 = e.2.1.components
  nodup : (entries.map Prod.fst).Nodup

namespace PathTable

variable {α : Type}

def empty : PathTable α := ⟨[], nofun, List.nodup_nil⟩

instance : Inhabited (PathTable α) := ⟨empty⟩

def size (t : PathTable α) : Nat := t.entries.length

def get? (t : PathTable α) (p : Path) : Option α := (t.entries.lookup p.components).map Prod.snd

def contains (t : PathTable α) (p : Path) : Bool := (t.get? p).isSome

/-- Replace the value under a key, or add an entry at the end. -/
def putAt (key : List Path.Component) (p : Path) (a : α) : List (PathEntry α) → List (PathEntry α)
  | [] => [(key, p, a)]
  | (k, q, b) :: rest => if k = key then (k, q, a) :: rest else (k, q, b) :: putAt key p a rest

theorem putAt_keyed {p : Path} (a : α) {es : List (PathEntry α)}
    (h : ∀ e ∈ es, e.1 = e.2.1.components) :
    ∀ e ∈ putAt p.components p a es, e.1 = e.2.1.components := by
  induction es with
  | nil => intro e he; rw [List.mem_singleton.1 he]
  | cons d es ih =>
    obtain ⟨k, q, b⟩ := d
    have hd : k = q.components := h _ List.mem_cons_self
    have hes := fun e he => h e (List.mem_cons_of_mem _ he)
    unfold putAt
    intro e he
    split at he <;> rcases List.mem_cons.1 he with rfl | he
    · exact hd
    · exact hes e he
    · exact hd
    · exact ih hes e he

theorem mem_keys_putAt {key k : List Path.Component} {p : Path} {a : α} {es : List (PathEntry α)}
    (h : k ∈ (putAt key p a es).map Prod.fst) : k = key ∨ k ∈ es.map Prod.fst := by
  induction es with
  | nil => exact .inl (List.mem_singleton.1 h)
  | cons d es ih =>
    obtain ⟨l, q, b⟩ := d
    unfold putAt at h
    split at h
    · exact .inr h
    · rcases List.mem_cons.1 h with rfl | h
      · exact .inr List.mem_cons_self
      · exact (ih h).imp_right (List.mem_cons_of_mem _)

theorem putAt_nodup (key : List Path.Component) (p : Path) (a : α) {es : List (PathEntry α)}
    (h : (es.map Prod.fst).Nodup) : ((putAt key p a es).map Prod.fst).Nodup := by
  induction es with
  | nil => exact List.nodup_cons.2 ⟨List.not_mem_nil, List.nodup_nil⟩
  | cons d es ih =>
    obtain ⟨k, q, b⟩ := d
    have ⟨hk, hes⟩ := List.nodup_cons.1 h
    unfold putAt
    split
    · exact h
    · next hne =>
      refine List.nodup_cons.2 ⟨fun hm => ?_, ih hes⟩
      exact (mem_keys_putAt hm).elim hne hk

def put (t : PathTable α) (p : Path) (a : α) : PathTable α where
  entries := putAt p.components p a t.entries
  keyed := putAt_keyed a t.keyed
  nodup := putAt_nodup p.components p a t.nodup

theorem lookup_cons_key (k l : List Path.Component) (e : Path × α)
    (es : List (PathEntry α)) :
    ((l, e) :: es).lookup k = if k = l then some e else es.lookup k := by
  by_cases h : k = l
  · simp [h]
  · simp [h, List.lookup_cons, beq_false_of_ne h]

theorem lookup_putAt (key k : List Path.Component) (p : Path) (a : α)
    (es : List (PathEntry α)) :
    ((putAt key p a es).lookup k).map Prod.snd =
      if key = k then some a else (es.lookup k).map Prod.snd := by
  induction es with
  | nil =>
    rw [putAt, lookup_cons_key]
    by_cases h : k = key
    · rw [if_pos h, if_pos h.symm]; rfl
    · rw [if_neg h, if_neg (Ne.symm h)]
  | cons e es ih =>
    obtain ⟨l, q, b⟩ := e
    unfold putAt
    split
    · next hl =>
      subst hl
      simp only [lookup_cons_key]
      by_cases h : k = l
      · rw [if_pos h, if_pos h.symm]; rfl
      · rw [if_neg h, if_neg (Ne.symm h), if_neg h]
    · next hl =>
      simp only [lookup_cons_key]
      by_cases h : k = l
      · subst h; rw [if_pos rfl, if_pos rfl, if_neg (Ne.symm hl)]
      · rw [if_neg h, if_neg h, ih]

@[simp] theorem get?_put (t : PathTable α) (p q : Path) (a : α) :
    (t.put p a).get? q = if p.Same q then some a else t.get? q :=
  lookup_putAt p.components q.components p a t.entries

theorem get?_of_same (t : PathTable α) {p q : Path} (h : p.Same q) : t.get? p = t.get? q := by
  unfold get?; rw [show p.components = q.components from h]

/-- The paths with their values, in the order in which the paths were first put. -/
def toList (t : PathTable α) : List (Path × α) := t.entries.map Prod.snd

def keys (t : PathTable α) : List Path := t.toList.map Prod.fst

def ofList (es : List (Path × α)) : PathTable α := es.foldl (fun t e => t.put e.1 e.2) empty

/-! ## Counting paths -/

/-- The codes of the paths with fewer than `n` bytes. -/
def codesBelow (t : PathTable α) (n : Nat) : List Nat :=
  (t.keys.filter fun p => decide (p.text.utf8ByteSize < n)).map fun p => Text.code p.text

/-- The number of paths with fewer than `n` bytes. -/
def countBelow (t : PathTable α) (n : Nat) : Nat := (t.codesBelow n).length

theorem keys_map_components (t : PathTable α) :
    t.keys.map Path.components = t.entries.map Prod.fst := by
  simp only [keys, toList, List.map_map]
  exact List.map_congr_left fun e he => (t.keyed e he).symm

/-- No two keys of a table are the same path. -/
theorem keys_pairwise (t : PathTable α) : t.keys.Pairwise fun p q => ¬ p.Same q := by
  have hkeys : (t.keys.map Path.components).Nodup := by rw [keys_map_components]; exact t.nodup
  exact List.pairwise_map.1 hkeys

theorem codesBelow_nodup (t : PathTable α) (n : Nat) : (t.codesBelow n).Nodup := by
  refine List.pairwise_map.2 (List.Pairwise.filter _ (t.keys_pairwise.imp ?_))
  intro p q hne heq
  exact hne (congrArg (fun s => Path.components ⟨s⟩) (Text.code_inj heq))

theorem not_mem_keys_of_contains {t : PathTable α} {p : Path} (h : t.contains p = false) :
    p.components ∉ t.entries.map Prod.fst := by
  intro hm
  obtain ⟨e, he, hk⟩ := List.mem_map.1 hm
  unfold contains get? at h
  rw [Option.isSome_map, ← Bool.not_eq_true, List.lookup_isSome_iff] at h
  exact h ⟨e, he, beq_iff_eq.2 hk.symm⟩

theorem putAt_of_not_mem {key : List Path.Component} {p : Path} {a : α} {es : List (PathEntry α)}
    (h : key ∉ es.map Prod.fst) : putAt key p a es = es ++ [(key, p, a)] := by
  induction es with
  | nil => rfl
  | cons d es ih =>
    have hd : d.1 ≠ key := fun hd => h (hd ▸ List.mem_cons_self)
    unfold putAt
    rw [if_neg hd, ih fun hm => h (List.mem_cons_of_mem _ hm), List.cons_append]

theorem toList_put {t : PathTable α} {p : Path} (a : α) (h : t.contains p = false) :
    (t.put p a).toList = t.toList ++ [(p, a)] := by
  unfold toList put
  simp only [putAt_of_not_mem (not_mem_keys_of_contains h), List.map_append, List.map_cons,
    List.map_nil]

theorem mem_putAt {key : List Path.Component} {p : Path} {a : α} {e : Path × α}
    {es : List (PathEntry α)} (h : ∀ d ∈ es, d.1 = key → d.2 = (p, a)) :
    e ∈ (putAt key p a es).map Prod.snd ↔ e = (p, a) ∨ e ∈ es.map Prod.snd := by
  induction es with
  | nil => simp [putAt]
  | cons d es ih =>
    obtain ⟨k, q, b⟩ := d
    obtain ⟨hd, hes⟩ := List.forall_mem_cons.1 h
    unfold putAt
    split
    · next hk =>
      obtain ⟨rfl, rfl⟩ := Prod.mk.inj (hd hk)
      simp
    · rw [List.map_cons, List.mem_cons, ih hes, List.map_cons, List.mem_cons, or_left_comm]

/-- If an entry under the same path is the one to be put then nothing else changes. -/
theorem mem_toList_put {t : PathTable α} {p : Path} {a : α} {e : Path × α}
    (h : ∀ d ∈ t.toList, d.1.Same p → d = (p, a)) :
    e ∈ (t.put p a).toList ↔ e = (p, a) ∨ e ∈ t.toList := by
  refine mem_putAt fun d hd hkey => h d.2 (List.mem_map_of_mem hd) ?_
  exact (t.keyed d hd).symm.trans hkey

theorem keys_put {t : PathTable α} {p : Path} (a : α) (h : t.contains p = false) :
    (t.put p a).keys = t.keys ++ [p] := by
  unfold keys
  rw [toList_put a h, List.map_append, List.map_cons, List.map_nil]

theorem contains_iff (t : PathTable α) (p : Path) :
    t.contains p = true ↔ ∃ q ∈ t.keys, q.Same p := by
  have hmem : (∃ q ∈ t.keys, q.Same p) ↔ p.components ∈ t.entries.map Prod.fst := by
    rw [← keys_map_components, List.mem_map]; rfl
  rw [hmem]
  unfold contains get?
  rw [Option.isSome_map, List.lookup_isSome_iff, List.mem_map]
  exact exists_congr fun e => and_congr_right fun _ => beq_iff_eq.trans eq_comm

theorem countBelow_put {t : PathTable α} {p : Path} {n : Nat} (a : α)
    (h : t.contains p = false) (hp : p.text.utf8ByteSize < n) :
    (t.put p a).countBelow n = t.countBelow n + 1 := by
  unfold countBelow codesBelow
  simp [keys_put a h, hp]

/-- As long as a path with fewer than `n` bytes is missing, there are fewer of them than texts. -/
theorem countBelow_lt {t : PathTable α} {p : Path} {n : Nat} (a : α)
    (h : t.contains p = false) (hp : p.text.utf8ByteSize < n) :
    t.countBelow n < Text.textBound n := by
  have hsub : (t.put p a).codesBelow n ⊆ List.range (Text.textBound n) := by
    intro c hc
    obtain ⟨q, hq, rfl⟩ := List.mem_map.1 hc
    exact List.mem_range.2 (Text.code_lt (of_decide_eq_true (List.mem_filter.1 hq).2))
  have hle := List.Nodup.length_le_of_subset (codesBelow_nodup (t.put p a) n) hsub
  rw [List.length_range] at hle
  have := countBelow_put a h hp
  unfold countBelow at *
  omega

end PathTable

end PackageMap
