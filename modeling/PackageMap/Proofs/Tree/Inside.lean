import PackageMap.Path.Relative
import PackageMap.Proofs.Tree.Canonical

/-!
# Inside a root

Canonical paths are as good as locations: two of them are the same only if they are written alike,
and one lies below another by its text if its location does.
-/

namespace PackageMap.Tree

variable {t : Tree} {root p q : Path} {loc loc' : Location}

/-- A canonical path whose location lies in the directory that the root leads to, or below. -/
def Inside (t : Tree) (root p : Path) : Prop :=
  ∃ above loc, t.canonical root = .ok above ∧ t.canonical p = .ok loc ∧ p = loc.path ∧
    above <:+ loc

theorem Inside.canonical (h : t.Inside root p) : ∃ loc, t.canonical p = .ok loc ∧ p = loc.path := by
  obtain ⟨-, loc, -, hloc, hp, -⟩ := h
  exact ⟨loc, hloc, hp⟩

/-! ## Paths and locations -/

theorem moves_stepsOf_path (loc : Location) :
    moves (stepsOf loc.path.text) = loc.reverse.map fun n => .name n.text := by
  by_cases hloc : loc = []
  · subst hloc
    rfl
  · rw [stepsOf_path hloc, moves, List.filter_eq_self]
    intro s hs
    obtain ⟨n, -, rfl⟩ := List.mem_map.1 hs
    rfl

/-- The paths of two locations are not the same. -/
theorem eq_of_same_path (h : loc.path.Same loc'.path) : loc = loc' := by
  have hnames := moves_of_same h
  rw [moves_stepsOf_path, moves_stepsOf_path] at hnames
  refine List.reverse_inj.1 ((List.map_inj_right ?_).1 hnames)
  rintro ⟨s, hs⟩ ⟨s', hs'⟩ heq
  cases heq
  rfl

theorem Inside.eq_of_same (hp : t.Inside root p) (hq : t.Inside root q) (h : p.Same q) : p = q := by
  obtain ⟨l, -, rfl⟩ := hp.canonical
  obtain ⟨l', -, rfl⟩ := hq.canonical
  rw [eq_of_same_path h]

/-- A canonical file can be read under its path. -/
theorem isFile_canonicalOrSelf_of_canonical (h : t.isFile p)
    (hc : t.canonical (t.canonicalOrSelf p) = .ok loc) (hp : t.canonicalOrSelf p = loc.path) :
    t.isFile loc.path = true := by
  obtain ⟨l, bytes, hl, he⟩ := isFile_iff.1 h
  have hloc : loc = l := by
    unfold canonicalOrSelf at hc hp
    cases hcp : t.canonical p with
    | error e =>
      rw [hcp] at hc
      dsimp only at hc
      rw [hcp] at hc
      cases hc
    | ok l' =>
      rw [hcp] at hp
      obtain rfl := canonical_unique hl hcp
      exact eq_of_same_path (hp ▸ .refl _)
  subst hloc
  -- the path is absolute, so that the way to it starts at the root
  rw [hp] at hc
  obtain ⟨hempty, hway⟩ := canonical_eq_ok_iff.1 hc
  rw [startOf_path] at hway
  have hsize := hway.size_lt (stepsOf_ne_nil (text_ne_of_emptyError? hempty))
  have hl := locate_path (hway.stands trivial) ⟨_, he, nofun⟩ hsize
  exact isFile_iff.2 ⟨_, bytes, hl, he⟩

/-! ## Texts -/

/-- The path of a location in a directory goes on from the path of the directory. -/
theorem toList_path_append (rest : Location) {above : Location} (h : above ≠ []) :
    (Location.path (rest ++ above)).text.toList =
      above.path.text.toList ++ rest.reverse.flatMap fun n => '/' :: n.text.toList := by
  induction rest with
  | nil => simp
  | cons n rest ih =>
    rw [List.cons_append, text_path_cons n (by simp [h]), String.toList_append,
      String.toList_append, ih]
    simp

theorem rootText_path {loc : Location} (h : loc ≠ []) :
    Path.rootText loc.path = loc.path.text.toList := by
  have hlast : loc.path.text.toList.reverse.head? ≠ some '/' := by
    rw [List.head?_reverse]
    exact beq_eq_false_iff_ne.1 (endsInSlash_path h)
  unfold Path.rootText
  cases hcs : loc.path.text.toList.reverse with
  | nil => rw [List.reverse_eq_nil_iff.1 hcs]; rfl
  | cons d ds =>
    rw [hcs] at hlast
    rw [List.dropWhile_cons_of_neg (by simpa using hlast), ← hcs, List.reverse_reverse]

theorem below_path_of_suffix (h : loc <:+ loc') : Path.Below loc.path loc'.path := by
  obtain ⟨rest, rfl⟩ := h
  by_cases hloc : loc = []
  · subst hloc
    refine ⟨_, rfl, .inr ?_⟩
    show (Location.path (rest ++ [])).text.toList.head? = some '/'
    rw [toList_path]
    rfl
  · refine ⟨_, (rootText_path hloc).symm ▸ toList_path_append rest hloc, ?_⟩
    cases rest.reverse with
    | nil => exact .inl rfl
    | cons n ns => exact .inr rfl

theorem Inside.below (h : t.Inside root p) : Path.Below (t.canonicalOrSelf root) p := by
  obtain ⟨above, loc, hroot, -, rfl, hsuffix⟩ := h
  unfold canonicalOrSelf
  rw [hroot]
  exact below_path_of_suffix hsuffix

end PackageMap.Tree
