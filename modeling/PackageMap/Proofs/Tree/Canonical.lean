import PackageMap.Proofs.Tree.Follow

/-!
# Canonical paths

A location that stands has one path that leads to it, its canonical path. Two paths with the same
components lead to one location if they lead anywhere, and making a path canonical does not change
what it leads to.
-/

namespace PackageMap.Tree

variable {t : Tree} {p q : Path} {loc loc' : Location}

/-- The directory that relative paths start from lies in directories, if it is there. -/
def Grounded (t : Tree) : Prop := t.entry? t.cwd = some .directory → t.Stands t.cwd

instance (t : Tree) : Decidable t.Grounded := inferInstanceAs (Decidable (_ → _))

theorem Grounded.stands_startOf (hg : t.Grounded) (hd : t.entry? (t.startOf p) = some .directory) :
    t.Stands (t.startOf p) := by
  unfold startOf at hd ⊢
  split
  · trivial
  · next hrel =>
    rw [if_neg hrel] at hd
    exact hg hd

/-! ## Looking up and writing out -/

theorem locate_eq_ok_iff : t.locate p = .ok loc ↔
    textError? p = none ∧ Leads t .direct linkLimit (t.startOf p) (stepsOf p.text) loc := by
  unfold locate
  cases textError? p with
  | none => simp [follow_eq_ok_iff]
  | some e => simp

theorem canonical_eq_ok_iff : t.canonical p = .ok loc ↔
    emptyError? p = none ∧ Leads t .written linkLimit (t.startOf p) (stepsOf p.text) loc := by
  unfold canonical
  cases emptyError? p with
  | none => simp [follow_eq_ok_iff]
  | some e => simp

theorem text_ne_of_emptyError? (h : emptyError? p = none) : p.text ≠ "" := by
  unfold emptyError? at h
  split at h
  · cases h
  split at h
  · cases h
  · next hne => exact hne

/-- A path that is written out starts in a directory. -/
theorem entry?_startOf (h : t.canonical p = .ok loc) : t.entry? (t.startOf p) = some .directory := by
  obtain ⟨hempty, hway⟩ := canonical_eq_ok_iff.1 h
  exact hway.entry?_of_ne_nil (stepsOf_ne_nil (text_ne_of_emptyError? hempty))

/-- What a path is written out to is what it leads to. -/
theorem canonical_unique (hl : t.locate p = .ok loc) (hc : t.canonical p = .ok loc') :
    loc = loc' :=
  (locate_eq_ok_iff.1 hl).2.unique (canonical_eq_ok_iff.1 hc).2.direct

theorem emptyError?_of_textError? (h : textError? p = none) : emptyError? p = none := by
  unfold textError? at h
  split at h
  · cases h
  · assumption

/-- What a path leads to can be written out, unless the way goes through a location that is too
long. -/
theorem canonical_of_locate (h : t.locate p = .ok loc) :
    t.canonical p = .ok loc ∨ t.canonical p = .error .nameTooLong := by
  obtain ⟨htext, hway⟩ := locate_eq_ok_iff.1 h
  unfold canonical
  rw [emptyError?_of_textError? htext]
  exact hway.written

/-- Paths with the same components lead to one location. -/
theorem locate_unique (h : p.Same q) (hp : t.locate p = .ok loc) (hq : t.locate q = .ok loc') :
    loc = loc' := by
  have hp := (locate_eq_ok_iff.1 hp).2.thin (thins_moves _)
  have hq := (locate_eq_ok_iff.1 hq).2.thin (thins_moves _)
  rw [t.startOf_of_same h, moves_of_same h] at hp
  exact hp.unique hq

theorem file?_eq_some_iff : t.file? p = some loc ↔
    t.locate p = .ok loc ∧ ∃ bytes, t.entry? loc = some (.file bytes) := by
  unfold file?
  cases t.locate p with
  | error e => simp
  | ok l =>
    constructor
    · intro h
      dsimp only at h
      split at h
      · next bytes he =>
        cases h
        exact ⟨rfl, bytes, he⟩
      · cases h
    · rintro ⟨h, bytes, he⟩
      cases h
      dsimp only
      rw [he]

theorem directory?_eq_some_iff : t.directory? p = some loc ↔
    t.locate p = .ok loc ∧ t.entry? loc = some .directory := by
  unfold directory?
  cases t.locate p with
  | error e => simp
  | ok l =>
    constructor
    · intro h
      dsimp only at h
      split at h
      · next he =>
        cases h
        exact ⟨rfl, he⟩
      · cases h
    · rintro ⟨h, he⟩
      cases h
      dsimp only
      rw [he]

theorem isFile_iff : t.isFile p = true ↔
    ∃ loc bytes, t.locate p = .ok loc ∧ t.entry? loc = some (.file bytes) := by
  unfold isFile
  rw [Option.isSome_iff_exists]
  simp only [file?_eq_some_iff]
  constructor
  · rintro ⟨loc, hl, bytes, he⟩
    exact ⟨loc, bytes, hl, he⟩
  · rintro ⟨loc, bytes, hl, he⟩
    exact ⟨loc, hl, bytes, he⟩

theorem read_eq_ok_iff {bytes : ByteArray} : t.read p = .ok bytes ↔
    ∃ loc, t.locate p = .ok loc ∧ t.entry? loc = some (.file bytes) := by
  unfold read readAt
  cases t.locate p with
  | error e => simp
  | ok l =>
    constructor
    · intro h
      dsimp only at h
      split at h
      · next he =>
        cases h
        exact ⟨l, rfl, he⟩
      all_goals cases h
    · rintro ⟨loc, h, he⟩
      cases h
      dsimp only
      rw [he]

theorem isFile_of_read {bytes : ByteArray} (h : t.read p = .ok bytes) : t.isFile p = true := by
  obtain ⟨loc, hl, he⟩ := read_eq_ok_iff.1 h
  exact isFile_iff.2 ⟨loc, bytes, hl, he⟩

/-- A regular file is made canonical by its location, unless the way there cannot be written out. -/
theorem canonicalOrSelf_of_isFile (h : t.isFile p = true) :
    ∃ loc, t.file? p = some loc ∧
      (t.canonical p = .ok loc ∧ t.canonicalOrSelf p = loc.path ∨
        t.canonical p = .error .nameTooLong ∧ t.canonicalOrSelf p = p) := by
  obtain ⟨loc, bytes, hl, he⟩ := isFile_iff.1 h
  refine ⟨loc, file?_eq_some_iff.2 ⟨hl, bytes, he⟩, ?_⟩
  unfold canonicalOrSelf
  rcases canonical_of_locate hl with hc | hc
  · exact .inl ⟨hc, by rw [hc]⟩
  · exact .inr ⟨hc, by rw [hc]⟩

/-- Files with the same components are read alike. -/
theorem read_of_same (h : p.Same q) (hp : t.isFile p) (hq : t.isFile q) : t.read p = t.read q := by
  obtain ⟨loc, bytes, hp, he⟩ := isFile_iff.1 hp
  obtain ⟨loc', bytes', hq, he'⟩ := isFile_iff.1 hq
  have hloc := locate_unique h hp hq
  subst hloc
  unfold read
  rw [hp, hq]

/-! ## Canonical paths -/

/-- The path of a location is canonical. -/
theorem canonical_path (hs : t.Stands loc) (hl : t.Lands loc)
    (hsize : loc.path.text.utf8ByteSize < pathLimit) : t.canonical loc.path = .ok loc := by
  obtain ⟨e, he, hlink⟩ := hl
  refine canonical_eq_ok_iff.2 ⟨emptyError?_path loc, ?_⟩
  rw [startOf_path]
  by_cases hloc : loc = []
  · subst hloc
    exact .here ⟨by decide, rfl⟩ .done
  · rw [stepsOf_path hloc, ← List.append_nil (List.map _ _)]
    exact leads_location_of_admits hs (fun _ _ h => admits_of_suffix h hsize) he hlink .done

/-- The path of a location leads to it. -/
theorem locate_path (hs : t.Stands loc) (hl : t.Lands loc)
    (hsize : loc.path.text.utf8ByteSize < pathLimit) : t.locate loc.path = .ok loc := by
  have htext : textError? loc.path = none := by
    unfold textError?
    rw [emptyError?_path]
    exact if_neg (Nat.not_le_of_lt hsize)
  exact locate_eq_ok_iff.2 ⟨htext, (canonical_eq_ok_iff.1 (canonical_path hs hl hsize)).2.direct⟩

/-- Where a path leads that is written out: below directories, and to no link. -/
theorem stands_canonical (hg : t.Grounded) (h : t.canonical p = .ok loc) :
    t.Stands loc ∧ t.Lands loc := by
  have hway := (canonical_eq_ok_iff.1 h).2
  have hd := entry?_startOf h
  have hs := hg.stands_startOf hd
  exact ⟨hway.stands hs, hway.lands hs (lands_of_directory hd)⟩

theorem size_lt_of_canonical (h : t.canonical p = .ok loc) :
    loc.path.text.utf8ByteSize < pathLimit := by
  obtain ⟨hempty, hway⟩ := canonical_eq_ok_iff.1 h
  exact hway.size_lt (stepsOf_ne_nil (text_ne_of_emptyError? hempty))

/-- What a path is written out to is canonical. -/
theorem canonical_canonical (hg : t.Grounded) (h : t.canonical p = .ok loc) :
    t.canonical loc.path = .ok loc :=
  have ⟨hs, hl⟩ := stands_canonical hg h
  canonical_path hs hl (size_lt_of_canonical h)

/-- A canonical path leads to the location that it is the path of. -/
theorem locate_canonical (hg : t.Grounded) (h : t.canonical p = .ok loc) :
    t.locate loc.path = .ok loc :=
  have ⟨hs, hl⟩ := stands_canonical hg h
  locate_path hs hl (size_lt_of_canonical h)

/-- A file's canonical path leads to the file, and so does the path itself if there is none. -/
theorem locate_canonicalOrSelf (hg : t.Grounded) (h : t.isFile p) :
    t.locate (t.canonicalOrSelf p) = t.locate p := by
  unfold canonicalOrSelf
  cases hc : t.canonical p with
  | error e => rfl
  | ok loc =>
    obtain ⟨loc', bytes, hl, he⟩ := isFile_iff.1 h
    obtain rfl := canonical_unique hl hc
    rw [hl]
    exact locate_canonical hg hc

theorem isFile_canonicalOrSelf (hg : t.Grounded) (h : t.isFile p) :
    t.isFile (t.canonicalOrSelf p) = true := by
  rw [isFile_iff, locate_canonicalOrSelf hg h]
  exact isFile_iff.1 h

/-- A file's canonical path is that of the location that it is written out to, if there is one. -/
theorem canonicalOrSelf_eq_path (hg : t.Grounded) (h : t.isFile p)
    (hc : t.canonical (t.canonicalOrSelf p) = .ok loc) : t.canonicalOrSelf p = loc.path := by
  obtain ⟨l, -, hl, -⟩ := isFile_iff.1 (isFile_canonicalOrSelf hg h)
  have hloc := canonical_unique hl hc
  rw [locate_canonicalOrSelf hg h] at hl
  unfold canonicalOrSelf at hc ⊢
  cases hp : t.canonical p with
  | error e =>
    rw [hp] at hc
    dsimp only at hc
    rw [hp] at hc
    cases hc
  | ok l' => rw [← hloc, ← canonical_unique hl hp]

end PackageMap.Tree
