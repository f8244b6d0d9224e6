import PackageMap.Proofs.Path.Above
import PackageMap.Proofs.Tree.Change

/-!
# Replacing a file

A file is replaced through a temporary one beside it. Where the temporary name is free this ends in
one of two ways: what the path names has become a file of the bytes and nothing else has changed, or
the tree is what it was.
-/

namespace PackageMap

theorem Path.slash_not_mem_fileName {p : Path} {name : String} (h : p.fileName? = some name) :
    '/' ∉ name.toList := by
  unfold fileName? at h
  split at h
  · cases h
  next s above htrimmed =>
  split at h
  · cases h
  cases h
  have hmem : s ∈ (trimmed p.split.2).reverse := by simp [htrimmed]
  rw [String.toList_ofList]
  exact (fitting_trimmed rfl).slash s hmem

namespace Tree

variable {t : Tree} {loc tmp : Location} {before : List Step} {p q : Path} {bytes : ByteArray}
  {s tag : String}

/-! ## The temporary file -/

theorem namedSteps_of_not_mem (hslash : '/' ∉ s.toList) (ht : 't' ∈ s.toList) :
    namedSteps s = [.name s] := by
  have hstep : stepOf? s.toList = some (.name s) := by
    unfold stepOf?
    rw [if_neg, if_neg, if_neg, String.ofList_toList]
    all_goals
      intro h
      rw [h] at ht
      revert ht
      decide
  unfold namedSteps
  rw [Path.segments_of_not_mem hslash, List.filterMap_cons_some hstep, List.filterMap_nil]

theorem endsInSlash_of_not_mem (hslash : '/' ∉ s.toList) : endsInSlash s = false := by
  rw [Bool.eq_false_iff]
  intro h
  exact hslash (List.mem_of_getLast? (beq_iff_eq.1 h))

/-- The last step of a temporary path is a name, whatever path it is beside. -/
theorem exists_steps_temporary (htag : '/' ∉ tag.toList) (p : Path) : ∃ before s,
    namedSteps (temporary p tag).text = before ++ [.name s] ∧
      stepsOf (temporary p tag).text = before ++ [.name s] := by
  have hname : '/' ∉ (p.fileName?.getD "out").toList := by
    cases h : p.fileName? with
    | none => decide
    | some name => exact Path.slash_not_mem_fileName h
  obtain ⟨s, hs⟩ : ∃ s, s = "." ++ p.fileName?.getD "out" ++ ".tmp." ++ tag := ⟨_, rfl⟩
  have hslash : '/' ∉ s.toList := by simp [hs, htag, hname]
  have hnamed := namedSteps_of_not_mem hslash (by simp [hs])
  have hends := endsInSlash_of_not_mem hslash
  have hrelative := Path.isAbsolute_of_not_mem hslash
  unfold temporary
  rw [← hs]
  by_cases hempty : (p.parent?.getD ⟨"."⟩).text = ""
  · refine ⟨[], s, ?_, ?_⟩
    all_goals
      rw [Path.child, if_neg (Bool.eq_false_iff.1 hrelative), if_pos (.inl hempty), hempty,
        String.empty_append]
    · exact hnamed
    · unfold stepsOf
      rw [hnamed, hends]
      rfl
  · refine ⟨namedSteps (p.parent?.getD ⟨"."⟩).text, s, ?_, ?_⟩
    · rw [namedSteps_child hempty hrelative, hnamed]
    · have hlast : ¬ (s = "" ∨ endsInSlash s = true) := by
        rintro (rfl | h)
        · exact absurd hnamed (by decide)
        · rw [hends] at h
          cases h
      rw [stepsOf_child hempty hrelative, stepsAfter, hnamed, if_neg hlast, List.append_nil]

/-- A name in a directory is created there if it is free. -/
theorem creation_of_free (k : Nat) (start : Location)
    (hfree : ∀ dir n, t.followDirectory start before = .ok dir → Name.ofText? s = some n →
      t.entry? (n :: dir) = none) :
    t.creation k start (before ++ [.name s]) =
      match t.followDirectory start before with
      | .error e => .error e
      | .ok dir =>
        match Name.ofText? s with
        | none => .error .nameTooLong
        | some n => .ok (n :: dir) := by
  unfold creation
  rw [splitLast_eq_some_iff.2 rfl]
  dsimp only
  cases hdir : t.followDirectory start before with
  | error e => rfl
  | ok dir =>
    cases hn : Name.ofText? s with
    | none => rfl
    | some n =>
      dsimp only
      rw [hfree dir n hdir hn]

/-- A path that ends in a name is created where it names a place that is free. -/
theorem writeFile_eq (bytes : ByteArray) (hnamed : namedSteps q.text = before ++ [.name s])
    (hsteps : stepsOf q.text = before ++ [.name s])
    (hfree : ∀ loc, t.place q = .ok loc → t.entry? loc = none) :
    t.writeFile q bytes = (t.place q).map fun loc => t.put loc (.file bytes) := by
  unfold writeFile
  cases htext : textError? q with
  | some e =>
    unfold place
    rw [htext]
    rfl
  | none =>
    rw [hsteps, creation_of_free linkLimit (t.startOf q) fun dir n hdir hn => hfree _ <|
      place_eq_ok_iff.2 ⟨htext, before, n, dir, text_of_ofText? hn ▸ hnamed, hdir, rfl⟩]
    unfold place
    rw [htext, hnamed, splitLast_eq_some_iff.2 rfl]
    dsimp only
    cases t.followDirectory (t.startOf q) before with
    | error e => rfl
    | ok dir =>
      dsimp only
      cases Name.ofText? s <;> rfl

/-! ## Moving it into place -/

/-- The way that the directory part of a path goes passes the entry that the path names. -/
def GoesThrough (t : Tree) (p : Path) (loc : Location) : Prop := (t.without loc).place p ≠ .ok loc

theorem ne_nil_of_place (h : t.place p = .ok loc) : loc ≠ [] := by
  obtain ⟨-, _, n, dir, -, -, rfl⟩ := place_eq_ok_iff.1 h
  exact List.cons_ne_nil n dir

/-- Only a link is gone through that is also replaced. -/
theorem exists_link_of_goesThrough (hplace : t.place p = .ok loc)
    (hdir : t.entry? loc ≠ some .directory) (h : t.GoesThrough p loc) :
    ∃ target, t.entry? loc = some (.link target) := by
  by_contra hlink
  refine h (place_of_closed hplace rfl (l := loc) ?_ ?_)
  · intro e he
    cases e with
    | file bytes => exact ⟨bytes, rfl⟩
    | directory => exact (hdir he).elim
    | link target => exact (hlink ⟨target, he⟩).elim
  · intro l hl
    rw [entry?_without (ne_nil_of_place hplace), if_neg hl]

/-- What is put where a path names reads back under it if the way there is still the same. -/
theorem read_put_iff (hplace : t.place p = .ok loc) (hends : endsInSlash p.text = false) :
    (t.put loc (.file bytes)).read p = .ok bytes ↔ ¬ t.GoesThrough p loc := by
  have hne := ne_nil_of_place hplace
  have hself : entry? (t.put loc (.file bytes)) loc = some (.file bytes) := by
    rw [entry?_put hne, if_pos rfl]
  have hsteps : stepsOf p.text = namedSteps p.text := by
    unfold stepsOf
    rw [hends]
    exact List.append_nil _
  unfold GoesThrough
  rw [not_not]
  constructor
  · intro hread
    obtain ⟨htext, before, n, dir, hnamed, -, rfl⟩ := place_eq_ok_iff.1 hplace
    obtain ⟨l, hl⟩ : ∃ l, (t.put (n :: dir) (.file bytes)).locate p = .ok l := by
      unfold read at hread
      split at hread
      · next l hl => exact ⟨l, hl⟩
      · cases hread
    have hway := (locate_eq_ok_iff.1 hl).2
    rw [hsteps, hnamed] at hway
    obtain ⟨j, mid, hbefore, hlast⟩ := hway.exists_of_append
    have hmid : (t.put (n :: dir) (.file bytes)).place p = .ok (n :: mid) :=
      place_eq_ok_iff.2 ⟨htext, before, n, mid, hnamed,
        followDirectory_eq_ok_iff.2 ⟨hbefore, hlast.entry?_of_ne_nil (List.cons_ne_nil _ _)⟩, rfl⟩
    -- what the path names now it names without the new file, and so did before
    have hwithout : (t.without (n :: dir)).place p = .ok (n :: mid) := by
      refine place_of_closed hmid rfl (l := n :: dir) ?_ fun x hx => ?_
      · intro e he
        exact ⟨bytes, Option.some.inj (he.symm.trans hself)⟩
      · rw [entry?_without hne, entry?_put hne, if_neg hx, if_neg hx]
    have hbefore : t.place p = .ok (n :: mid) := by
      refine place_mono hwithout rfl fun x e he => ?_
      rw [entry?_without hne] at he
      split at he
      · cases he
      · exact he
    rw [hwithout, ← hbefore, hplace]
  · intro hwithout
    have hnow : (t.put loc (.file bytes)).place p = .ok loc := by
      refine place_mono hwithout rfl fun x e he => ?_
      rw [entry?_without hne] at he
      rw [entry?_put hne]
      split at he
      · cases he
      · next hx => rw [if_neg hx, he]
    obtain ⟨htext, before, n, dir, hnamed, hdir, rfl⟩ := place_eq_ok_iff.1 hnow
    obtain ⟨hway, hd⟩ := followDirectory_eq_ok_iff.1 hdir
    obtain ⟨j, hj⟩ := hway.exists_follow_append
    have hlocate : (t.put (n :: dir) (.file bytes)).locate p = .ok (n :: dir) := by
      refine locate_eq_ok_iff.2 ⟨htext, leads_of_follow ?_⟩
      rw [hsteps, hnamed, hj, follow_name ⟨rfl, hd⟩ rfl hself nofun, follow_nil]
    unfold read readAt
    rw [hlocate]
    dsimp only
    rw [hself]

/-- What is moved takes the place that the path names, unless that is a directory. -/
theorem rename_cases {e : Entry} (he : t.entry? tmp = some e) :
    (∃ loc, t.place p = .ok loc ∧ endsInSlash p.text = false ∧ t.entry? loc ≠ some .directory ∧
      t.rename tmp p = .ok ((t.erase tmp).put loc e)) ∨
    ∃ err, t.rename tmp p = .error err := by
  unfold rename
  cases hplace : t.place p with
  | error err => exact .inr ⟨err, rfl⟩
  | ok loc =>
    dsimp only
    cases hends : endsInSlash p.text with
    | true => exact .inr ⟨.notDirectory, rfl⟩
    | false =>
      rw [if_neg Bool.false_ne_true, he]
      by_cases hdir : t.entry? loc = some .directory
      · rw [hdir]
        exact .inr ⟨.isDirectory, rfl⟩
      · refine .inl ⟨loc, rfl, rfl, hdir, ?_⟩
        split
        · next hnone => cases hnone
        · next hd => exact (hdir hd).elim
        · next hmoved _ => rw [Option.some.inj hmoved]

/-- A file is replaced where its path names a place that holds no directory, and else the tree is
left as it was. -/
theorem replaceFile_cases (htag : '/' ∉ tag.toList)
    (hfree : ∀ tmp, t.place (temporary p tag) = .ok tmp → t.Vacant tmp) :
    (∃ loc, t.place p = .ok loc ∧ endsInSlash p.text = false ∧ t.entry? loc ≠ some .directory ∧
      t.replaceFile p bytes tag = (t.put loc (.file bytes), .ok ())) ∨
    ∃ e, t.replaceFile p bytes tag = (t, .error e) := by
  obtain ⟨before, s, hnamed, hsteps⟩ := exists_steps_temporary htag p
  have hwrite := writeFile_eq bytes hnamed hsteps fun tmp htmp =>
    Vacant.entry?_eq_none (hfree tmp htmp) (ne_nil_of_place htmp)
  unfold replaceFile
  rw [hwrite]
  cases htmp : t.place (temporary p tag) with
  | error e => exact .inr ⟨e, rfl⟩
  | ok tmp =>
    have hvacant := hfree tmp htmp
    have hne := ne_nil_of_place htmp
    have hself : entry? (t.put tmp (.file bytes)) tmp = some (.file bytes) := by
      rw [entry?_put hne, if_pos rfl]
    have hother (x : Location) (hx : x ≠ tmp) :
        entry? (t.put tmp (.file bytes)) x = t.entry? x := by
      rw [entry?_put hne, if_neg hx]
    have hsub (x : Location) (e : Entry) (he : t.entry? x = some e) :
        entry? (t.put tmp (.file bytes)) x = some e := by
      rw [hother x, he]
      rintro rfl
      rw [hvacant.entry?_eq_none hne] at he
      cases he
    have hwritten := place_mono htmp (u := t.put tmp (.file bytes)) rfl hsub
    simp only [Except.map, hwritten]
    obtain ⟨loc, hplace, hends, hdir, hrename⟩ | ⟨e, hrename⟩ := rename_cases (p := p) hself
    · -- the way to the directory does not go through the temporary file
      have hbefore : t.place p = .ok loc := by
        refine place_of_closed hplace rfl (l := tmp) (fun e he => ?_) fun x hx => (hother x hx).symm
        exact ⟨bytes, Option.some.inj (he.symm.trans hself)⟩
      refine .inl ⟨loc, hbefore, hends, fun hd => hdir (hsub _ _ hd), ?_⟩
      rw [hrename, hvacant.erase_put]
    · refine .inr ⟨e, ?_⟩
      rw [hrename, hvacant.erase_put]

/-- What a path names at the location has become a file of the bytes, and nothing else is changed.
The bytes read back under the path unless the way there has gone through the very entry that the
file replaces, which is a link. -/
structure Replaced (t : Tree) (p : Path) (bytes : ByteArray) (loc : Location) (u : Tree) :
    Prop where
  place : t.place p = .ok loc
  file : u.entry? loc = some (.file bytes)
  other : ∀ l, l ≠ loc → u.entry? l = t.entry? l
  cwd : u.cwd = t.cwd
  read : u.read p = .ok bytes ↔ ¬ t.GoesThrough p loc
  link : t.GoesThrough p loc → ∃ target, t.entry? loc = some (.link target)

/-- A file is replaced, or the tree is left as it was. -/
theorem replaceFile_all_or_nothing (htag : '/' ∉ tag.toList)
    (hfree : ∀ tmp, t.place (temporary p tag) = .ok tmp → t.Vacant tmp) :
    (∃ u loc, t.replaceFile p bytes tag = (u, .ok ()) ∧ t.Replaced p bytes loc u) ∨
      ∃ e, t.replaceFile p bytes tag = (t, .error e) := by
  obtain ⟨loc, hplace, hends, hdir, hreplace⟩ | herror := replaceFile_cases htag hfree
  · have hne := ne_nil_of_place hplace
    refine .inl ⟨_, loc, hreplace, ?_⟩
    exact {
      place := hplace
      file := by rw [entry?_put hne, if_pos rfl]
      other := fun l hl => by rw [entry?_put hne, if_neg hl]
      cwd := rfl
      read := read_put_iff hplace hends
      link := exists_link_of_goesThrough hplace hdir }
  · exact .inr herror

/-- A file in a directory, and beside the directory a link to the one that both are in. -/
def looped : Tree where
  entries :=
    [([⟨"d", .refl true⟩], .directory),
      ([⟨"x", .refl true⟩, ⟨"d", .refl true⟩], .file "old".toUTF8),
      ([⟨"l", .refl true⟩], .link ".")]
  cwd := []

theorem replaceFile_all_or_nothing_file :
    '/' ∉ "7".toList ∧
      (∀ tmp, looped.place (temporary ⟨"/l/d/x"⟩ "7") = .ok tmp → looped.Vacant tmp) ∧
      ∃ u loc, looped.replaceFile ⟨"/l/d/x"⟩ "new".toUTF8 "7" = (u, .ok ()) ∧
        looped.Replaced ⟨"/l/d/x"⟩ "new".toUTF8 loc u := by
  have htag : '/' ∉ "7".toList := by decide
  have hplace : looped.place (temporary ⟨"/l/d/x"⟩ "7") =
      .ok [⟨".x.tmp.7", .refl true⟩, ⟨"d", .refl true⟩] := by decide +kernel
  have hfree (tmp : Location) (htmp : looped.place (temporary ⟨"/l/d/x"⟩ "7") = .ok tmp) :
      looped.Vacant tmp := by
    obtain rfl := Except.ok.inj (hplace.symm.trans htmp)
    unfold Vacant
    decide
  have hok : (looped.replaceFile ⟨"/l/d/x"⟩ "new".toUTF8 "7").2 = .ok () := by decide +kernel
  refine ⟨htag, hfree, ?_⟩
  rcases replaceFile_all_or_nothing htag hfree with hreplaced | ⟨e, he⟩
  · exact hreplaced
  · rw [he] at hok
    cases hok

/-- The file replaces the link that its own path goes through, so it does not read back under it. -/
theorem not_replaceFile_read :
    '/' ∉ "7".toList ∧ looped.place (temporary ⟨"/l/l"⟩ "7") = .ok [⟨".l.tmp.7", .refl true⟩] ∧
      looped.Vacant [⟨".l.tmp.7", .refl true⟩] ∧
      (looped.replaceFile ⟨"/l/l"⟩ "new".toUTF8 "7").2 = .ok () ∧
      (looped.replaceFile ⟨"/l/l"⟩ "new".toUTF8 "7").1.read ⟨"/l/l"⟩ = .error .notDirectory := by
  refine ⟨by decide, by decide +kernel, ?_, by decide +kernel, by decide +kernel⟩
  unfold Vacant
  decide

end Tree

end PackageMap
