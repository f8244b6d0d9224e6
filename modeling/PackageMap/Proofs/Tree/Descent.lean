import PackageMap.Proofs.Tree.Unlinked

/-!
# Ways downwards

The way to what is seen from a path goes on from the directory that the path leads to. In a tree
without links a way that never goes up ends below the directory that it starts from, and so does one
that goes up at its end alone if it ends at a file (`Unlinked.suffix_of_file`).
-/

namespace PackageMap

namespace Path

variable {cs ds : List Char} {init : List Segment} {last : Segment}

/-- The segments of a text before its last one, and the last one. -/
theorem exists_segments_eq (cs : List Char) : ∃ init last, segments cs = init ++ [last] :=
  ⟨_, _, (List.dropLast_concat_getLast (segments_ne_nil cs)).symm⟩

/-- The text of the segments before the last one stands before a slash, if there are any. -/
theorem eq_of_segments_eq (h : segments cs = init ++ [last]) :
    init = [] ∧ cs = last ∨ init ≠ [] ∧ cs = join init ++ '/' :: last := by
  have hjoin := join_segments cs
  rw [h] at hjoin
  by_cases hinit : init = []
  · subst hinit
    rw [List.nil_append, join, List.intercalate_singleton] at hjoin
    exact .inl ⟨rfl, hjoin.symm⟩
  · rw [join_concat last hinit] at hjoin
    exact .inr ⟨hinit, hjoin.symm⟩

/-- A text without slashes goes on the last segment of the text before it. -/
theorem segments_append_of_not_mem (h : segments cs = init ++ [last]) (hds : '/' ∉ ds) :
    segments (cs ++ ds) = init ++ [last ++ ds] := by
  have hslash (s : Segment) (hs : s ∈ init ++ [last]) : '/' ∉ s := not_mem_of_mem_segments (h ▸ hs)
  have hlast : '/' ∉ last ++ ds := by
    rw [List.mem_append, not_or]
    exact ⟨hslash last (List.mem_append_right _ (List.mem_singleton_self _)), hds⟩
  obtain ⟨rfl, rfl⟩ | ⟨hinit, rfl⟩ := eq_of_segments_eq h
  · exact segments_of_not_mem hlast
  · have hjoin : segments (join init) = init :=
      segments_join (fun s hs => hslash s (List.mem_append_left _ hs)) hinit
    rw [List.append_assoc, List.cons_append, segments_append, hjoin, segments_of_not_mem hlast]

/-- A text that is not empty and does not begin with a slash begins with a segment of its own. -/
theorem exists_segments_eq_cons (h : cs ≠ []) (hslash : cs.head? ≠ some '/') :
    ∃ s ss, segments cs = s :: ss ∧ s ≠ [] := by
  obtain ⟨s, ss, hs⟩ := List.exists_cons_of_ne_nil (segments_ne_nil cs)
  refine ⟨s, ss, hs, ?_⟩
  rintro rfl
  cases ss with
  | nil =>
    rw [← join_segments cs, hs] at h
    exact h rfl
  | cons r ss => exact hslash ((head?_eq_slash_iff cs).2 ⟨r, ss, hs⟩)

end Path

namespace Tree

variable {t : Tree} {how : Manner} {k : Nat} {loc l dir : Location} {steps : List Step} {p : Path}
  {s : String}

/-! ## Steps seen from a path -/

/-- The last segment of a text that is seen from a path is one step: also an empty one asks for a
directory. -/
theorem stepsAfter_eq {init : List Path.Segment} {last : Path.Segment}
    (h : Path.segments s.toList = init ++ [last]) :
    stepsAfter s = init.filterMap stepOf? ++ [(stepOf? last).getD .here] := by
  have hempty : (s = "" ∨ endsInSlash s = true) ↔ last = [] := by
    constructor
    · rintro (rfl | hs)
      · exact (List.append_singleton_inj.1 (h.symm.trans (List.nil_append [[]]).symm)).2
      · have hlast := Path.getLast?_segments (beq_iff_eq.1 hs)
        rw [h, List.getLast?_concat] at hlast
        exact Option.some.inj hlast
    · rintro rfl
      obtain ⟨-, hs⟩ | ⟨-, hs⟩ := Path.eq_of_segments_eq h
      · exact .inl (String.toList_eq_nil_iff.1 hs)
      · refine .inr (beq_iff_eq.2 ?_)
        rw [hs, List.getLast?_concat]
  unfold stepsAfter namedSteps
  rw [h, List.filterMap_append, List.append_assoc]
  by_cases hlast : last = []
  · rw [if_pos (hempty.2 hlast), hlast]
    rfl
  · obtain ⟨step, hstep⟩ := Option.ne_none_iff_exists'.1 (mt eq_nil_of_stepOf? hlast)
    rw [if_neg (mt hempty.1 hlast), List.filterMap_cons_some hstep, hstep]
    rfl

theorem stepsAfter_ne_nil (s : String) : stepsAfter s ≠ [] := by
  obtain ⟨init, last, h⟩ := Path.exists_segments_eq s.toList
  rw [stepsAfter_eq h]
  simp

theorem stepOf?_ne_up {seg : Path.Segment} (h : seg ≠ ['.', '.']) : stepOf? seg ≠ some .up := by
  unfold stepOf?
  split
  · nofun
  split
  · nofun
  · nofun

theorem up_not_mem_filterMap {ss : List Path.Segment} (h : ∀ seg ∈ ss, seg ≠ ['.', '.']) :
    Step.up ∉ ss.filterMap stepOf? := by
  intro hmem
  obtain ⟨seg, hseg, hup⟩ := List.mem_filterMap.1 hmem
  exact stepOf?_ne_up (h seg hseg) hup

/-- Only the last of the steps goes up if only the last of the segments may be `..`. -/
theorem up_not_mem_dropLast {init : List Path.Segment} {last : Path.Segment}
    (h : Path.segments s.toList = init ++ [last]) (hinit : ∀ seg ∈ init, seg ≠ ['.', '.']) :
    Step.up ∉ (stepsAfter s).dropLast := by
  rw [stepsAfter_eq h, List.dropLast_concat]
  exact up_not_mem_filterMap hinit

theorem up_not_mem_stepsAfter (h : ∀ seg ∈ Path.segments s.toList, seg ≠ ['.', '.']) :
    Step.up ∉ stepsAfter s := by
  obtain ⟨init, last, hs⟩ := Path.exists_segments_eq s.toList
  rw [hs] at h
  have hinit := up_not_mem_filterMap fun seg hseg => h seg (List.mem_append_left _ hseg)
  have hlast := stepOf?_ne_up (h last (List.mem_append_right _ (List.mem_singleton_self _)))
  rw [stepsAfter_eq hs, List.mem_append, List.mem_singleton]
  rintro (hup | hup)
  · exact hinit hup
  · cases hstep : stepOf? last with
    | none =>
      rw [hstep] at hup
      cases hup
    | some step =>
      rw [hstep] at hlast hup
      exact hlast (congrArg some hup.symm)

theorem exists_stepsAfter_eq_cons {seg : Path.Segment} {ss : List Path.Segment}
    (h : Path.segments s.toList = seg :: ss) (hempty : seg ≠ []) (hdot : seg ≠ ['.'])
    (hup : seg ≠ ['.', '.']) : ∃ rest, stepsAfter s = .name (String.ofList seg) :: rest := by
  have hstep : stepOf? seg = some (.name (String.ofList seg)) := by
    unfold stepOf?
    rw [if_neg hempty, if_neg hdot, if_neg hup]
  unfold stepsAfter namedSteps
  rw [h, List.filterMap_cons_some hstep, List.cons_append]
  exact ⟨_, rfl⟩

/-- The way to what is seen from a path goes on from the directory that the path leads to. -/
theorem exists_leads_of_child (hp : p.text ≠ "") (hs : (Path.mk s).isAbsolute = false)
    (h : t.locate (p.child s) = .ok l) :
    ∃ j dir, t.directory? p = some dir ∧ Leads t .direct j dir (stepsAfter s) l := by
  obtain ⟨htext, hway⟩ := locate_eq_ok_iff.1 h
  rw [startOf_child hp hs, stepsOf_child hp hs] at hway
  obtain ⟨j, dir, hdir, hrest⟩ := hway.exists_of_append
  have hd := hrest.entry?_of_ne_nil (stepsAfter_ne_nil s)
  have hl : t.locate p = .ok dir :=
    locate_eq_ok_iff.2 ⟨textError?_of_child hp hs htext, hdir.stepsOf ⟨rfl, hd⟩⟩
  exact ⟨j, dir, directory?_eq_some_iff.2 ⟨hl, hd⟩, hrest⟩

theorem isDirectory_of_child (hp : p.text ≠ "") (hs : (Path.mk s).isAbsolute = false)
    (h : t.isDirectory (p.child s) = true) : t.isDirectory p = true := by
  obtain ⟨l, hl⟩ := Option.isSome_iff_exists.1 h
  obtain ⟨j, dir, hdir, -⟩ := exists_leads_of_child hp hs (directory?_eq_some_iff.1 hl).1
  exact Option.isSome_iff_exists.2 ⟨dir, hdir⟩

/-! ## Ways that do not go up -/

/-- A way that does not go up ends below its start, and directly below a directory if its start lies
so. -/
theorem Unlinked.suffix_of_leads (h : t.Unlinked) (hway : Leads t how k loc steps l)
    (hup : Step.up ∉ steps) : loc <:+ l ∧
      (t.entry? loc.tail = some .directory → t.entry? l.tail = some .directory) := by
  induction hway with
  | done => exact ⟨List.suffix_rfl, id⟩
  | here _ _ ih => exact ih fun hmem => hup (List.mem_cons_of_mem _ hmem)
  | up => exact (hup List.mem_cons_self).elim
  | name hd _ _ _ _ ih =>
    obtain ⟨hsuffix, htail⟩ := ih fun hmem => hup (List.mem_cons_of_mem _ hmem)
    exact ⟨(List.suffix_cons _ _).trans hsuffix, fun _ => htail hd.2⟩
  | link _ _ he _ _ => exact (h.entry?_ne_link _ _ he).elim

/-- A way that begins with a name and does not go up ends directly below a directory. -/
theorem Unlinked.entry?_tail_of_name (h : t.Unlinked) {text : String}
    (hway : Leads t how k loc (.name text :: steps) l) (hup : Step.up ∉ steps) :
    t.entry? l.tail = some .directory := by
  generalize hall : Step.name text :: steps = all at hway
  cases hway with
  | done => cases hall
  | here => cases hall
  | up => cases hall
  | name hd _ _ _ hrest =>
    obtain ⟨-, rfl⟩ := List.cons.inj hall
    exact (h.suffix_of_leads hrest hup).2 hd.2
  | link _ _ he _ => exact (h.entry?_ne_link _ _ he).elim

/-- A way to a file ends below its start also if its last step goes up, for that leads to a
directory. -/
theorem Unlinked.suffix_of_file {bytes : ByteArray} (h : t.Unlinked)
    (hway : Leads t how k loc steps l) (hup : Step.up ∉ steps.dropLast)
    (hloc : t.entry? loc.tail = some .directory) (hl : t.entry? l = some (.file bytes)) :
    loc <:+ l := by
  by_cases hmem : Step.up ∈ steps
  · obtain ⟨before, s, rfl⟩ : ∃ before s, steps = before ++ [s] :=
      ⟨_, _, (List.dropLast_concat_getLast (List.ne_nil_of_mem hmem)).symm⟩
    rw [List.dropLast_concat] at hup
    obtain rfl : s = .up :=
      (List.mem_singleton.1 ((List.mem_append.1 hmem).resolve_left hup)).symm
    obtain ⟨j, mid, hbefore, hlast⟩ := hway.exists_of_append
    have htail := (h.suffix_of_leads hbefore hup).2 hloc
    cases hlast with
    | up _ hdone =>
      cases hdone
      cases htail.symm.trans hl
  · exact (h.suffix_of_leads hway hmem).1

/-- A file that is seen from a path lies in the directory that the path leads to, or below, if only
the end of what is seen may be `..`. -/
theorem Unlinked.suffix_of_child (h : t.Unlinked) (hp : p.text ≠ "")
    (hdir : t.directory? p = some dir) (htail : t.entry? dir.tail = some .directory)
    {init : List Path.Segment} {last : Path.Segment}
    (hsegments : Path.segments s.toList = init ++ [last])
    (hinit : ∀ seg ∈ init, seg ≠ ['.', '.']) (hs : (Path.mk s).isAbsolute = false)
    (hfile : t.file? (p.child s) = some l) : dir <:+ l := by
  obtain ⟨hl, bytes, he⟩ := file?_eq_some_iff.1 hfile
  obtain ⟨j, dir', hdir', hway⟩ := exists_leads_of_child hp hs hl
  obtain rfl := Option.some.inj (hdir.symm.trans hdir')
  exact h.suffix_of_file hway (up_not_mem_dropLast hsegments hinit) htail he

end Tree

end PackageMap
