import Mathlib.Data.List.Infix
import PackageMap.Proofs.Path.Below

/-!
# Paths above a path

The paths above a path are what is left when components are taken from its end, one after another,
down to the root or to nothing (`components_ancestors`).
-/

namespace PackageMap.Path

variable {lead : Lead} {ss : List Segment} {s : Segment} {p : Path}

/-- Segments that a path with this start may have. A path that starts with its first segment has a
component there. -/
structure Fitting (lead : Lead) (ss : List Segment) : Prop where
  slash : ∀ s ∈ ss, '/' ∉ s
  first : lead = .none → ∀ s ∈ ss.head?, isSilent s = false

theorem Fitting.of_concat (h : Fitting lead (ss ++ [s])) : Fitting lead ss where
  slash r hr := h.slash r (List.mem_append_left _ hr)
  first hlead r hr := h.first hlead r (by rw [List.head?_append, hr]; rfl)

theorem components_assemble (h : Fitting lead ss) (hne : ss ≠ []) :
    (assemble lead ss).components = lead.components ++ ss.filterMap segmentComponent? := by
  have hsplit : lead ≠ .none → (assemble lead ss).split = (lead, ss) := by
    intro hlead
    cases lead with
    | root => exact split_of_segments (segments_assemble h.slash hne) hne
    | current =>
      obtain ⟨r, rs, rfl⟩ := List.exists_cons_of_ne_nil hne
      have hsegments : segments (assemble .current (r :: rs)).text.toList = ['.'] :: r :: rs := by
        unfold assemble
        rw [String.toList_ofList, show '.' :: '/' :: join (r :: rs) = ['.'] ++ '/' :: join (r :: rs)
          from rfl, segments_append, segments_join h.slash hne]
        rfl
      unfold split
      rw [hsegments]
      rfl
    | none => exact (hlead rfl).elim
  by_cases hlead : lead = .none
  · subst hlead
    exact components_assemble_none h.slash fun s hs => h.first rfl s hs
  · unfold components
    rw [hsplit hlead]

/-- What is left of a path when components are taken from its end. -/
theorem components_shorten (h : Fitting lead ss) :
    (shorten lead ss.reverse).map components =
      ((ss.filterMap segmentComponent?).inits.map (lead.components ++ ·)).reverse ++
        if lead = .current then [[]] else [] := by
  induction ss using List.reverseRecOn with
  | nil => cases lead <;> rfl
  | append_singleton ss s ih =>
    have hself := components_assemble h (by simp)
    rw [List.reverse_concat]
    unfold shorten
    rw [List.filterMap_append] at hself ⊢
    split
    · next hs =>
      rw [ih h.of_concat, List.filterMap_cons_none (segmentComponent?_of_isSilent hs),
        List.filterMap_nil, List.append_nil]
    · next hs =>
      obtain ⟨c, hc⟩ := exists_segmentComponent? (Bool.eq_false_iff.2 hs)
      rw [List.filterMap_cons_some hc, List.filterMap_nil] at hself ⊢
      rw [List.map_cons, List.reverse_cons, List.reverse_reverse, hself, ih h.of_concat,
        List.inits_append]
      simp

/-- The segments of a path up to its last component. -/
theorem isPrefix_reverse_trimmed (ss : List Segment) : (trimmed ss).reverse <+: ss := by
  have hsuffix := List.reverse_prefix.2 (List.dropWhile_suffix (l := ss.reverse) isSilent)
  rwa [List.reverse_reverse] at hsuffix

theorem fitting_trimmed (h : p.split = (lead, ss)) : Fitting lead (trimmed ss).reverse := by
  have hslash (q : Segment) (hq : q ∈ segments p.text.toList) : '/' ∉ q :=
    not_mem_of_mem_segments hq
  have hsubset := (isPrefix_reverse_trimmed ss).subset
  unfold split at h
  split at h
  · next r rs hsegments =>
    cases h
    exact ⟨fun q hq => hslash q (hsegments ▸ List.mem_cons_of_mem _ (hsubset hq)), nofun⟩
  · next rs hsegments =>
    cases h
    exact ⟨fun q hq => hslash q (hsegments ▸ List.mem_cons_of_mem _ (hsubset hq)), nofun⟩
  · next hroot hcurrent =>
    cases h
    refine ⟨fun q hq => hslash q (hsubset hq), fun _ q hq => ?_⟩
    obtain ⟨rest, hrest⟩ := isPrefix_reverse_trimmed (segments p.text.toList)
    obtain ⟨qs, hqs⟩ := List.head?_eq_some_iff.1 hq
    rw [hqs, List.cons_append] at hrest
    rw [Bool.eq_false_iff]
    intro hsilent
    rcases Bool.or_eq_true_iff.1 hsilent with hq | hq
    · obtain rfl := beq_iff_eq.1 hq
      cases htail : qs ++ rest with
      | nil =>
        rw [htail] at hrest
        rw [← hrest] at hqs
        cases hqs
      | cons r rs => exact hroot r rs (by rw [← hrest, htail])
    · obtain rfl := beq_iff_eq.1 hq
      exact hcurrent _ hrest.symm

/-- The paths from a path upwards are what is left of it when components are taken from its end, one
after another, down to the root or to nothing. -/
theorem components_ancestors (p : Path) : p.ancestors.map components =
    (if p.isAbsolute then p.components.inits.tail else p.components.inits).reverse := by
  obtain ⟨⟨lead, ss⟩, hsplit⟩ : ∃ l, p.split = l := ⟨_, rfl⟩
  have hcomponents : p.components = lead.components ++ ss.filterMap segmentComponent? := by
    unfold components
    rw [hsplit]
  have habsolute : p.isAbsolute = true ↔ lead = .root := by
    rw [Tree.isAbsolute_iff, Tree.head?_components_iff, hsplit]
  have hfitting := fitting_trimmed hsplit
  rw [ancestors, List.map_cons, hcomponents, ← filterMap_trimmed]
  unfold parents
  rw [hsplit]
  dsimp only
  cases htrimmed : trimmed ss with
  | nil =>
    have hempty : components ⟨""⟩ = [] := rfl
    cases lead <;> simp [habsolute, Lead.components, hempty]
  | cons s above =>
    rw [htrimmed, List.reverse_cons] at hfitting
    have hs : isSilent s = false := isSilent_of_dropWhile (congrArg List.head? htrimmed)
    obtain ⟨c, hc⟩ := exists_segmentComponent? hs
    have habove := components_shorten hfitting.of_concat
    rw [List.reverse_reverse] at habove
    rw [habove, List.reverse_cons, List.filterMap_append, List.filterMap_cons_some hc]
    cases lead <;> simp [habsolute, Lead.components, List.inits_append]

end PackageMap.Path
