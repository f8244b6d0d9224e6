import PackageMap.Proofs.Resolve.Entry
import PackageMap.Proofs.Walk.Worklist

/-!
# Walks and the manifests read before

The manifests that a walker has read make no difference to its walks: walkers that are equal but for
them stay so, and entries that stand for the same file are walked in the same way.
-/

namespace PackageMap.Walker

open Resolve

variable {t : Tree} {c : Config} {w w' : Walker}

/-- The walk of an entry is that of the file that it stands for. -/
theorem walkEntry_eq (h : Faithful t (some w.cache)) (p : Path) :
    walkEntry t c w p =
      let w := { w with
        cache := (resolveEntry t c.conventions (some w.cache) p).2.getD w.cache }
      (entryOf? t c.conventions p).elim w (walk t c w) := by
  have hfile := resolveEntry_entryOf? (c := c.conventions) h p
  unfold walkEntry
  dsimp only
  rw [← hfile]
  cases (resolveEntry t c.conventions (some w.cache) p).1.outcome with
  | resolved file => rfl
  | ignored => rfl
  | unresolved reason => rfl

/-- Two walkers are equal but for the manifests that they have read, which agree with the tree. -/
structure Level (t : Tree) (w w' : Walker) : Prop where
  map : w.map = w'.map
  report : w.report = w'.report
  warned : w.warned = w'.warned
  warnings : w.warnings = w'.warnings
  left : Faithful t (some w.cache)
  right : Faithful t (some w'.cache)

namespace Level

theorem refl (h : Faithful t (some w.cache)) : Level t w w := ⟨rfl, rfl, rfl, rfl, h, h⟩

variable (h : Level t w w')

include h

theorem withCache {cache cache' : Option ManifestCache} (hcache : Faithful t cache)
    (hcache' : Faithful t cache') :
    Level t { w with cache := cache.getD w.cache } { w' with cache := cache'.getD w'.cache } :=
  ⟨h.map, h.report, h.warned, h.warnings, faithful_getD hcache h.left,
    faithful_getD hcache' h.right⟩

theorem noteUnreadable (p : Path) : Level t (w.noteUnreadable p) (w'.noteUnreadable p) where
  map := h.map
  report := by unfold Walker.noteUnreadable; rw [h.report]
  warned := h.warned
  warnings := by unfold Walker.noteUnreadable; rw [h.warnings]
  left := h.left
  right := h.right

theorem noteIgnored : Level t w.noteIgnored w'.noteIgnored where
  map := h.map
  report := by unfold Walker.noteIgnored; rw [h.report]
  warned := h.warned
  warnings := h.warnings
  left := h.left
  right := h.right

theorem noteUnresolved (e : UnresolvedEdge) :
    Level t (w.noteUnresolved e) (w'.noteUnresolved e) where
  map := h.map
  report := by unfold Walker.noteUnresolved; rw [h.report]
  warned := by unfold Walker.noteUnresolved; rw [h.warned]
  warnings := by unfold Walker.noteUnresolved; rw [h.warned, h.warnings]
  left := h.left
  right := h.right

theorem noteUnscanned (p : Path) : Level t (w.noteUnscanned p) (w'.noteUnscanned p) where
  map := h.map
  report := by unfold Walker.noteUnscanned; rw [h.report]
  warned := h.warned
  warnings := h.warnings
  left := h.left
  right := h.right

theorem add (r : FileRecord) : Level t (w.add r) (w'.add r) := by
  unfold Walker.add
  rw [← h.map]
  split
  · exact h
  · exact ⟨rfl, by rw [h.report], h.warned, h.warnings, h.left, h.right⟩

theorem followOne (file : Path) (spec : String) :
    (followOne t c file w spec).2 = (followOne t c file w' spec).2 ∧
      Level t (followOne t c file w spec).1 (followOne t c file w' spec).1 := by
  obtain ⟨hr, hcache, -⟩ := resolve_of_faithful (c := c.conventions) h.left file spec
  obtain ⟨hr', hcache', -⟩ := resolve_of_faithful (c := c.conventions) h.right file spec
  have hlevel := h.withCache hcache hcache'
  unfold Walker.followOne
  dsimp only
  rw [hr, hr']
  cases (resolve t c.conventions none file spec).1.outcome with
  | resolved target =>
    refine ⟨?_, hlevel⟩
    dsimp only
    rw [h.map]
  | ignored => exact ⟨rfl, hlevel.noteIgnored⟩
  | unresolved reason => exact ⟨rfl, hlevel.noteUnresolved _⟩

theorem followAll (file : Path) (targets : List Path) (specs : List String) :
    (followAll t c file w targets specs).2 = (followAll t c file w' targets specs).2 ∧
      Level t (followAll t c file w targets specs).1 (followAll t c file w' targets specs).1 := by
  induction specs generalizing w w' targets with
  | nil => exact ⟨rfl, h⟩
  | cons spec specs ih =>
    obtain ⟨htarget, hlevel⟩ := h.followOne (c := c) file spec
    unfold Walker.followAll
    dsimp only
    rw [htarget]
    exact ih hlevel _

theorem visit (file : Path) :
    (visit t c w file).2 = (visit t c w' file).2 ∧
      Level t (visit t c w file).1 (visit t c w' file).1 := by
  unfold Walker.visit
  split
  · exact ⟨rfl, h.noteUnreadable file⟩
  · dsimp only
    split
    · split
      · exact ⟨rfl, (h.noteUnscanned file).add _⟩
      · next specs _ =>
        obtain ⟨htargets, hlevel⟩ := h.followAll (c := c) file [] specs
        exact ⟨htargets, hlevel.add _⟩
    · exact ⟨rfl, h.add _⟩

theorem walkStack (stack : List Path) :
    Level t (walkStack t c w stack) (walkStack t c w' stack) := by
  fun_induction Walker.walkStack t c w stack generalizing w' with
  | case1 w =>
    rw [walkStack_nil]
    exact h
  | case2 w file rest hm ih =>
    rw [h.map] at hm
    rw [walkStack_of_contains hm]
    exact ih h
  | case3 w file rest hm v targets hv ih =>
    obtain ⟨htargets, hlevel⟩ := h.visit (c := c) file
    rw [h.map] at hm
    rw [hv] at htargets hlevel
    rw [walkStack_of_not_contains (eq_false_of_ne_true hm), ← htargets]
    exact ih hlevel

theorem walk (p : Path) : Level t (walk t c w p) (walk t c w' p) := by
  unfold Walker.walk
  split
  · exact h.noteUnreadable p
  · exact h.walkStack _

/-- Entries that stand for the same file are walked in the same way. -/
theorem walkEntry {p p' : Path}
    (hp : entryOf? t c.conventions p = entryOf? t c.conventions p') :
    Level t (walkEntry t c w p) (walkEntry t c w' p') := by
  obtain ⟨-, hcache, -⟩ := resolveEntry_of_faithful (c := c.conventions) h.left p
  obtain ⟨-, hcache', -⟩ := resolveEntry_of_faithful (c := c.conventions) h.right p'
  have hlevel := h.withCache hcache hcache'
  rw [walkEntry_eq h.left, walkEntry_eq h.right, hp]
  cases entryOf? t c.conventions p' with
  | none => exact hlevel
  | some file => exact hlevel.walk file

theorem walkEntries {ps ps' : List Path} (hps : List.Forall₂
      (fun p p' => entryOf? t c.conventions p = entryOf? t c.conventions p') ps ps') :
    Level t (ps.foldl (Walker.walkEntry t c) w) (ps'.foldl (Walker.walkEntry t c) w') := by
  induction hps generalizing w w' with
  | nil => exact h
  | cons hp _ ih => exact ih (h.walkEntry hp)

end Level

end PackageMap.Walker
