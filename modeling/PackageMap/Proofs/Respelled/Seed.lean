import PackageMap.Find
import PackageMap.Proofs.Respelled.Installed

/-!
# Seeds under two paths

The Reason sources of a project are the same from two paths of it: the directories of its packages
are in one order, and their files become canonical. Only the text of an error shows the path.
-/

namespace PackageMap

variable {t : Tree} {r r' p p' : Path} {m m' : PathTable Manifest} {package : String}

/-! ## Lists in order -/

theorem Path.Twins.le {q q' : Path} (hr : r.isAbsolute) (hr' : r'.isAbsolute)
    (hp : Twins r r' p p') (hq : Twins r r' q q') : p.le q = p'.le q' := by
  obtain ⟨s, hs, -, rfl, rfl⟩ := hp
  obtain ⟨x, hx, -, rfl, rfl⟩ := hq
  rw [le_child hr hs hx, le_child hr' hs hx]

theorem Ordered.forall₂_insert {α : Type} {R : α → α → Prop} {le : α → α → Bool} {a a' : α}
    {as as' : List α} (hle : ∀ a a' b b', R a a' → R b b' → le a b = le a' b') (ha : R a a')
    (h : List.Forall₂ R as as') : List.Forall₂ R (insert le a as) (insert le a' as') := by
  induction h with
  | nil => exact .cons ha .nil
  | @cons b b' bs bs' hb hbs ih =>
    unfold insert
    rw [hle a a' b b' ha hb]
    split
    · exact .cons ha (.cons hb hbs)
    · exact .cons hb ih

theorem Ordered.forall₂_sort {α : Type} {R : α → α → Prop} {le : α → α → Bool} {as as' : List α}
    (hle : ∀ a a' b b', R a a' → R b b' → le a b = le a' b') (h : List.Forall₂ R as as') :
    List.Forall₂ R (sort le as) (sort le as') := by
  induction h with
  | nil => exact .nil
  | cons ha _ ih => exact forall₂_insert hle ha ih

/-! ## Results up to their errors -/

theorem toOption_bind {ε α β : Type} (x : Except ε α) (f : α → Except ε β) :
    (x >>= f).toOption = x.toOption.bind fun a => (f a).toOption := by
  cases x with
  | error e => rfl
  | ok a => rfl

theorem toOption_mapM_congr {ε α β : Type} {f g : α → Except ε β} {l : List α}
    (h : ∀ a ∈ l, (f a).toOption = (g a).toOption) :
    (l.mapM f).toOption = (l.mapM g).toOption := by
  induction l with
  | nil => rfl
  | cons a l ih =>
    rw [List.mapM_cons, List.mapM_cons, toOption_bind, toOption_bind, h a List.mem_cons_self]
    refine congrArg _ (funext fun b => ?_)
    rw [toOption_bind, toOption_bind, ih fun a ha => h a (List.mem_cons_of_mem _ ha)]

/-- Two results that are equal up to their errors are both errors, or one result. -/
theorem cases_of_toOption {ε α : Type} {x y : Except ε α} (h : x.toOption = y.toOption) :
    (∃ e e', x = .error e ∧ y = .error e') ∨ ∃ a, x = .ok a ∧ y = .ok a := by
  cases x with
  | error e =>
    cases y with
    | error e' => exact .inl ⟨e, e', rfl, rfl⟩
    | ok b => cases h
  | ok a =>
    cases y with
    | error e' => cases h
    | ok b =>
      cases h
      exact .inr ⟨a, rfl, rfl⟩

namespace Seeder

open PackageMap.Path (Beside Twins)

/-! ## What a seed looks up -/

/-- The directories in which the Reason files of a package are looked for. -/
inductive Opens (t : Tree) (package : Path) : Path → Prop
  | package : Opens t package package
  | inside {dir loc n} (h : Opens t package dir) (hloc : t.locate dir = .ok loc)
      (hn : n ∈ t.children loc) (hmodules : n.text ≠ Resolve.modulesName)
      (he : t.entry? (n :: loc) = some .directory) : Opens t package (dir.child n.text)

/-- The paths that the seed of a project looks up: the build configurations of its packages, and the
directories of those that have one. -/
inductive Gathers (t : Tree) (manifests : PathTable Manifest) : Path → Prop
  | build {dir} (h : dir ∈ manifests.keys.filterMap Path.parent?) :
    Gathers t manifests (dir.child buildName)
  | opened {package dir} (hpackage : package ∈ reasonDirectories t manifests)
      (h : Opens t package dir) : Gathers t manifests dir

/-- The paths that the seed of a project makes canonical: the Reason files of its packages. -/
inductive Sources (t : Tree) (manifests : PathTable Manifest) : Path → Prop
  | source {package dir loc n bytes} (hpackage : package ∈ reasonDirectories t manifests)
      (h : Opens t package dir) (hloc : t.locate dir = .ok loc) (hn : n ∈ t.children loc)
      (hmodules : n.text ≠ Resolve.modulesName) (he : t.entry? (n :: loc) = some (.file bytes))
      (hreason : isReasonFile n) : Sources t manifests (dir.child n.text)

/-! ## Reason files -/

section

variable (hr : r.isAbsolute) (hr' : r'.isAbsolute)
  (hagree : ∀ p p', Twins r r' p p' → Gathers t m p → t.Agree p p')

include hr hr' hagree

section

variable (hcanonical : ∀ p p', Twins r r' p p' → Sources t m p → t.canonical p = t.canonical p')

include hcanonical

theorem reasonFilesBelow_toOption {dir dir' : Path} (hp : p ∈ reasonDirectories t m)
    (depth : Nat) (hdir : Opens t p dir) (htwins : Twins r r' dir dir') :
    (reasonFilesBelow t depth dir).toOption = (reasonFilesBelow t depth dir').toOption := by
  induction depth generalizing dir dir' with
  | zero => rfl
  | succ depth ih =>
    unfold reasonFilesBelow
    rw [← (hagree _ _ htwins (.opened hp hdir)).locate]
    cases hloc : t.locate dir with
    | error e => rfl
    | ok loc =>
      dsimp only
      rw [toOption_bind, toOption_bind]
      refine congrArg (Option.bind · _) (toOption_mapM_congr fun n hn => ?_)
      split
      · rfl
      · next hmodules =>
        have hchild := htwins.child hr hr' n
        cases he : t.entry? (n :: loc) with
        | none => rfl
        | some e =>
          cases e with
          | link text => rfl
          | directory => exact ih (.inside hdir hloc hn hmodules he) hchild
          | file bytes =>
            dsimp only
            unfold reasonFile
            split
            · next hreason =>
              rw [hcanonical _ _ hchild (.source hp hdir hloc hn hmodules he hreason)]
            · rfl

theorem addPackages_toOption {dirs dirs' : List Path} (map : FileMap)
    (h : List.Forall₂ (fun d d' => d ∈ reasonDirectories t m ∧ Twins r r' d d') dirs dirs') :
    (addPackages t map dirs).toOption = (addPackages t map dirs').toOption := by
  induction h generalizing map with
  | nil => rfl
  | @cons d d' dirs dirs' hd hdirs ih =>
    have hfiles : (reasonFiles t d).toOption = (reasonFiles t d').toOption :=
      reasonFilesBelow_toOption hr hr' hagree hcanonical hd.1 _ .package hd.2
    unfold addPackages
    obtain ⟨e, e', he, he'⟩ | ⟨locs, hlocs, hlocs'⟩ := cases_of_toOption hfiles
    · rw [he, he']
      rfl
    · rw [hlocs, hlocs']
      dsimp only
      cases addLeaves t map locs with
      | error e => rfl
      | ok map => exact ih map

end

theorem twins_reasonDirectories (h : Installed.AlikeTables t r r' m m') :
    List.Forall₂ (Twins r r') (reasonDirectories t m) (reasonDirectories t m') := by
  have hkeys : List.Forall₂ (Installed.Alike t r r') m.keys m'.keys := by
    unfold PathTable.keys PathTable.toList
    rw [List.map_map, List.map_map, List.forall₂_map_left_iff, List.forall₂_map_right_iff]
    exact h.imp fun _ _ he => he.key
  have hparents : List.Forall₂ (Twins r r') (m.keys.filterMap Path.parent?)
      (m'.keys.filterMap Path.parent?) := by
    refine List.rel_filterMap (fun q q' hq => ?_) hkeys
    obtain ⟨d, d', hd, rfl, rfl⟩ := hq.named
    rw [hd.parent?_child hr ⟨Resolve.manifestName, by decide⟩,
      hd.symm.parent?_child hr' ⟨Resolve.manifestName, by decide⟩]
    exact .some hd
  -- whether a directory has a build configuration is asked of those in the list alone
  have hbuilt : List.Forall₂ (fun d d' => Twins r r' d d' ∧
        (t.isFile (d.child buildName) ↔ t.isFile (d'.child buildName)))
      (m.keys.filterMap Path.parent?) (m'.keys.filterMap Path.parent?) := by
    refine ((List.forall₂_and_left _ _).2 ⟨fun d hd => hd, hparents⟩).imp fun d d' hd => ⟨hd.2, ?_⟩
    rw [(hagree _ _ (hd.2.child hr hr' ⟨buildName, by decide⟩) (.build hd.1)).isFile]
  have hfilter := List.rel_filter (fun d d' hd => hd.2) hbuilt
  exact Ordered.forall₂_sort (fun _ _ _ _ ha hb => Path.Twins.le hr hr' ha hb)
    (hfilter.imp fun _ _ hd => hd.1)

/-- The seed is the same, or there is none. -/
theorem seed_toOption
    (hcanonical : ∀ p p', Twins r r' p p' → Sources t m p → t.canonical p = t.canonical p')
    (h : Installed.AlikeTables t r r' m m') :
    (reason.seed t m).toOption = (reason.seed t m').toOption :=
  addPackages_toOption hr hr' hagree hcanonical .empty ((List.forall₂_and_left _ _).2
    ⟨fun _ hd => hd, twins_reasonDirectories hr hr' hagree h⟩)

end

/-- The paths that are looked up before a package is walked. -/
inductive Looks (t : Tree) (root : Path) (package : String) : Path → Prop
  | own : Looks t root package ((packageDirectory root package).child buildName)
  | gathered {q} (happlies : reason.applies t root package)
      (h : Gathers t (installedManifests t root) q) : Looks t root package q

/-- The walk of a package starts from the same records. -/
theorem seededWalker_eq (hr : r.isAbsolute) (hr' : r'.isAbsolute) (o : FindOptions)
    (ho : o.seeder = reason) (h : Installed.AlikeTables t r r' (installedManifests t r) m')
    (hagree : ∀ p p', Beside r r' p p' → Looks t r package p → t.Agree p p')
    (hcanonical : ∀ p p', Beside r r' p p' → reason.applies t r package →
      Sources t (installedManifests t r) p → t.canonical p = t.canonical p') :
    seededWalker t o r (installedManifests t r) package = seededWalker t o r' m' package := by
  have hbuild := (beside_packageDirectory hr hr' package).child hr hr' buildName
  have hown := hagree _ _ hbuild .own
  have happlies : reason.applies t r package = reason.applies t r' package := by
    unfold reason
    dsimp only
    rw [hown.isFile]
  unfold seededWalker
  rw [ho, ← happlies]
  split
  · next hreason =>
    have hseed := seed_toOption hr hr'
      (fun p p' hp hgathers => hagree p p' hp.beside (.gathered hreason hgathers))
      (fun p p' hp hsource => hcanonical p p' hp.beside hreason hsource) h
    obtain ⟨e, e', he, he'⟩ | ⟨map, hmap, hmap'⟩ := cases_of_toOption hseed
    · rw [he, he']
    · rw [hmap, hmap']
  · rfl

end Seeder

end PackageMap
