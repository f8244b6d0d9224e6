import PackageMap.Proofs.Resolve.Calls
import PackageMap.Proofs.Resolve.Search

/-!
# What a search does to what it carries

A search lists paths, reads manifests and puts the list back to what it was. So what each of these
keeps holds between what a search starts from and what it leaves (`Carried.call`).
-/

namespace PackageMap.Resolve

variable {α β : Type} {t : Tree} {c : Conventions} {R : Search → Search → Prop}

/-- A relation between what a search carries before and after, which each step keeps. -/
structure Carried (t : Tree) (R : Search → Search → Prop) : Prop where
  refl : ∀ s, R s s
  trans : ∀ {s u v}, R s u → R u v → R s v
  note : ∀ (p : Path) (s : Search), R s (note p s).2
  read : ∀ (dir : Path) (s : Search), t.isFile (dir.child manifestName) →
    R s (readManifest t (dir.child manifestName) s).2
  restore : ∀ {s u}, R s u → R s { u with tried := s.tried }

/-- What the search leaves is related to what it starts from. -/
def Follows (R : Search → Search → Prop) (m : SearchM α) : Prop := ∀ s, R s (m s).2

namespace Carried

variable (h : Carried t R)

include h

theorem pure (a : α) : Follows R (pure a) := h.refl

theorem bind {m : SearchM α} {f : α → SearchM β} (hm : Follows R m) (hf : ∀ a, Follows R (f a)) :
    Follows R (m >>= f) :=
  fun s => h.trans (hm s) (hf (m s).1 (m s).2)

theorem enclosingAmong (dirs : List Path) : Follows R (enclosingAmong t dirs) := by
  induction dirs with
  | nil => exact h.pure none
  | cons dir above ih =>
    unfold Resolve.enclosingAmong
    split
    · exact h.pure none
    split
    · next hfile => exact h.bind (fun s => h.read dir s hfile) fun _ => h.pure _
    · exact ih

theorem firstFile (ps : List Path) : Follows R (firstFile t ps) := by
  induction ps with
  | nil => exact h.pure none
  | cons p ps ih =>
    refine h.bind (h.note p) fun _ => ?_
    split
    · exact h.pure _
    · exact ih

theorem resolveField (p : Path) : Follows R (resolveField t c p) := by
  refine h.bind (h.firstFile _) fun o => ?_
  cases o with
  | some file => exact h.pure _
  | none =>
    dsimp only
    split
    · exact h.firstFile _
    · exact h.pure _

theorem resolveFields (dir : Path) (manifest : Json) (fields : List String) :
    Follows R (resolveFields t c dir manifest fields) := by
  induction fields with
  | nil => exact h.pure none
  | cons field fields ih =>
    unfold Resolve.resolveFields
    split
    · exact ih
    split
    · exact ih
    refine h.bind (h.resolveField _) fun o => ?_
    cases o with
    | some file => exact h.pure _
    | none => exact ih

theorem resolveManifest (dir : Path) : Follows R (resolveManifest t c dir) := by
  unfold Resolve.resolveManifest
  dsimp only
  split
  · next hfile =>
    refine h.bind (h.note _) fun _ => h.bind (fun s => h.read dir s hfile) fun o => ?_
    cases o with
    | some manifest => exact h.resolveFields _ _ _
    | none => exact h.pure _
  · exact h.pure _

theorem resolveDirectory (dir : Path) : Follows R (resolveDirectory t c dir) := by
  unfold Resolve.resolveDirectory
  split
  · exact h.pure _
  refine h.bind (h.resolveManifest _) fun o => ?_
  cases o with
  | some file => exact h.pure _
  | none =>
    refine h.bind (h.firstFile _) fun o => ?_
    cases o with
    | some file => exact h.pure _
    | none => exact h.pure _

theorem resolvePath (p : Path) : Follows R (resolvePath t c p) := by
  refine h.bind (h.firstFile _) fun o => ?_
  cases o with
  | some file => exact h.pure _
  | none => exact h.resolveDirectory p

theorem resolveInstalled (dir : Path) (subpath : Option (List Char)) :
    Follows R (resolveInstalled t c dir subpath) := by
  unfold Resolve.resolveInstalled
  split
  · exact h.resolveDirectory dir
  · exact h.resolveDirectory dir
  · exact h.resolvePath _

theorem resolveAmong (b : Bare) (found : Bool) (dirs : List Path) :
    Follows R (resolveAmong t c b found dirs) := by
  induction dirs generalizing found with
  | nil => exact h.pure _
  | cons dir above ih =>
    unfold Resolve.resolveAmong
    split
    · exact ih found
    dsimp only
    split
    · exact ih found
    refine h.bind (h.note _) fun _ => ?_
    split
    · exact ih true
    refine h.bind (h.resolveInstalled _ _) fun o => ?_
    cases o with
    | resolved file => exact h.pure _
    | ignored => exact ih true
    | unresolved reason => exact ih true

theorem resolveBare (dir : Path) (spec : String) : Follows R (resolveBare t c dir spec) := by
  unfold Resolve.resolveBare
  dsimp only
  split
  · exact h.pure _
  · exact h.resolveAmong _ _ _

theorem applyAlias (file : Path) : Follows R (applyAlias t c file) := by
  unfold Resolve.applyAlias
  split
  · exact h.pure _
  refine h.bind (h.enclosingAmong _) fun o => ?_
  split
  · exact h.pure _
  · next package manifest =>
    split
    · exact h.pure _
    · exact h.pure _
    · next target _ =>
      -- the list is put back to what it was before the replacement was looked for
      intro s
      have hpath := h.resolvePath (c := c) (package.child target) s
      have hget : (get : SearchM Search) s = (s, s) := rfl
      rw [bind_apply, hget, bind_apply]
      cases (Resolve.resolvePath t c (package.child target) s).1 with
      | resolved replaced => exact hpath
      | ignored => exact h.restore hpath
      | unresolved reason => exact h.restore hpath

theorem finish (o : Outcome) : Follows R (finish t c o) := by
  unfold Resolve.finish
  split
  · exact h.applyAlias _
  · exact h.pure _

theorem bareAlias? (dir : Path) (spec : String) : Follows R (bareAlias? t dir spec) := by
  unfold Resolve.bareAlias?
  split
  · refine h.bind (h.enclosingAmong _) fun o => ?_
    split
    · exact h.pure _
    · exact h.pure _
  · exact h.pure _

theorem resolveSpecifier (dir : Path) (spec : String) :
    Follows R (resolveSpecifier t c dir spec) := by
  unfold Resolve.resolveSpecifier
  split
  · exact h.resolvePath _
  split
  · exact h.resolvePath _
  · exact h.resolveBare _ _

theorem search (dir : Path) (spec : String) : Follows R (search t c dir spec) := by
  unfold Resolve.search
  split
  · exact h.pure _
  split
  · exact h.pure _
  refine h.bind (h.bareAlias? _ _) fun o => ?_
  split
  · exact h.pure _
  · split
    · exact h.bind (h.resolvePath _) h.finish
    split
    · exact h.bind (h.resolveBare _ _) h.finish
    · exact h.bind (h.resolveSpecifier _ _) h.finish
  · exact h.bind (h.resolveSpecifier _ _) h.finish

theorem searchEntry (p : Path) : Follows R (searchEntry t c p) :=
  h.bind (h.resolvePath p) h.finish

theorem call (q : Call) : Follows R (q.search t) := by
  cases q with
  | specifier c dir spec => exact h.search dir spec
  | entry c p => exact h.searchEntry p

end Carried

end PackageMap.Resolve
