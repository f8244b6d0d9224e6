import Mathlib.Data.List.Forall2
import PackageMap.Proofs.Resolve.Entry
import PackageMap.Proofs.Respelled.Installed

/-!
# Entries under two paths

An entry of a package stands for the same file from two paths of the project, because the same is
seen from both wherever the search looks. Files are canonical once they are found, so the paths do
not matter after that.
-/

namespace PackageMap

namespace Resolve

open PackageMap.Path (Beside)

variable {t : Tree} {c : Conventions} {r r' p p' : Path}

/-! ## What a search looks up -/

/-- A path that is tried: those before it in the list do not stop the search. -/
def Tried (stops : Path → Bool) (ps : List Path) (p : Path) : Prop :=
  ∃ before after, ps = before ++ p :: after ∧ ∀ q ∈ before, stops q = false

/-- The paths that a file is looked for at, for the path of an entry field. -/
inductive FieldTries (t : Tree) (c : Conventions) (p : Path) : Path → Prop
  | file {q} (h : Tried t.isFile (fileCandidates c p) q) : FieldTries t c p q
  | index {q} (hfile : fileOf? t c p = none) (hdir : t.isDirectory p)
      (h : Tried t.isFile (indexCandidates c p) q) : FieldTries t c p q

/-- The paths that a file is looked for at, for an entry path. -/
inductive EntryTries (t : Tree) (c : Conventions) (p : Path) : Path → Prop
  | file {q} (h : Tried t.isFile (fileCandidates c p) q) : EntryTries t c p q
  | field {j f q} (hfile : fileOf? t c p = none) (hdir : t.isDirectory p)
      (hj : parseManifest t (p.child manifestName) = some j)
      (hf : Tried (fun f => (fieldOf? t c f).isSome) (fieldPaths p j c.mainFields) f)
      (h : FieldTries t c f q) : EntryTries t c p q
  | index {q} (hfile : fileOf? t c p = none) (hdir : t.isDirectory p)
      (hmanifest : manifestOf? t c p = none) (h : Tried t.isFile (indexCandidates c p) q) :
    EntryTries t c p q

/-- The paths that are looked up for an entry path: besides those that a file is looked for at, the
manifest of its directory. -/
inductive EntryLooks (t : Tree) (c : Conventions) (p : Path) : Path → Prop
  | tried {q} (h : EntryTries t c p q) : EntryLooks t c p q
  | manifest (hfile : fileOf? t c p = none) (hdir : t.isDirectory p) :
    EntryLooks t c p (p.child manifestName)

theorem Tried.head {stops : Path → Bool} {ps : List Path} : Tried stops (p :: ps) p :=
  ⟨[], ps, rfl, nofun⟩

theorem Tried.tail {stops : Path → Bool} {ps : List Path} {q : Path} (hq : stops q = false)
    (h : Tried stops ps p) : Tried stops (q :: ps) p := by
  obtain ⟨before, after, rfl, hbefore⟩ := h
  refine ⟨q :: before, after, rfl, fun x hx => ?_⟩
  rcases List.mem_cons.1 hx with rfl | hx
  · exact hq
  · exact hbefore x hx

/-! ## First files -/

theorem find?_isFile_congr {ps ps' : List Path} (h : List.Forall₂ (Beside r r') ps ps')
    (hagree : ∀ p p', Beside r r' p p' → Tried t.isFile ps p → t.Agree p p')
    (hself : ∀ p p', Beside r r' p p' → Tried t.isFile ps p → t.isFile p →
      t.canonicalOrSelf p = t.canonicalOrSelf p') :
    (ps.find? t.isFile).map t.canonicalOrSelf = (ps'.find? t.isFile).map t.canonicalOrSelf := by
  induction h with
  | nil => rfl
  | @cons p p' ps ps' hp _ ih =>
    rw [List.find?_cons, List.find?_cons, ← (hagree p p' hp .head).isFile]
    cases hfile : t.isFile p with
    | true => exact congrArg some (hself p p' hp .head hfile)
    | false =>
      exact ih (fun q q' hq htried => hagree q q' hq (htried.tail hfile))
        fun q q' hq htried => hself q q' hq (htried.tail hfile)

theorem findSome?_congr {f : Path → Option Path} {ps ps' : List Path}
    (h : List.Forall₂ (Beside r r') ps ps')
    (heq : ∀ p p', Beside r r' p p' → Tried (fun q => (f q).isSome) ps p → f p = f p') :
    ps.findSome? f = ps'.findSome? f := by
  induction h with
  | nil => rfl
  | @cons p p' ps ps' hp _ ih =>
    rw [List.findSome?_cons, List.findSome?_cons, ← heq p p' hp .head]
    cases hfile : f p with
    | some file => rfl
    | none =>
      have hnone : (f p).isSome = false := by rw [hfile, Option.isSome_none]
      exact ih fun q q' hq htried => heq q q' hq (htried.tail hnone)

theorem beside_fileCandidates (h : Beside r r' p p') :
    List.Forall₂ (Beside r r') (fileCandidates c p) (fileCandidates c p') := by
  refine .cons h ?_
  rw [List.forall₂_map_left_iff, List.forall₂_map_right_iff, List.forall₂_same]
  exact fun ext _ => h.append ext

section

variable (hr : r.isAbsolute) (hr' : r'.isAbsolute)

include hr hr'

theorem beside_indexCandidates (h : Beside r r' p p') :
    List.Forall₂ (Beside r r') (indexCandidates c p) (indexCandidates c p') := by
  unfold indexCandidates
  rw [List.forall₂_map_left_iff, List.forall₂_map_right_iff, List.forall₂_same]
  exact fun ext _ => h.child hr hr' _

/-- What a field declares is seen from both. -/
theorem beside_declared (h : Beside r r' p p') (field : Option String) :
    Option.Rel (Beside r r') ((Manifest.declared field).map p.child)
      ((Manifest.declared field).map p'.child) := by
  cases Manifest.declared field with
  | none => exact .none
  | some entry => exact .some (h.child hr hr' entry)

theorem beside_fieldPaths (h : Beside r r' p p') (j : Json) (fields : List String) :
    List.Forall₂ (Beside r r') (fieldPaths p j fields) (fieldPaths p' j fields) := by
  refine List.rel_filterMap (R := Eq) ?_ (List.forall₂_refl fields)
  rintro field _ rfl
  exact beside_declared hr hr' h (j.getString? field)

/-! ## Files of paths -/

theorem fieldOf?_congr (h : Beside r r' p p')
    (hagree : ∀ q q', Beside r r' q q' → FieldTries t c p q → t.Agree q q')
    (hself : ∀ q q', Beside r r' q q' → FieldTries t c p q → t.isFile q →
      t.canonicalOrSelf q = t.canonicalOrSelf q') :
    fieldOf? t c p = fieldOf? t c p' := by
  have hfile : fileOf? t c p = fileOf? t c p' := find?_isFile_congr (beside_fileCandidates h)
    (fun q q' hq htried => hagree q q' hq (.file htried))
    fun q q' hq htried => hself q q' hq (.file htried)
  unfold fieldOf?
  rw [← hfile, ← (hagree p p' h (.file .head)).isDirectory]
  cases hnone : fileOf? t c p with
  | some file => rfl
  | none =>
    rw [Option.none_or, Option.none_or]
    split
    · next hdir =>
      exact find?_isFile_congr (beside_indexCandidates hr hr' h)
        (fun q q' hq htried => hagree q q' hq (.index hnone hdir htried))
        fun q q' hq htried => hself q q' hq (.index hnone hdir htried)
    · rfl

section

variable (h : Beside r r' p p')
  (hagree : ∀ q q', Beside r r' q q' → EntryLooks t c p q → t.Agree q q')
  (hself : ∀ q q', Beside r r' q q' → EntryTries t c p q → t.isFile q →
    t.canonicalOrSelf q = t.canonicalOrSelf q')

include h hagree hself

theorem manifestOf?_congr (hnone : fileOf? t c p = none) (hdir : t.isDirectory p) :
    manifestOf? t c p = manifestOf? t c p' := by
  have hread := (hagree _ _ (h.child hr hr' manifestName) (.manifest hnone hdir)).read
  have hparse : parseManifest t (p.child manifestName) =
      parseManifest t (p'.child manifestName) := by
    unfold parseManifest
    rw [hread]
  unfold manifestOf?
  rw [← hparse]
  cases hj : parseManifest t (p.child manifestName) with
  | none => rfl
  | some j =>
    refine findSome?_congr (beside_fieldPaths hr hr' h j c.mainFields) fun f f' hf htried => ?_
    exact fieldOf?_congr hr hr' hf
      (fun q q' hq htries => hagree q q' hq (.tried (.field hnone hdir hj htried htries)))
      fun q q' hq htries => hself q q' hq (.field hnone hdir hj htried htries)

theorem directoryOf?_congr (hnone : fileOf? t c p = none) :
    directoryOf? t c p = directoryOf? t c p' := by
  unfold directoryOf?
  rw [← (hagree p p' h (.tried (.file .head))).isDirectory]
  split
  · next hdir =>
    rw [← manifestOf?_congr hr hr' h hagree hself hnone hdir]
    cases hfound : manifestOf? t c p with
    | some file => rfl
    | none =>
      rw [Option.none_or, Option.none_or]
      exact find?_isFile_congr (beside_indexCandidates hr hr' h)
        (fun q q' hq htried => hagree q q' hq (.tried (.index hnone hdir hfound htried)))
        fun q q' hq htried => hself q q' hq (.index hnone hdir hfound htried)
  · rfl

theorem pathOf?_congr : pathOf? t c p = pathOf? t c p' := by
  have hfile : fileOf? t c p = fileOf? t c p' := find?_isFile_congr (beside_fileCandidates h)
    (fun q q' hq htried => hagree q q' hq (.tried (.file htried)))
    fun q q' hq htried => hself q q' hq (.file htried)
  unfold pathOf?
  rw [← hfile]
  cases hnone : fileOf? t c p with
  | some file => rfl
  | none =>
    rw [Option.none_or, Option.none_or]
    exact directoryOf?_congr hr hr' h hagree hself hnone

theorem entryOf?_congr : entryOf? t c p = entryOf? t c p' := by
  unfold entryOf?
  rw [pathOf?_congr hr hr' h hagree hself]

end

end

end Resolve

/-! ## The entries of a manifest -/

/-- The entries of a manifest are the same texts seen from each directory. -/
theorem beside_entries {r r' dir dir' : Path} (hr : r.isAbsolute) (hr' : r'.isAbsolute)
    (h : Path.Beside r r' dir dir') (m : Manifest) :
    List.Forall₂ (Path.Beside r r') ((m.entries dir).filterMap id)
      ((m.entries dir').filterMap id) := by
  have hentry := Resolve.beside_declared hr hr' h
  have hfirst : Path.Beside r r'
      (((Manifest.declared m.main).map dir.child).getD (dir.child "index"))
      (((Manifest.declared m.main).map dir'.child).getD (dir'.child "index")) := by
    cases Manifest.declared m.main with
    | none => exact h.child hr hr' "index"
    | some entry => exact h.child hr hr' entry
  refine List.rel_filterMap (R := Option.Rel (Path.Beside r r')) (fun _ _ he => he) ?_
  exact .cons (.some hfirst) (.cons (hentry _) (.cons (hentry _) (.cons (hentry _) .nil)))

end PackageMap
