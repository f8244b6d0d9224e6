import PackageMap.Proofs.Path.Below
import PackageMap.Resolve.Alias

/-!
# Aliases of files without their extension

A browser map may list a file without its extension. The extensions are tried in order, but the
search ends at the first one that the key of the file ends in, whether the map has an alias for the
rest of the key or not. So the alias of a file is that of the first extension that leads to one
(`FirstAlias`), unless an extension that leads to none stands before it (`Shadowed`).
-/

namespace PackageMap.Resolve

variable {t : Tree} {extensions : List String} {manifest : Json} {key stem : List Char}

/-- The key of a file that is seen from its package by this path. -/
def keyOf (rel : Path) : List Char :=
  '.' :: '/' :: rel.text.toList.map fun c => if c = '\\' then '/' else c

/-- The key ends in the extension, and without it there is an alias for it. -/
def HasStemAlias (manifest : Json) (key : List Char) (ext : String) (a : Alias) : Prop :=
  ∃ stem, key = stem ++ ext.toList ∧ alias? manifest (String.ofList stem) = some a

/-- What a browser map has for a key: the alias of the key or, failing that, that of the first
extension under which there is one. -/
inductive FirstAlias (manifest : Json) (extensions : List String) (key : List Char) :
    Option Alias → Prop
  | listed {a : Alias} (h : alias? manifest (String.ofList key) = some a) :
      FirstAlias manifest extensions key (some a)
  | stem {a : Alias} {before after : List String} {ext : String}
      (hkey : alias? manifest (String.ofList key) = none)
      (hext : extensions = before ++ ext :: after) (h : HasStemAlias manifest key ext a)
      (hbefore : ∀ e ∈ before, ∀ b, ¬ HasStemAlias manifest key e b) :
      FirstAlias manifest extensions key (some a)
  | unlisted (hkey : alias? manifest (String.ofList key) = none)
      (h : ∀ e ∈ extensions, ∀ a, ¬ HasStemAlias manifest key e a) :
      FirstAlias manifest extensions key none

/-- The first extension that the key ends in leads to no alias, but one that comes later does. -/
structure Shadowed (manifest : Json) (extensions : List String) (key : List Char) : Prop where
  unlisted : alias? manifest (String.ofList key) = none
  exists_later : ∃ before ext after stem, extensions = before ++ ext :: after ∧
    (∀ e ∈ before, ¬ e.toList <:+ key) ∧ key = stem ++ ext.toList ∧
    alias? manifest (String.ofList stem) = none ∧
    ∃ e ∈ after, ∃ a, HasStemAlias manifest key e a

/-! ## The first extension that a key ends in -/

theorem dropEnding?_eq_some_iff {text ending : List Char} :
    dropEnding? text ending = some stem ↔ text = stem ++ ending := by
  unfold dropEnding?
  constructor
  · intro h
    split at h
    · next hs =>
      obtain ⟨start, rfl⟩ := List.isSuffixOf_iff_suffix.1 hs
      simpa using h
    · cases h
  · rintro rfl
    rw [if_pos (List.isSuffixOf_iff_suffix.2 (List.suffix_append stem ending))]
    simp

theorem dropEnding?_eq_none_iff {text ending : List Char} :
    dropEnding? text ending = none ↔ ¬ ending <:+ text := by
  rw [← not_iff_not, not_not, ← ne_eq, Option.ne_none_iff_exists']
  simp only [dropEnding?_eq_some_iff]
  exact ⟨fun ⟨stem, h⟩ => ⟨stem, h.symm⟩, fun ⟨stem, h⟩ => ⟨stem, h.symm⟩⟩

theorem stem?_eq_some_iff : stem? key extensions = some stem ↔
    ∃ before ext after, extensions = before ++ ext :: after ∧
      (∀ e ∈ before, ¬ e.toList <:+ key) ∧ key = stem ++ ext.toList := by
  unfold stem?
  simp only [List.findSome?_eq_some_iff, dropEnding?_eq_some_iff, dropEnding?_eq_none_iff]
  constructor
  · rintro ⟨before, ext, after, hext, hstem, hbefore⟩
    exact ⟨before, ext, after, hext, hbefore, hstem⟩
  · rintro ⟨before, ext, after, hext, hbefore, hstem⟩
    exact ⟨before, ext, after, hext, hstem, hbefore⟩

theorem stem?_eq_none_iff : stem? key extensions = none ↔ ∀ e ∈ extensions, ¬ e.toList <:+ key := by
  unfold stem?
  simp only [List.findSome?_eq_none_iff, dropEnding?_eq_none_iff]

theorem HasStemAlias.suffix {ext : String} {a : Alias} (h : HasStemAlias manifest key ext a) :
    ext.toList <:+ key := by
  obtain ⟨stem, rfl, -⟩ := h
  exact List.suffix_append stem ext.toList

theorem HasStemAlias.alias?_eq {ext : String} {a : Alias}
    (h : HasStemAlias manifest (stem ++ ext.toList) ext a) :
    alias? manifest (String.ofList stem) = some a := by
  obtain ⟨stem', heq, ha⟩ := h
  rwa [List.append_cancel_right heq]

/-! ## The alias that is found -/

/-- The alias that is found for a key. -/
def aliasFor? (manifest : Json) (extensions : List String) (key : List Char) : Option Alias :=
  (alias? manifest (String.ofList key)).or
    ((stem? key extensions).bind fun stem => alias? manifest (String.ofList stem))

theorem fileAlias?_of_key {members : List (String × Json)} {dir file : Path}
    (hmap : browserMap? manifest = some members) (hkey : fileKey? t dir file = some key) :
    fileAlias? t extensions manifest dir file = aliasFor? manifest extensions key := by
  unfold fileAlias? aliasFor?
  rw [hmap, hkey]
  dsimp only
  cases alias? manifest (String.ofList key) with
  | none => rfl
  | some a => rfl

theorem Shadowed.aliasFor?_eq (h : Shadowed manifest extensions key) :
    aliasFor? manifest extensions key = none := by
  obtain ⟨before, ext, after, stem, hext, hbefore, hstem, hnone, -⟩ := h.exists_later
  have hfirst := stem?_eq_some_iff.2 ⟨before, ext, after, hext, hbefore, hstem⟩
  unfold aliasFor?
  rw [h.unlisted, hfirst, Option.none_or, Option.bind_some, hnone]

theorem Shadowed.not_firstAlias (h : Shadowed manifest extensions key) :
    ¬ FirstAlias manifest extensions key none := by
  obtain ⟨before, ext, after, -, hext, -, -, -, e, he, a, ha⟩ := h.exists_later
  intro hfirst
  cases hfirst with
  | unlisted _ hnone =>
    refine hnone e ?_ a ha
    rw [hext]
    exact List.mem_append_right _ (List.mem_cons_of_mem _ he)

theorem firstAlias_aliasFor? (h : ¬ Shadowed manifest extensions key) :
    FirstAlias manifest extensions key (aliasFor? manifest extensions key) := by
  unfold aliasFor?
  cases hkey : alias? manifest (String.ofList key) with
  | some a => exact .listed hkey
  | none =>
    rw [Option.none_or]
    cases hstem : stem? key extensions with
    | none =>
      rw [stem?_eq_none_iff] at hstem
      exact .unlisted hkey fun e he a ha => hstem e he ha.suffix
    | some stem =>
      obtain ⟨before, ext, after, hext, hbefore, rfl⟩ := stem?_eq_some_iff.1 hstem
      rw [Option.bind_some]
      cases ha : alias? manifest (String.ofList stem) with
      | some a =>
        exact .stem hkey hext ⟨stem, rfl, ha⟩ fun e he b hb => hbefore e he hb.suffix
      | none =>
        refine .unlisted hkey fun e he a hstem => ?_
        rw [hext, List.mem_append, List.mem_cons] at he
        rcases he with he | rfl | he
        · exact hbefore e he hstem.suffix
        · cases ha.symm.trans hstem.alias?_eq
        · exact h ⟨hkey, before, ext, after, stem, hext, hbefore, rfl, ha, e, he, a, hstem⟩

/--
A file in a canonical package directory is seen from there by the components after those of the
directory. Its alias is that of its key or, failing that, that of the first extension under which
there is one, except where an extension stands before it that the key ends in as well but that leads
to no alias: then there is none.
-/
theorem fileAlias?_first_iff {members : List (String × Json)} {dir : Location} {file : Path}
    (hmap : browserMap? manifest = some members) (hdir : t.canonical dir.path = .ok dir)
    (hfile : dir.path.components <+: file.components) :
    ∃ rel : Path, file.relativeTo? dir.path = some rel ∧
      rel.components = file.components.drop dir.path.components.length ∧
      (FirstAlias manifest extensions (keyOf rel)
          (fileAlias? t extensions manifest dir.path file) ↔
        ¬ Shadowed manifest extensions (keyOf rel)) ∧
      (Shadowed manifest extensions (keyOf rel) →
        fileAlias? t extensions manifest dir.path file = none) := by
  have habsolute : file.isAbsolute := by
    obtain ⟨rest, hrest⟩ := hfile
    rw [Tree.isAbsolute_iff, ← hrest, Tree.components_path]
    rfl
  obtain ⟨rel, hrel, hcomponents⟩ :=
    Path.exists_relativeTo? habsolute (Tree.isAbsolute_path dir) hfile
  have hkey : fileKey? t dir.path file = some (keyOf rel) := by
    unfold fileKey? Tree.canonicalOrSelf
    rw [hdir]
    dsimp only
    rw [hrel]
    rfl
  rw [fileAlias?_of_key hmap hkey]
  refine ⟨rel, hrel, hcomponents, ⟨fun h hshadowed => ?_, firstAlias_aliasFor?⟩, Shadowed.aliasFor?_eq⟩
  rw [hshadowed.aliasFor?_eq] at h
  exact hshadowed.not_firstAlias h

namespace Bundled

def dir : Location := [⟨"p", .refl true⟩]

def tree : Tree := ⟨[(dir, .directory)], []⟩

/-- The file below is listed without its extension, which may be taken for a shorter one. -/
def listing : Json := .object [("browser", .object [("./a", .string "./b.js")])]

def file : Path := ⟨"/p/a.min.js"⟩

end Bundled

open Bundled in
/-- The longer extension leads to the alias if it is tried first. -/
theorem fileAlias?_first_iff_longer :
    browserMap? listing = some [("./a", .string "./b.js")] ∧
      tree.canonical dir.path = .ok dir ∧ dir.path.components <+: file.components ∧
      FirstAlias listing [".min.js", ".js"] "./a.min.js".toList
        (fileAlias? tree [".min.js", ".js"] listing dir.path file) := by
  have hmap : browserMap? listing = some [("./a", .string "./b.js")] := rfl
  have hdir : tree.canonical dir.path = .ok dir := by decide
  have hfile : dir.path.components <+: file.components := by decide
  obtain ⟨rel, hrel, -, hfirst, -⟩ :=
    @fileAlias?_first_iff tree [".min.js", ".js"] listing _ _ _ hmap hdir hfile
  have hseen : file.relativeTo? dir.path = some ⟨"a.min.js"⟩ := by decide
  obtain rfl := Option.some.inj (hrel.symm.trans hseen)
  refine ⟨hmap, hdir, hfile, hfirst.2 fun hshadowed => ?_⟩
  exact absurd hshadowed.aliasFor?_eq (by decide)

open Bundled in
/-- If the shorter extension is tried first then the alias is missed. -/
theorem fileAlias?_misses :
    browserMap? listing = some [("./a", .string "./b.js")] ∧
      tree.canonical dir.path = .ok dir ∧ file.relativeTo? dir.path = some ⟨"a.min.js"⟩ ∧
      HasStemAlias listing (keyOf ⟨"a.min.js"⟩) ".min.js" (.replace "./b.js") ∧
      ¬ FirstAlias listing [".js", ".min.js"] (keyOf ⟨"a.min.js"⟩)
        (fileAlias? tree [".js", ".min.js"] listing dir.path file) := by
  have hstem : HasStemAlias listing (keyOf ⟨"a.min.js"⟩) ".min.js" (.replace "./b.js") :=
    ⟨"./a".toList, by decide, by decide⟩
  have hshadowed : Shadowed listing [".js", ".min.js"] (keyOf ⟨"a.min.js"⟩) :=
    ⟨by decide, [], ".js", [".min.js"], "./a.min".toList, rfl, nofun, by decide, by decide,
      ".min.js", List.mem_singleton_self _, _, hstem⟩
  have hnone : fileAlias? tree [".js", ".min.js"] listing dir.path file = none := by decide
  refine ⟨rfl, by decide, by decide, hstem, ?_⟩
  rw [hnone]
  exact hshadowed.not_firstAlias

end PackageMap.Resolve
