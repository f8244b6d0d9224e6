import PackageMap.Proofs.Resolve.Bare
import PackageMap.Proofs.Resolve.Calls
import PackageMap.Proofs.Tree.Inside

/-!
# Files of a package

Without links, entry fields and browser maps, what a bare specifier names inside a package is found
in the directory of the package or below (`run_contained`), unless it begins with a slash: then it
is a path from the root, and the package does not count (`run_leaves_package`).
-/

namespace PackageMap.Resolve

variable {t : Tree} {c : Conventions} {s : Search} {p q dir f : Path} {above loc : Location}

/-! ## Trees without fields -/

/-- No manifest has a field that names an entry, nor one for aliases. -/
structure Undeclared (t : Tree) (c : Conventions) : Prop where
  fields : ∀ (dir : Path) (manifest : Json),
    parseManifest t (dir.child manifestName) = some manifest →
      ∀ field ∈ c.mainFields, manifest.get? field = none
  browser : ∀ (dir : Path) (manifest : Json),
    parseManifest t (dir.child manifestName) = some manifest → manifest.get? "browser" = none

theorem Undeclared.noBrowserMaps (h : Undeclared t c) : NoBrowserMaps t := by
  intro dir manifest hmanifest
  unfold browserMap?
  rw [h.browser dir manifest hmanifest]
  rfl

theorem Undeclared.manifestOf? (h : Undeclared t c) (dir : Path) :
    manifestOf? t c dir = none := by
  unfold Resolve.manifestOf?
  cases hmanifest : parseManifest t (dir.child manifestName) with
  | none => rfl
  | some manifest =>
    have hpaths : fieldPaths dir manifest c.mainFields = [] := by
      refine List.filterMap_eq_nil_iff.2 fun field hfield => ?_
      unfold Json.getString?
      rw [h.fields dir manifest hmanifest field hfield]
      rfl
    rw [Option.bind_some, hpaths]
    rfl

/-- Files that are empty or hold an empty object declare nothing. -/
theorem undeclared_of_texts (h : ∀ loc bytes, (loc, Entry.file bytes) ∈ t.entries →
    bytes = "".toUTF8 ∨ bytes = "\x7b\x7d".toUTF8) : Undeclared t c := by
  have hmanifest (p : Path) (manifest : Json) (hread : parseManifest t p = some manifest) :
      manifest = .object [] := by
    have htexts : ∀ loc bytes, (loc, Entry.file bytes) ∈ t.entries →
        ∃ text ∈ ["", "\x7b\x7d"], bytes = text.toUTF8 := by
      intro loc bytes hmem
      rcases h loc bytes hmem with rfl | rfl <;> exact ⟨_, by decide, rfl⟩
    obtain ⟨text, htext, hj⟩ := exists_text_of_parseManifest htexts hread
    simp only [List.mem_cons, List.not_mem_nil, or_false] at htext
    rcases htext with rfl | rfl
    · have hempty : Json.ofText? "" = none := by cbv
      rw [hempty] at hj
      cases hj
    · have hobject : Json.ofText? "\x7b\x7d" = some (.object []) := by cbv
      exact Option.some.inj (hj.symm.trans hobject)
  constructor
  case fields =>
    intro dir manifest hread field _
    rw [hmanifest _ _ hread]
    rfl
  case browser =>
    intro dir manifest hread
    rw [hmanifest _ _ hread]
    rfl

/-- A directory stands for its index file. -/
theorem Undeclared.indexOf? (h : Undeclared t c) (hf : directoryOf? t c dir = some f) :
    t.isDirectory dir = true ∧ indexOf? t c dir = some f := by
  unfold directoryOf? at hf
  split at hf
  · next hdir =>
    rw [h.manifestOf?, Option.none_or] at hf
    exact ⟨hdir, hf⟩
  · cases hf

theorem bareAlias?_of_no_maps (hmaps : NoBrowserMaps t) (h : Faithful t s.cache) (dir : Path)
    (spec : String) : (bareAlias? t dir spec s).1 = none := by
  unfold bareAlias?
  split
  · have hpackage := (steady_enclosingAmong dir.ancestors).holds h
    rw [bind_apply]
    unfold enclosingPackage
    generalize enclosingAmong t dir.ancestors s = found at hpackage
    obtain ⟨_ | ⟨package, manifest⟩, s'⟩ := found
    · rfl
    · have hmap : browserMap? manifest = none :=
        hmaps package manifest (hpackage (package, manifest) (Option.mem_some_self _))
      have halias : alias? manifest spec = none := by
        unfold alias?
        rw [hmap]
        rfl
      show (alias? manifest spec).map _ = none
      rw [halias]
      rfl
  · rfl

/-- Without browser maps a bare specifier stands for what is found in the packages. -/
theorem exists_search_eq (hmaps : NoBrowserMaps t) (h : Faithful t s.cache) (dir : Path)
    {spec : String} (hspec : spec ≠ "") (hscheme : hasScheme spec = false)
    (hbare : isBare spec = true) :
    ∃ s', Faithful t s'.cache ∧ (search t c dir spec s).1 = (resolveBare t c dir spec s').1 := by
  have hspecifier : resolveSpecifier t c dir spec = resolveBare t c dir spec := by
    unfold isBare at hbare
    rw [Bool.and_eq_true, Bool.not_eq_true', Bool.not_eq_true'] at hbare
    unfold resolveSpecifier
    rw [hbare.1, hbare.2, if_neg Bool.false_ne_true, if_neg Bool.false_ne_true]
  have hnone := bareAlias?_of_no_maps hmaps h dir spec
  have hs' : Faithful t (bareAlias? t dir spec s).2.cache :=
    (steady_bareAlias? dir spec).faithful h
  refine ⟨(bareAlias? t dir spec s).2, hs', ?_⟩
  unfold search
  rw [if_neg hspec, if_neg (by simp [hscheme]), bind_apply, hnone]
  dsimp only
  rw [bind_apply, hspecifier]
  have hs'' : Faithful t (resolveBare t c dir spec (bareAlias? t dir spec s).2).2.cache :=
    (steady_resolveBare dir spec).faithful hs'
  generalize resolveBare t c dir spec (bareAlias? t dir spec s).2 = found at hs''
  obtain ⟨o, s''⟩ := found
  cases o with
  | resolved file => exact applyAlias_of_no_maps hmaps hs'' file
  | ignored => rfl
  | unresolved reason => rfl

theorem ne_and_hasScheme_of_resolved {spec : String}
    (hf : (search t c dir spec s).1 = .resolved f) : spec ≠ "" ∧ hasScheme spec = false := by
  unfold search at hf
  split at hf
  · cases hf
  next hspec =>
  split at hf
  · cases hf
  next hscheme => exact ⟨hspec, by simpa using hscheme⟩

/-! ## Below a directory -/

/-- A file that a path leads to, or that it is the canonical path of, lies in the directory or
below. -/
def LiesIn (t : Tree) (above : Location) (f : Path) : Prop :=
  ∃ (loc : Location) (bytes : ByteArray), above <:+ loc ∧ t.entry? loc = some (.file bytes) ∧
    (f = loc.path ∨ t.locate f = .ok loc)

theorem LiesIn.mono {below : Location} (h : LiesIn t below f) (hbelow : above <:+ below) :
    LiesIn t above f := by
  obtain ⟨loc, bytes, hloc, hfile⟩ := h
  exact ⟨loc, bytes, hbelow.trans hloc, hfile⟩

theorem liesIn_canonicalOrSelf (hq : t.isFile q = true)
    (h : ∀ loc, t.file? q = some loc → above <:+ loc) : LiesIn t above (t.canonicalOrSelf q) := by
  obtain ⟨loc, hloc, hc⟩ := Tree.canonicalOrSelf_of_isFile hq
  obtain ⟨hl, bytes, he⟩ := Tree.file?_eq_some_iff.1 hloc
  refine ⟨loc, bytes, h loc hloc, he, ?_⟩
  obtain ⟨-, hpath⟩ | ⟨-, hself⟩ := hc
  · exact .inl hpath
  · exact .inr (by rw [hself, hl])

/-- The texts that complete a path have no slashes. -/
structure Slashless (c : Conventions) : Prop where
  index : '/' ∉ c.indexFile.toList
  extension : ∀ ext ∈ c.extensions, '/' ∉ ext.toList

/-- The index file of a directory lies in it. -/
theorem liesIn_of_indexOf? (hl : t.Unlinked) (hc : Slashless c) (hp : p.text ≠ "")
    (hdir : t.directory? p = some above) (htail : t.entry? above.tail = some .directory)
    (hf : indexOf? t c p = some f) : LiesIn t above f := by
  obtain ⟨q, hq, rfl⟩ := Option.map_eq_some_iff.1 hf
  obtain ⟨ext, hext, rfl⟩ := List.mem_map.1 (List.mem_of_find?_eq_some hq)
  have hslash : '/' ∉ (c.indexFile ++ ext).toList := by
    rw [String.toList_append, List.mem_append, not_or]
    exact ⟨hc.index, hc.extension ext hext⟩
  refine liesIn_canonicalOrSelf (List.find?_some hq) fun loc hloc => ?_
  have hsegments : Path.segments (c.indexFile ++ ext).toList =
      [] ++ [(c.indexFile ++ ext).toList] := Path.segments_of_not_mem hslash
  exact hl.suffix_of_child hp hdir htail hsegments nofun (Path.isAbsolute_of_not_mem hslash) hloc

/-- No part of the text between slashes stands for the directory itself or the one above. -/
def NoDots (cs : List Char) : Prop := ∀ seg ∈ Path.segments cs, seg ≠ ['.'] ∧ seg ≠ ['.', '.']

instance (cs : List Char) : Decidable (NoDots cs) := inferInstanceAs (Decidable (∀ _ ∈ _, _))

/-- What is named inside a directory, without dots, is found there. -/
theorem liesIn_of_pathOf? (hl : t.Unlinked) (hu : Undeclared t c) (hc : Slashless c)
    (hp : p.text ≠ "") (hdir : t.directory? p = some above)
    (htail : t.entry? above.tail = some .directory) {sub : String} (hne : sub ≠ "")
    (hsub : (Path.mk sub).isAbsolute = false) (hdots : NoDots sub.toList)
    (hf : pathOf? t c (p.child sub) = some f) : LiesIn t above f := by
  obtain ⟨init, last, hsegments⟩ := Path.exists_segments_eq sub.toList
  have hinit : ∀ seg ∈ init, seg ≠ ['.', '.'] := fun seg hseg =>
    (hdots seg (hsegments ▸ List.mem_append_left _ hseg)).2
  rcases Option.or_eq_some_iff.1 hf with hfile | ⟨-, hdirectory⟩
  · obtain ⟨q, hq, rfl⟩ := Option.map_eq_some_iff.1 hfile
    refine liesIn_canonicalOrSelf (List.find?_some hq) fun loc hloc => ?_
    rcases List.mem_cons.1 (List.mem_of_find?_eq_some hq) with rfl | hmem
    · exact hl.suffix_of_child hp hdir htail hsegments hinit hsub hloc
    · obtain ⟨ext, hext, rfl⟩ := List.mem_map.1 hmem
      rw [Path.append_child p hne] at hloc
      have hends : Path.segments (sub ++ ext).toList = init ++ [last ++ ext.toList] := by
        rw [String.toList_append]
        exact Path.segments_append_of_not_mem hsegments (hc.extension ext hext)
      have hrelative : (Path.mk (sub ++ ext)).isAbsolute = false := by
        rw [Path.isAbsolute_append_of_ne hne]
        exact hsub
      exact hl.suffix_of_child hp hdir htail hends hinit hrelative hloc
  · obtain ⟨hisdir, hindex⟩ := hu.indexOf? hdirectory
    obtain ⟨below, hbelow⟩ := Option.isSome_iff_exists.1 hisdir
    obtain ⟨j, dir, hdir', hway⟩ :=
      Tree.exists_leads_of_child hp hsub (Tree.directory?_eq_some_iff.1 hbelow).1
    obtain rfl := Option.some.inj (hdir.symm.trans hdir')
    have hup := Tree.up_not_mem_stepsAfter fun seg hseg => (hdots seg hseg).2
    obtain ⟨hsuffix, htail'⟩ := hl.suffix_of_leads hway hup
    have hne' : (p.child sub).text ≠ "" := Path.text_child_ne_of_ne hne p
    exact (liesIn_of_indexOf? hl hc hne' hbelow (htail' htail) hindex).mono hsuffix

/-- An installed package is a directory in a directory. -/
theorem entry?_tail_package (hl : t.Unlinked) {spec : List Char}
    (hempty : (splitBare spec).package ≠ []) (hdots : NoDots (splitBare spec).package)
    (hpackage : t.directory? (packageIn (splitBare spec) dir) = some above) :
    t.entry? above.tail = some .directory := by
  have hrelative := isAbsolute_package spec
  obtain ⟨j, modules, -, hway⟩ := Tree.exists_leads_of_child
    (Path.text_child_ne_of_ne (by decide) dir) hrelative
    (Tree.directory?_eq_some_iff.1 hpackage).1
  rw [← String.toList_ofList (l := (splitBare spec).package)] at hempty hdots
  generalize String.ofList (splitBare spec).package = name at *
  have hhead : name.toList.head? ≠ some '/' := fun hslash => by
    rw [Path.isAbsolute, hslash] at hrelative
    cases hrelative
  obtain ⟨seg, ss, hsegments, hseg⟩ := Path.exists_segments_eq_cons hempty hhead
  obtain ⟨hdot, hdotdot⟩ := hdots seg (hsegments ▸ List.mem_cons_self)
  obtain ⟨rest, hsteps⟩ := Tree.exists_stepsAfter_eq_cons hsegments hseg hdot hdotdot
  have hup := Tree.up_not_mem_stepsAfter fun seg hseg => (hdots seg hseg).2
  rw [hsteps] at hway hup
  exact hl.entry?_tail_of_name hway fun hmem => hup (List.mem_cons_of_mem _ hmem)

/-- What is found in a package for a bare specifier lies in the package, unless what follows the
name begins with a slash. -/
theorem liesIn_of_installedOf? (hl : t.Unlinked) (hu : Undeclared t c) (hc : Slashless c)
    (hp : p.text ≠ "") (hdir : t.directory? p = some above)
    (htail : t.entry? above.tail = some .directory) {sub : List Char}
    (hslash : sub.head? ≠ some '/') (hdots : NoDots sub)
    (hf : installedOf? t c p (some sub) = some f) : LiesIn t above f := by
  match sub with
  | [] => exact liesIn_of_indexOf? hl hc hp hdir htail (hu.indexOf? hf).2
  | a :: rest =>
    have hne : String.ofList (a :: rest) ≠ "" := by simp
    have hrelative : (Path.mk (String.ofList (a :: rest))).isAbsolute = false :=
      (Path.isAbsolute_ofList _).trans (beq_false_of_ne hslash)
    refine liesIn_of_pathOf? hl hu hc hp hdir htail hne hrelative ?_ hf
    rwa [String.toList_ofList]

/-! ## What is looked for in a package -/

variable {cache : Option ManifestCache}

/-- A bare specifier stands for what the nearest package has for it. -/
theorem run_file? (hmaps : NoBrowserMaps t) (h : Faithful t cache) {spec : String}
    (hspec : spec ≠ "") (hscheme : hasScheme spec = false) (hbare : isBare spec = true)
    (hname : ¬ ((splitBare spec.toList).package = [] ∨ (splitBare spec.toList).package = ['@']))
    {a : Path} (hfind : dir.ancestors.find? (Provides t c (splitBare spec.toList)) = some a) :
    ((Call.specifier c dir spec).run t cache).1.outcome.file? =
      installedOf? t c (packageIn (splitBare spec.toList) a) (splitBare spec.toList).subpath := by
  obtain ⟨s, hs, hsearch⟩ :=
    exists_search_eq (c := c) (s := ⟨cache, [], []⟩) hmaps h dir hspec hscheme hbare
  have hbareEq : resolveBare t c dir spec =
      resolveAmong t c (splitBare spec.toList) false dir.ancestors := if_neg hname
  obtain ⟨s', hs', hinstalled⟩ := resolveAmong_of_find hs false hfind
  show (search t c dir spec ⟨cache, [], []⟩).1.file? = _
  rw [hsearch, hbareEq, hinstalled, resolveInstalled_file? hs']

/-- A resolved bare specifier is found in the installed package of a directory at or above. -/
theorem exists_installedOf? (hmaps : NoBrowserMaps t) (h : Faithful t cache) {spec : String}
    (hbare : isBare spec = true)
    (hf : ((Call.specifier c dir spec).run t cache).1.outcome = .resolved f) :
    (splitBare spec.toList).package ≠ [] ∧ ∃ a ∈ dir.ancestors,
      t.isDirectory (packageIn (splitBare spec.toList) a) = true ∧
        installedOf? t c (packageIn (splitBare spec.toList) a)
          (splitBare spec.toList).subpath = some f := by
  obtain ⟨hspec, hscheme⟩ := ne_and_hasScheme_of_resolved hf
  obtain ⟨s, hs, hsearch⟩ :=
    exists_search_eq (c := c) (s := ⟨cache, [], []⟩) hmaps h dir hspec hscheme hbare
  have hresolved : (resolveBare t c dir spec s).1 = .resolved f := hsearch.symm.trans hf
  unfold resolveBare at hresolved
  split at hresolved
  · cases hresolved
  · next hname =>
    obtain ⟨hempty, -⟩ := not_or.1 hname
    cases hfind : dir.ancestors.find? (Provides t c (splitBare spec.toList)) with
    | none =>
      have hnone : ∀ a ∈ dir.ancestors, ¬ Provides t c (splitBare spec.toList) a := by
        simpa using List.find?_eq_none.1 hfind
      rw [resolveAmong_of_none hs false hnone] at hresolved
      cases hresolved
    | some a =>
      have hprovides : Provides t c (splitBare spec.toList) a := by
        simpa using List.find?_some hfind
      have hfile := run_file? hmaps h hspec hscheme hbare hname hfind
      rw [hf] at hfile
      exact ⟨hempty, a, List.mem_of_find?_eq_some hfind, hprovides.2.1, hfile.symm⟩

/--
A file that a bare specifier names inside a package lies in the package, as it is installed in a
directory at or above the one that the specifier is seen from. In a tree without links, entry fields
and browser maps this holds of every specifier without dots whose second part does not begin with a
slash. One that begins with a slash is resolved as an absolute path.
-/
theorem run_contained (hl : t.Unlinked) (hu : Undeclared t c) (hc : Slashless c)
    (h : Faithful t cache) (dir : Path) {spec : String} (hbare : isBare spec = true)
    {sub : List Char} (hsub : (splitBare spec.toList).subpath = some sub)
    (hname : NoDots (splitBare spec.toList).package) (hdots : NoDots sub)
    (hf : ((Call.specifier c dir spec).run t cache).1.outcome = .resolved f) :
    if sub.head? = some '/' then
      (resolvePath t c ⟨String.ofList sub⟩ ⟨none, [], []⟩).1 = .resolved f
    else
      ∃ a ∈ dir.ancestors, ∃ above : Location,
        t.directory? (packageIn (splitBare spec.toList) a) = some above ∧ LiesIn t above f := by
  obtain ⟨hempty, a, ha, hisdir, hinstalled⟩ := exists_installedOf? hu.noBrowserMaps h hbare hf
  obtain ⟨above, hdir⟩ := Option.isSome_iff_exists.1 hisdir
  rw [hsub] at hinstalled
  split
  · next hslash =>
    obtain ⟨rest, rfl⟩ := List.head?_eq_some_iff.1 hslash
    have habs : (Path.mk (String.ofList ('/' :: rest))).isAbsolute = true :=
      Path.isAbsolute_ofList _
    unfold installedOf? at hinstalled
    dsimp only at hinstalled
    rw [Path.child_of_isAbsolute habs, ← resolvePath_file? (s := ⟨none, [], []⟩) (faithful_none t),
      Outcome.file?_eq_some_iff] at hinstalled
    exact hinstalled
  · next hslash =>
    have hp : (packageIn (splitBare spec.toList) a).text ≠ "" :=
      Path.text_child_ne_of_ne (by simpa using hempty) _
    have htail := entry?_tail_package hl hempty hname hdir
    exact ⟨a, ha, above, hdir,
      liesIn_of_installedOf? hl hu hc hp hdir htail hslash hdots hinstalled⟩

/-- A package in a scope with an empty manifest. -/
def plainPackage : Tree where
  entries :=
    [([⟨"a", .refl true⟩], .directory),
      ([⟨"node_modules", .refl true⟩], .directory),
      ([⟨"@s", .refl true⟩, ⟨"node_modules", .refl true⟩], .directory),
      ([⟨"p", .refl true⟩, ⟨"@s", .refl true⟩, ⟨"node_modules", .refl true⟩], .directory),
      ([⟨"package.json", .refl true⟩, ⟨"p", .refl true⟩, ⟨"@s", .refl true⟩,
        ⟨"node_modules", .refl true⟩], .file "\x7b\x7d".toUTF8),
      ([⟨"lib", .refl true⟩, ⟨"p", .refl true⟩, ⟨"@s", .refl true⟩, ⟨"node_modules", .refl true⟩],
        .directory),
      ([⟨"index.js", .refl true⟩, ⟨"lib", .refl true⟩, ⟨"p", .refl true⟩, ⟨"@s", .refl true⟩,
        ⟨"node_modules", .refl true⟩], .file "".toUTF8)]
  cwd := []

theorem slashless_default : Slashless {} := ⟨by decide, by decide⟩

theorem undeclared_plainPackage : Undeclared plainPackage {} := by
  refine undeclared_of_texts fun loc bytes hmem => ?_
  simp only [plainPackage, List.mem_cons, Prod.mk.injEq, List.not_mem_nil, or_false,
    reduceCtorEq, and_false, false_or, Entry.file.injEq] at hmem
  rcases hmem with ⟨-, rfl⟩ | ⟨-, rfl⟩
  · exact .inr rfl
  · exact .inl rfl

/-- A file that is named with repeated slashes lies in its package. -/
theorem run_contained_scoped :
    plainPackage.Unlinked ∧ Undeclared plainPackage {} ∧ Slashless {} ∧
      Faithful plainPackage none ∧ isBare "@s/p/lib//" = true ∧
      (splitBare "@s/p/lib//".toList).subpath = some "lib//".toList ∧
      NoDots (splitBare "@s/p/lib//".toList).package ∧ NoDots "lib//".toList ∧
      ((Call.specifier {} ⟨"/a"⟩ "@s/p/lib//").run plainPackage none).1.outcome =
        .resolved ⟨"/node_modules/@s/p/lib/index.js"⟩ ∧
      ∃ a ∈ Path.ancestors ⟨"/a"⟩, ∃ above : Location,
        plainPackage.directory? (packageIn (splitBare "@s/p/lib//".toList) a) = some above ∧
          LiesIn plainPackage above ⟨"/node_modules/@s/p/lib/index.js"⟩ := by
  have hl : plainPackage.Unlinked := by simp [Tree.Unlinked, plainPackage]
  have hfind : (Path.ancestors ⟨"/a"⟩).find?
      (Provides plainPackage {} (splitBare "@s/p/lib//".toList)) = some ⟨"/"⟩ := by decide +kernel
  have hf : ((Call.specifier {} ⟨"/a"⟩ "@s/p/lib//").run plainPackage none).1.outcome =
      .resolved ⟨"/node_modules/@s/p/lib/index.js"⟩ := by
    rw [← Outcome.file?_eq_some_iff, run_file? undeclared_plainPackage.noBrowserMaps
      (faithful_none _) (by decide) (by decide) (by decide) (by decide) hfind]
    decide +kernel
  have hsub : (splitBare "@s/p/lib//".toList).subpath = some "lib//".toList := by decide
  exact ⟨hl, undeclared_plainPackage, slashless_default, faithful_none _, by decide, hsub,
    by decide, by decide, hf,
    run_contained hl undeclared_plainPackage slashless_default (faithful_none _) ⟨"/a"⟩ (by decide)
      hsub (by decide) (by decide) hf⟩

/-- A file of a package and one of the same name in the root. -/
def sameNames : Tree where
  entries :=
    [([⟨"node_modules", .refl true⟩], .directory),
      ([⟨"p", .refl true⟩, ⟨"node_modules", .refl true⟩], .directory),
      ([⟨"x.js", .refl true⟩, ⟨"p", .refl true⟩, ⟨"node_modules", .refl true⟩], .file "".toUTF8),
      ([⟨"x.js", .refl true⟩], .file "".toUTF8)]
  cwd := []

theorem undeclared_sameNames : Undeclared sameNames {} := by
  refine undeclared_of_texts fun loc bytes hmem => ?_
  simp only [sameNames, List.mem_cons, Prod.mk.injEq, List.not_mem_nil, or_false,
    reduceCtorEq, and_false, false_or, Entry.file.injEq] at hmem
  rcases hmem with ⟨-, rfl⟩ | ⟨-, rfl⟩ <;> exact .inl rfl

/-- The second slash makes what follows it a path from the root, where there is a file too. -/
theorem run_leaves_package :
    sameNames.Unlinked ∧ Undeclared sameNames {} ∧ Slashless {} ∧ isBare "p//x.js" = true ∧
      splitBare "p//x.js".toList = ⟨['p'], some "/x.js".toList⟩ ∧ NoDots ['p'] ∧
      NoDots "/x.js".toList ∧
      ((Call.specifier {} ⟨"/"⟩ "p//x.js").run sameNames none).1.outcome = .resolved ⟨"/x.js"⟩ ∧
      ¬ ∃ a ∈ Path.ancestors ⟨"/"⟩, ∃ above : Location,
        sameNames.directory? (packageIn (splitBare "p//x.js".toList) a) = some above ∧
          LiesIn sameNames above ⟨"/x.js"⟩ := by
  have hfind : (Path.ancestors ⟨"/"⟩).find?
      (Provides sameNames {} (splitBare "p//x.js".toList)) = some ⟨"/"⟩ := by decide +kernel
  have hf : ((Call.specifier {} ⟨"/"⟩ "p//x.js").run sameNames none).1.outcome =
      .resolved ⟨"/x.js"⟩ := by
    rw [← Outcome.file?_eq_some_iff, run_file? undeclared_sameNames.noBrowserMaps
      (faithful_none _) (by decide) (by decide) (by decide) (by decide) hfind]
    decide +kernel
  refine ⟨by simp [Tree.Unlinked, sameNames], undeclared_sameNames, slashless_default, by decide,
    by decide, by decide, by decide, hf, ?_⟩
  rintro ⟨a, ha, above, hdir, loc, bytes, hbelow, -, hloc⟩
  have hroot : Path.ancestors ⟨"/"⟩ = [⟨"/"⟩] := by decide
  rw [hroot, List.mem_singleton] at ha
  subst ha
  have hpackage : sameNames.directory? (packageIn (splitBare "p//x.js".toList) ⟨"/"⟩) =
      some [⟨"p", by decide⟩, ⟨"node_modules", by decide⟩] := by decide
  obtain rfl := Option.some.inj (hpackage.symm.trans hdir)
  have hfile : sameNames.locate ⟨"/x.js"⟩ = .ok [⟨"x.js", by decide⟩] := by decide
  have hname : loc = [⟨"x.js", by decide⟩] := by
    rcases hloc with hpath | hloc
    · refine Tree.eq_of_same_path ?_
      rw [← hpath]
      decide
    · exact Except.ok.inj (hloc.symm.trans hfile)
  subst hname
  exact absurd hbelow.length_le (by decide)

end PackageMap.Resolve
