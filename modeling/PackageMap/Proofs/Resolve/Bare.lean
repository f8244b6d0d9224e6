import Mathlib.Data.List.TakeWhile
import PackageMap.Proofs.Resolve.Fields
import PackageMap.Proofs.Tree.Descent

/-!
# Bare specifiers

A bare specifier is the name of a package and, behind a slash, what is looked for in the package. It
stands for what the nearest directory with such a package has for it (`resolveBare_nearest`).
Packages that have nothing for it are passed over, and so are directories of installed packages.
-/

namespace PackageMap.Resolve

variable {t : Tree} {c : Conventions} {s : Search} {b : Bare} {dir : Path}

/-! ## The two parts -/

/-- The text before the first slash has no slash. -/
theorem count_cutAtSlash (cs : List Char) : (cutAtSlash cs).package.count '/' = 0 := by
  rw [List.count_eq_zero]
  unfold cutAtSlash
  split
  · next hnone =>
    intro hmem
    simpa using List.dropWhile_eq_nil_iff.1 hnone '/' hmem
  · intro hmem
    simpa using List.mem_takeWhile_imp hmem

theorem head?_cutAtSlash {a : Char} (ha : a ≠ '/') (cs : List Char) :
    (cutAtSlash (a :: cs)).package.head? = some a := by
  unfold cutAtSlash
  split
  · rfl
  · show ((a :: cs).takeWhile (· != '/')).head? = some a
    rw [List.takeWhile_cons_of_pos (by simpa using ha), List.head?_cons]

/-- The slashes that the name of a package has: one if it begins with an `@`. -/
def Bare.slashes (b : Bare) : Nat := if b.package.head? = some '@' then 1 else 0

theorem slashes_cutAtSlash {cs : List Char} (h : cs.head? ≠ some '@') :
    (cutAtSlash cs).slashes = 0 := by
  refine if_neg fun hhead => h ?_
  cases cs with
  | nil => cases hhead
  | cons a cs =>
    by_cases ha : a = '/'
    · subst ha
      cases hhead
    · rwa [head?_cutAtSlash ha cs] at hhead

/-- The name of a package has at most its slashes, and all of them if something follows it. -/
theorem count_splitBare (spec : List Char) :
    (splitBare spec).package.count '/' ≤ (splitBare spec).slashes ∧
      ((splitBare spec).subpath ≠ none →
        (splitBare spec).package.count '/' = (splitBare spec).slashes) := by
  have hcount := count_cutAtSlash spec
  have htext := text_cutAtSlash spec
  unfold splitBare
  split
  · next tail scope rest hcut =>
    have hat : scope.head? = some '@' := by
      have hhead := head?_cutAtSlash (show '@' ≠ '/' by decide) tail
      rwa [hcut] at hhead
    have hrest := count_cutAtSlash rest
    have hrestText := text_cutAtSlash rest
    rw [hcut] at hcount htext
    split
    · next name sub hname =>
      rw [hname] at hrest
      have hslashes : Bare.slashes ⟨scope ++ '/' :: name, some sub⟩ = 1 :=
        if_pos (by rw [List.head?_append, hat, Option.some_or])
      have hone : (scope ++ '/' :: name).count '/' = 1 := by
        rw [List.count_append, List.count_cons_self, hcount, hrest]
      rw [hslashes]
      exact ⟨Nat.le_of_eq hone, fun _ => hone⟩
    · next name hname =>
      rw [hname] at hrest hrestText
      have hslashes : Bare.slashes ⟨'@' :: tail, none⟩ = 1 := if_pos rfl
      have hone : ('@' :: tail).count '/' = 1 := by
        rw [← htext, ← hrestText]
        show (scope ++ '/' :: name).count '/' = 1
        rw [List.count_append, List.count_cons_self, hcount, hrest]
      rw [hslashes]
      exact ⟨Nat.le_of_eq hone, fun hsome => (hsome rfl).elim⟩
  · next hother =>
    rw [hcount]
    refine ⟨Nat.zero_le _, fun hsome => (slashes_cutAtSlash fun hat => ?_).symm⟩
    -- a specifier in a scope has no first slash here
    obtain ⟨tail, rfl⟩ := List.head?_eq_some_iff.1 hat
    obtain ⟨rest, hrest⟩ := Option.ne_none_iff_exists'.1 hsome
    exact hother tail _ rest rfl (congrArg (Bare.mk _) hrest)

/-- The name of a package is no absolute path. -/
theorem isAbsolute_package (spec : List Char) :
    (Path.mk (String.ofList (splitBare spec).package)).isAbsolute = false := by
  rw [Path.isAbsolute_ofList]
  refine beq_false_of_ne fun hhead => ?_
  have hslashes : (splitBare spec).slashes = 0 := if_neg (by rw [hhead]; decide)
  have hcount := (count_splitBare spec).1
  rw [hslashes, Nat.le_zero, List.count_eq_zero] at hcount
  exact hcount (List.mem_of_head? hhead)

/-! ## Installed packages -/

/-- The path of a package among those that are installed in a directory. -/
def packageIn (b : Bare) (dir : Path) : Path :=
  (dir.child modulesName).child (String.ofList b.package)

/-- The file that an installed package has for what is looked for in it. -/
def installedOf? (t : Tree) (c : Conventions) (package : Path) : Option (List Char) → Option Path
  | none => directoryOf? t c package
  | some [] => directoryOf? t c package
  | some sub => pathOf? t c (package.child (String.ofList sub))

theorem resolveInstalled_file? (h : Faithful t s.cache) (package : Path)
    (subpath : Option (List Char)) :
    (resolveInstalled t c package subpath s).1.file? = installedOf? t c package subpath := by
  match subpath with
  | none => exact resolveDirectory_file? h package
  | some [] => exact resolveDirectory_file? h package
  | some (a :: sub) => exact resolvePath_file? h (package.child (String.ofList (a :: sub)))

/-- There is a directory of installed packages in the directory. -/
def Offers (t : Tree) (dir : Path) : Prop :=
  dir.fileName? ≠ some modulesName ∧ t.isDirectory (dir.child modulesName) = true

instance (t : Tree) : DecidablePred (Offers t) := fun _ => inferInstanceAs (Decidable (_ ∧ _))

/-- A package is installed in the directory in which the specifier is resolved to a file. -/
def Provides (t : Tree) (c : Conventions) (b : Bare) (dir : Path) : Prop :=
  dir.fileName? ≠ some modulesName ∧ t.isDirectory (packageIn b dir) = true ∧
    (resolveInstalled t c (packageIn b dir) b.subpath ⟨none, [], []⟩).1.file?.isSome = true

instance (t : Tree) (c : Conventions) (b : Bare) : DecidablePred (Provides t c b) :=
  fun _ => inferInstanceAs (Decidable (_ ∧ _ ∧ _))

theorem provides_iff : Provides t c b dir ↔ dir.fileName? ≠ some modulesName ∧
    t.isDirectory (packageIn b dir) = true ∧
      ∃ file, installedOf? t c (packageIn b dir) b.subpath = some file := by
  unfold Provides
  rw [resolveInstalled_file? (faithful_none t), Option.isSome_iff_exists]

/-- A package is installed only where packages are. -/
theorem Provides.offers {spec : List Char} (h : Provides t c (splitBare spec) dir) :
    Offers t dir := by
  obtain ⟨hname, hpackage, -⟩ := h
  have hne : (dir.child modulesName).text ≠ "" := Path.text_child_ne_of_ne (by decide) dir
  exact ⟨hname, Tree.isDirectory_of_child hne (isAbsolute_package spec) hpackage⟩

/-! ## The nearest package -/

theorem faithful_resolveInstalled (h : Faithful t s.cache) (package : Path)
    (subpath : Option (List Char)) :
    Faithful t (resolveInstalled t c package subpath s).2.cache :=
  (steady_resolveInstalled package subpath).faithful h

/-- A directory without installed packages is passed over. -/
theorem resolveAmong_of_not_offers (h : ¬ Offers t dir) (found : Bool) (above : List Path) :
    resolveAmong t c b found (dir :: above) = resolveAmong t c b found above := by
  rw [resolveAmong]
  split
  · rfl
  · next hname =>
    have hmodules : t.isDirectory (dir.child modulesName) = false := by
      rw [← Bool.not_eq_true]
      exact fun hdirectory => h ⟨hname, hdirectory⟩
    dsimp only
    rw [hmodules, Bool.not_false, if_pos rfl]

/-- A directory with installed packages has the answer if it provides the package. If not, the
search goes on above it, and knows of installed packages. -/
theorem resolveAmong_of_offers (h : Faithful t s.cache) (hoffers : Offers t dir) (found : Bool)
    (above : List Path) :
    ∃ s', Faithful t s'.cache ∧ resolveAmong t c b found (dir :: above) s =
      if Provides t c b dir then resolveInstalled t c (packageIn b dir) b.subpath s'
      else resolveAmong t c b true above s' := by
  obtain ⟨hname, hmodules⟩ := hoffers
  have hnote := faithful_note h (packageIn b dir)
  rw [resolveAmong, if_neg hname]
  dsimp only
  rw [hmodules, Bool.not_true, if_neg Bool.false_ne_true, bind_apply, ← packageIn]
  cases hpackage : t.isDirectory (packageIn b dir) with
  | false =>
    have hnot : ¬ Provides t c b dir :=
      fun hprovides => Bool.false_ne_true (hpackage.symm.trans hprovides.2.1)
    exact ⟨_, hnote, (if_neg hnot).symm⟩
  | true =>
    have hfile := resolveInstalled_file? (c := c) hnote (packageIn b dir) b.subpath
    have hcache := faithful_resolveInstalled (c := c) hnote (packageIn b dir) b.subpath
    rw [Bool.not_true, if_neg Bool.false_ne_true, bind_apply]
    by_cases hprovides : Provides t c b dir
    · obtain ⟨-, -, file, hsome⟩ := provides_iff.1 hprovides
      rw [hsome, Outcome.file?_eq_some_iff] at hfile
      refine ⟨_, hnote, ?_⟩
      rw [if_pos hprovides, hfile]
      exact Prod.ext hfile.symm rfl
    · have hnone : installedOf? t c (packageIn b dir) b.subpath = none := by
        rw [Option.eq_none_iff_forall_ne_some]
        exact fun file hsome => hprovides (provides_iff.2 ⟨hname, hpackage, file, hsome⟩)
      rw [hnone] at hfile
      refine ⟨_, hcache, ?_⟩
      rw [if_neg hprovides]
      generalize resolveInstalled t c (packageIn b dir) b.subpath _ = found at hfile
      obtain ⟨o, s'⟩ := found
      cases o with
      | resolved file => cases hfile
      | ignored => rfl
      | unresolved reason => rfl

/-- The search ends in the first of the directories that provides the package. -/
theorem resolveAmong_of_find {spec : List Char} (h : Faithful t s.cache) (found : Bool)
    {dirs : List Path} (hfind : dirs.find? (Provides t c (splitBare spec)) = some dir) :
    ∃ s', Faithful t s'.cache ∧ resolveAmong t c (splitBare spec) found dirs s =
      resolveInstalled t c (packageIn (splitBare spec) dir) (splitBare spec).subpath s' := by
  induction dirs generalizing found s with
  | nil => cases hfind
  | cons first above ih =>
    rw [List.find?_cons] at hfind
    by_cases hprovides : Provides t c (splitBare spec) first
    · rw [decide_eq_true hprovides] at hfind
      obtain rfl := Option.some.inj hfind
      obtain ⟨s', hs', hturn⟩ := resolveAmong_of_offers h hprovides.offers found above
      rw [if_pos hprovides] at hturn
      exact ⟨s', hs', hturn⟩
    · rw [decide_eq_false hprovides] at hfind
      by_cases hoffers : Offers t first
      · obtain ⟨s', hs', hturn⟩ := resolveAmong_of_offers h hoffers found above
        rw [hturn, if_neg hprovides]
        exact ih hs' true hfind
      · rw [resolveAmong_of_not_offers hoffers]
        exact ih h found hfind

/-- Without a directory that provides the package it counts whether one offers packages. -/
theorem resolveAmong_of_none (h : Faithful t s.cache) (found : Bool) {dirs : List Path}
    (hnone : ∀ dir ∈ dirs, ¬ Provides t c b dir) :
    (resolveAmong t c b found dirs s).1 = .unresolved
      (if found = true ∨ ∃ dir ∈ dirs, Offers t dir then .notFound else .nodeModulesNotFound) := by
  induction dirs generalizing found s with
  | nil => cases found <;> rfl
  | cons dir above ih =>
    obtain ⟨hdir, habove⟩ := List.forall_mem_cons.1 hnone
    simp only [List.mem_cons, exists_eq_or_imp]
    by_cases hoffers : Offers t dir
    · obtain ⟨s', hs', hturn⟩ := resolveAmong_of_offers (c := c) (b := b) h hoffers found above
      rw [hturn, if_neg hdir, ih hs' true habove, if_pos (.inl rfl), if_pos (.inr (.inl hoffers))]
    · rw [resolveAmong_of_not_offers hoffers, ih h found habove]
      simp only [hoffers, false_or]

/--
A bare specifier is the name of a package and what follows a slash behind it; the name has no slash
of its own or, in a scope, one. The specifier is resolved in the nearest directory that provides the
package. If there is none it is unresolved, and the reason tells whether there are packages at all.
-/
theorem resolveBare_nearest (h : Faithful t s.cache) (dir : Path) (spec : String) :
    (splitBare spec.toList).text = spec.toList ∧
      (splitBare spec.toList).package.count '/' ≤ (splitBare spec.toList).slashes ∧
      ((splitBare spec.toList).subpath ≠ none →
        (splitBare spec.toList).package.count '/' = (splitBare spec.toList).slashes) ∧
      ((splitBare spec.toList).package ≠ [] → (splitBare spec.toList).package ≠ ['@'] →
        match dir.ancestors.find? (Provides t c (splitBare spec.toList)) with
        | some nearest => ∃ s' file, Faithful t s'.cache ∧
            resolveBare t c dir spec s = resolveInstalled t c
              (packageIn (splitBare spec.toList) nearest) (splitBare spec.toList).subpath s' ∧
            (resolveBare t c dir spec s).1 = .resolved file
        | none => (resolveBare t c dir spec s).1 = .unresolved
            (if ∃ a ∈ dir.ancestors, Offers t a then .notFound else .nodeModulesNotFound)) := by
  refine ⟨text_splitBare _, (count_splitBare _).1, (count_splitBare _).2, ?_⟩
  intro hempty hat
  have hbare : resolveBare t c dir spec =
      resolveAmong t c (splitBare spec.toList) false dir.ancestors :=
    if_neg (not_or.2 ⟨hempty, hat⟩)
  rw [hbare]
  cases hfind : dir.ancestors.find? (Provides t c (splitBare spec.toList)) with
  | some nearest =>
    obtain ⟨s', hs', hinstalled⟩ := resolveAmong_of_find h false hfind
    have hprovides : Provides t c (splitBare spec.toList) nearest := by
      simpa using List.find?_some hfind
    obtain ⟨-, -, file, hfile⟩ := provides_iff.1 hprovides
    rw [← resolveInstalled_file? hs', Outcome.file?_eq_some_iff, ← hinstalled] at hfile
    exact ⟨s', file, hs', hinstalled, hfile⟩
  | none =>
    have hnone : ∀ a ∈ dir.ancestors, ¬ Provides t c (splitBare spec.toList) a := by
      simpa using List.find?_eq_none.1 hfind
    rw [resolveAmong_of_none h false hnone]
    simp only [Bool.false_eq_true, false_or]

/-- A package in a scope that is installed twice, in the root and closer, where it has no file; and
another beside it, in a directory of installed packages. -/
def nestedPackages : Tree where
  entries :=
    [([⟨"node_modules", .refl true⟩], .directory),
      ([⟨"@s", .refl true⟩, ⟨"node_modules", .refl true⟩], .directory),
      ([⟨"p", .refl true⟩, ⟨"@s", .refl true⟩, ⟨"node_modules", .refl true⟩], .directory),
      ([⟨"a.js", .refl true⟩, ⟨"p", .refl true⟩, ⟨"@s", .refl true⟩, ⟨"node_modules", .refl true⟩],
        .file "".toUTF8),
      ([⟨"x", .refl true⟩], .directory),
      ([⟨"node_modules", .refl true⟩, ⟨"x", .refl true⟩], .directory),
      ([⟨"@s", .refl true⟩, ⟨"node_modules", .refl true⟩, ⟨"x", .refl true⟩], .directory),
      ([⟨"p", .refl true⟩, ⟨"@s", .refl true⟩, ⟨"node_modules", .refl true⟩, ⟨"x", .refl true⟩],
        .directory),
      ([⟨"q", .refl true⟩, ⟨"node_modules", .refl true⟩, ⟨"x", .refl true⟩], .directory)]
  cwd := []

/-- The closer package is passed over. -/
theorem resolveBare_nearest_scoped :
    Faithful nestedPackages none ∧ (splitBare "@s/p/a".toList).subpath ≠ none ∧
      (splitBare "@s/p/a".toList).package.count '/' = (splitBare "@s/p/a".toList).slashes ∧
      (splitBare "@s/p/a".toList).package ≠ [] ∧
      (splitBare "@s/p/a".toList).package ≠ ['@'] ∧
      (Path.ancestors ⟨"/x/node_modules/q"⟩).find?
        (Provides nestedPackages {} (splitBare "@s/p/a".toList)) = some ⟨"/"⟩ ∧
      (resolveBare nestedPackages {} ⟨"/x/node_modules/q"⟩ "@s/p/a" ⟨none, [], []⟩).1 =
        .resolved ⟨"/node_modules/@s/p/a.js"⟩ := by
  have hfind : (Path.ancestors ⟨"/x/node_modules/q"⟩).find?
      (Provides nestedPackages {} (splitBare "@s/p/a".toList)) = some ⟨"/"⟩ := by decide +kernel
  have hinstalled : installedOf? nestedPackages {} (packageIn (splitBare "@s/p/a".toList) ⟨"/"⟩)
      (splitBare "@s/p/a".toList).subpath = some ⟨"/node_modules/@s/p/a.js"⟩ := by decide
  obtain ⟨-, -, hcount, hnearest⟩ := resolveBare_nearest (c := {}) (s := ⟨none, [], []⟩)
    (faithful_none nestedPackages) ⟨"/x/node_modules/q"⟩ "@s/p/a"
  rw [hfind] at hnearest
  obtain ⟨s', file, hs', hequal, -⟩ := hnearest (by decide) (by decide)
  have hsubpath : (splitBare "@s/p/a".toList).subpath ≠ none := by decide
  refine ⟨faithful_none _, hsubpath, hcount hsubpath, by decide, by decide, hfind, ?_⟩
  rw [hequal, ← Outcome.file?_eq_some_iff, resolveInstalled_file? hs']
  exact hinstalled

end PackageMap.Resolve
