import PackageMap.Proofs.Resolve.Calls
import PackageMap.Proofs.Resolve.Entry

/-!
# Files that browser maps replace or drop

On every way through the resolver the file that is found goes through the browser map of its own
package, once. So a file with an alias of its own is given only if the replacement is not found, or
as the replacement of another file (`run_follows_maps`), and a file that its package drops is given
only as the latter.
-/

namespace PackageMap.Resolve

variable {α : Type} {t : Tree} {c : Conventions} {p file : Path} {cache : Option ManifestCache}

/-! ## Aliases of files -/

/-- The package that a file belongs to, and the alias that its browser map has for the file. -/
def ownAlias? (t : Tree) (c : Conventions) (file : Path) : Option (Path × Alias) :=
  match file.parent? with
  | none => none
  | some dir =>
    match (enclosingPackage t dir ⟨none, [], []⟩).1 with
    | none => none
    | some (package, manifest) =>
      (fileAlias? t c.extensions manifest package file).map fun a => (package, a)

/-- The file that the target of a replacement leads to, as it is seen from the package. -/
def replacement? (t : Tree) (c : Conventions) (package : Path) (target : String) : Option Path :=
  (resolvePath t c (package.child target) ⟨none, [], []⟩).1.file?

/-- The file's own package has another file in its place. -/
def ReplacedBy (t : Tree) (c : Conventions) (file p : Path) : Prop :=
  ∃ package target, ownAlias? t c file = some (package, .replace target) ∧
    replacement? t c package target = some p

/-- The file's own package has no alias for it, or a replacement that is not found. -/
def Kept (t : Tree) (c : Conventions) (file : Path) : Prop :=
  ownAlias? t c file = none ∨ ∃ package target,
    ownAlias? t c file = some (package, .replace target) ∧ replacement? t c package target = none

theorem ownAlias?_of_enclosing {dir : Path} (hdir : file.parent? = some dir) :
    ownAlias? t c file = (enclosingOf? t dir.ancestors).bind fun found =>
      (fileAlias? t c.extensions found.2 found.1 file).map fun a => (found.1, a) := by
  have hpackage : (enclosingPackage t dir ⟨none, [], []⟩).1 = enclosingOf? t dir.ancestors :=
    enclosingAmong_fst (faithful_none t) dir.ancestors
  unfold ownAlias?
  rw [hdir]
  dsimp only
  rw [hpackage]
  cases enclosingOf? t dir.ancestors with
  | none => rfl
  | some found => rfl

theorem replacement?_eq (package : Path) (target : String) :
    replacement? t c package target = pathOf? t c (package.child target) :=
  resolvePath_file? (faithful_none t) (package.child target)

/-- A file is itself, nothing or its replacement, as its own alias says. -/
theorem aliasOf?_eq (file : Path) : aliasOf? t c file =
    match ownAlias? t c file with
    | none => some file
    | some (_, .ignore) => none
    | some (package, .replace target) => (replacement? t c package target).or (some file) := by
  cases hdir : file.parent? with
  | none =>
    unfold aliasOf? ownAlias?
    rw [hdir]
    rfl
  | some dir =>
    rw [ownAlias?_of_enclosing hdir]
    unfold aliasOf?
    rw [hdir, Option.bind_some]
    cases enclosingOf? t dir.ancestors with
    | none => rfl
    | some found =>
      dsimp only [Option.bind_some]
      cases fileAlias? t c.extensions found.2 found.1 file with
      | none => rfl
      | some a =>
        cases a with
        | ignore => rfl
        | replace target => exact congrArg (Option.or · (some file)) (replacement?_eq _ _).symm

theorem kept_or_replaced (h : aliasOf? t c file = some p) :
    p = file ∧ Kept t c file ∨ ReplacedBy t c file p := by
  rw [aliasOf?_eq] at h
  unfold Kept ReplacedBy
  cases hown : ownAlias? t c file with
  | none =>
    rw [hown] at h
    exact .inl ⟨(Option.some.inj h).symm, .inl rfl⟩
  | some found =>
    obtain ⟨package, a⟩ := found
    rw [hown] at h
    cases a with
    | ignore => cases h
    | replace target =>
      rcases Option.or_eq_some_iff.1 h with hsome | ⟨hnone, hself⟩
      · exact .inr ⟨package, target, rfl, hsome⟩
      · exact .inl ⟨(Option.some.inj hself).symm, .inr ⟨package, target, rfl, hnone⟩⟩

/-! ## Through the maps -/

/-- What is resolved stands in the place of a file that is found. -/
def ThroughMaps (t : Tree) (c : Conventions) (m : SearchM Outcome) : Prop :=
  ∀ s, Faithful t s.cache → ∀ p, (m s).1 = .resolved p →
    ∃ file, Found t file ∧ aliasOf? t c file = some p

theorem throughMaps_pure {o : Outcome} (h : o.file? = none) : ThroughMaps t c (pure o) := by
  intro s _ p hp
  rw [← Outcome.file?_eq_some_iff] at hp
  cases h.symm.trans hp

theorem ThroughMaps.bind {P : α → Prop} {m : SearchM α} {f : α → SearchM Outcome}
    (hm : Steady t P m) (hf : ∀ a, ThroughMaps t c (f a)) : ThroughMaps t c (m >>= f) :=
  fun s hs => hf (m s).1 (m s).2 (hm.faithful hs)

/-- A search that follows the map of the file that it finds. -/
theorem throughMaps_finish {m : SearchM Outcome} (hm : Steady t (Outcome.Found t) m) :
    ThroughMaps t c (m >>= finish t c) := by
  intro s hs p hp
  have hcache := hm.faithful hs
  have hfound := hm.holds hs
  rw [bind_apply] at hp
  generalize m s = found at hp hcache hfound
  obtain ⟨o, s'⟩ := found
  cases o with
  | resolved file =>
    have halias : (applyAlias t c file s').1 = .resolved p := hp
    rw [← Outcome.file?_eq_some_iff, applyAlias_file? hcache] at halias
    exact ⟨file, hfound file rfl, halias⟩
  | ignored => cases hp
  | unresolved reason => cases hp

theorem throughMaps_search (dir : Path) (spec : String) :
    ThroughMaps t c (search t c dir spec) := by
  unfold search
  split
  · exact throughMaps_pure rfl
  split
  · exact throughMaps_pure rfl
  refine .bind (steady_bareAlias? dir spec) fun o => ?_
  split
  · exact throughMaps_pure rfl
  · split
    · exact throughMaps_finish (steady_resolvePath _)
    split
    · exact throughMaps_finish (steady_resolveBare _ _)
    · exact throughMaps_finish (steady_resolveSpecifier _ _)
  · exact throughMaps_finish (steady_resolveSpecifier _ _)

/-- The conventions that a call resolves by. -/
def Call.conventions : Call → Conventions
  | specifier c _ _ => c
  | entry c _ => c

theorem Call.throughMaps_search (q : Call) : ThroughMaps t q.conventions (q.search t) := by
  cases q with
  | specifier c dir spec => exact Resolve.throughMaps_search dir spec
  | entry c p => exact throughMaps_finish (steady_resolvePath p)

/--
A file that is given has no alias in the browser map of its own package, or a replacement that is
not found, or it stands in the place of a file that the map of that file's own package replaces by
it. So a file that its package drops is given only in the place of another.
-/
theorem run_follows_maps (h : Faithful t cache) (q : Call)
    (hp : (q.run t cache).1.outcome = .resolved p) :
    (Kept t q.conventions p ∨ ∃ file, Found t file ∧ ReplacedBy t q.conventions file p) ∧
      ∀ package, ownAlias? t q.conventions p = some (package, .ignore) →
        ∃ file, file ≠ p ∧ Found t file ∧ ReplacedBy t q.conventions file p := by
  obtain ⟨file, hfound, halias⟩ := q.throughMaps_search ⟨cache, [], []⟩ h p hp
  rcases kept_or_replaced halias with ⟨rfl, hkept⟩ | hreplaced
  · refine ⟨.inl hkept, fun package hignore => ?_⟩
    rcases hkept with hnone | ⟨package', target, hreplace, -⟩
    · cases hnone.symm.trans hignore
    · cases hreplace.symm.trans hignore
  · refine ⟨.inr ⟨file, hfound, hreplaced⟩, fun package hignore => ⟨file, ?_, hfound, hreplaced⟩⟩
    rintro rfl
    obtain ⟨package', target, hreplace, -⟩ := hreplaced
    cases hreplace.symm.trans hignore

/-- A package that has one file in the place of another and drops it elsewhere. -/
def swapped : Tree where
  entries :=
    [([⟨"p", .refl true⟩], .directory),
      ([⟨"package.json", .refl true⟩, ⟨"p", .refl true⟩],
        .file "\x7b\"browser\":\x7b\"./a\":\"./b.js\",\"./b.js\":false\x7d\x7d".toUTF8),
      ([⟨"a.js", .refl true⟩, ⟨"p", .refl true⟩], .file "".toUTF8),
      ([⟨"b.js", .refl true⟩, ⟨"p", .refl true⟩], .file "".toUTF8)]
  cwd := []

/-- The file that is dropped is given in the place of the other. -/
theorem run_follows_maps_swapped :
    Faithful swapped (some .empty) ∧
      ((Call.entry {} ⟨"/p/a"⟩).run swapped (some .empty)).1.outcome = .resolved ⟨"/p/b.js"⟩ ∧
      ownAlias? swapped {} ⟨"/p/b.js"⟩ = some (⟨"/p"⟩, .ignore) ∧
      ∃ file, file ≠ ⟨"/p/b.js"⟩ ∧ Found swapped file ∧ ReplacedBy swapped {} file ⟨"/p/b.js"⟩ := by
  have hmanifest : parseManifest swapped ((Path.mk "/p").child manifestName) =
      some (.object [("browser", .object [("./a", .string "./b.js"), ("./b.js", .bool false)])]) :=
    (parseManifest_of_read rfl).trans (by cbv)
  have hancestors : Path.ancestors ⟨"/p"⟩ = [⟨"/p"⟩, ⟨"/"⟩] := by decide
  have hpackage : enclosingOf? swapped (Path.ancestors ⟨"/p"⟩) = some (⟨"/p"⟩,
      .object [("browser", .object [("./a", .string "./b.js"), ("./b.js", .bool false)])]) := by
    rw [hancestors, enclosingOf?, if_neg (by decide), if_pos (by decide), hmanifest,
      Option.map_some]
  have hreplaced : ownAlias? swapped {} ⟨"/p/a.js"⟩ = some (⟨"/p"⟩, .replace "./b.js") := by
    rw [ownAlias?_of_enclosing (show Path.parent? ⟨"/p/a.js"⟩ = some ⟨"/p"⟩ by decide), hpackage]
    decide
  have hdropped : ownAlias? swapped {} ⟨"/p/b.js"⟩ = some (⟨"/p"⟩, .ignore) := by
    rw [ownAlias?_of_enclosing (show Path.parent? ⟨"/p/b.js"⟩ = some ⟨"/p"⟩ by decide), hpackage]
    decide
  have hcache := faithful_empty swapped
  have hfile : ((Call.entry {} ⟨"/p/a"⟩).run swapped (some .empty)).1.outcome =
      .resolved ⟨"/p/b.js"⟩ := by
    have hpath : pathOf? swapped {} ⟨"/p/a"⟩ = some ⟨"/p/a.js"⟩ := by decide
    have htarget : pathOf? swapped {} ((Path.mk "/p").child "./b.js") = some ⟨"/p/b.js"⟩ := by
      decide
    rw [← Outcome.file?_eq_some_iff, Call.run_entry, resolveEntry_entryOf? hcache, entryOf?, hpath,
      Option.bind_some, aliasOf?_eq, hreplaced]
    dsimp only
    rw [replacement?_eq, htarget, Option.some_or]
  exact ⟨hcache, hfile, hdropped, (run_follows_maps hcache _ hfile).2 _ hdropped⟩

end PackageMap.Resolve
