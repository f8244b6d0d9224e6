import Mathlib
import PackageMap.Proofs.Resolve.Search
import PackageMap.Proofs.Tree.Deep
import PackageMap.Proofs.Walk.Reach

/-!
# Files with two paths

What lies beyond the limit has no canonical path, so it stays under the path that a specifier gives
it. A script there may be found under two equal paths of different lengths, and one of the paths may
be too long for what the script refers to. Then it depends on the path what is reached.
-/

namespace PackageMap.Twofold

open Resolve PackageMap.Tree

/-- The script that walks start from. -/
def starter : Name := ⟨"main.js", by decide⟩

/-- The script with two paths. -/
def twice : Name := ⟨"a.js", by decide⟩

/-- The file that only the shorter path leads to. -/
def hidden : Name := ⟨"b.js", by decide⟩

/-- The directory of installed packages, which has no manifest to look at. -/
def installed : Name := ⟨modulesName, by decide⟩

def mainBytes : ByteArray := "require('./node_modules/a.js')".toUTF8

def twiceBytes : ByteArray := "require('/node_modules/a.js');require('.')".toUTF8

def files (dir : Location) : List (Location × ByteArray) :=
  [([starter], mainBytes),
    (twice :: dir, twiceBytes),
    (hidden :: dir, .empty)]

/-- The installed packages are in a directory beyond the limit. -/
def tree (dir : Location) : Tree := linked dir installed (files dir)

/-- An extension that leads from a directory to the hidden file. -/
def ending (k : Nat) : String := Path.dots k ++ "/" ++ hidden.text

def config (k : Nat) : Config where
  conventions := ⟨[ending k], [], "index"⟩

/-- The directory is beyond the limit, and the extension fits the shorter path only. -/
structure Fits (dir : Location) (k : Nat) : Prop where
  ne_nil : dir ≠ []
  notLink : ¬ [installed] <:+ dir
  notMain : ¬ [starter] <:+ dir
  long : ∀ n : Name, pathLimit ≤ (Location.path (n :: dir)).text.utf8ByteSize
  size_lt : 2 * k + 20 < pathLimit
  le_size : pathLimit ≤ 2 * k + 22

variable {dir : Location} {k : Nat}

theorem grounded_tree (dir : Location) : (tree dir).Grounded := fun _ => trivial

theorem entry?_starter (h : Fits dir k) : entry? (tree dir) [starter] =
    some (.file mainBytes) := by
  unfold tree
  rw [entry?_linked h.notMain, if_neg (by decide)]
  rfl

theorem entry?_twice (h : Fits dir k) : entry? (tree dir) (twice :: dir) =
    some (.file twiceBytes) := by
  refine entry?_linked_file h.ne_nil ?_
  unfold files
  rw [List.lookup_cons, beq_false_of_ne (by simp [h.ne_nil]), List.lookup_cons, beq_self_eq_true]

theorem entry?_hidden (h : Fits dir k) : entry? (tree dir) (hidden :: dir) =
    some (.file .empty) := by
  have hne : hidden :: dir ≠ twice :: dir := fun he => absurd (List.cons.inj he).1 (by decide)
  refine entry?_linked_file h.ne_nil ?_
  unfold files
  rw [List.lookup_cons, beq_false_of_ne (by simp [h.ne_nil]), List.lookup_cons, beq_false_of_ne hne,
    List.lookup_cons, beq_self_eq_true]

/-! ## The first script -/

section Main

variable {t : Tree} {c : Config} {bytes : ByteArray}

theorem canonical_main (he : t.entry? [starter] = some (.file bytes)) :
    t.canonical ⟨"/main.js"⟩ = .ok [starter] := by
  have hsteps : stepsOf "/main.js" = [.name starter.text] := by decide
  refine canonical_eq_ok_iff.2 ⟨by decide, ?_⟩
  have hstart : t.startOf ⟨"/main.js"⟩ = [] := if_pos (by decide)
  rw [hstart, hsteps]
  exact .name ⟨by decide, rfl⟩ (by decide) he nofun .done

theorem locate_main (he : t.entry? [starter] = some (.file bytes)) :
    t.locate ⟨"/main.js"⟩ = .ok [starter] :=
  locate_eq_ok_iff.2 ⟨by decide, (canonical_eq_ok_iff.1 (canonical_main he)).2.direct⟩

theorem path?_main (he : t.entry? [starter] = some (.file bytes)) :
    (Start.file ⟨"/main.js"⟩).path? t c = some ⟨"/main.js"⟩ := by
  have hpath : Location.path [starter] = ⟨"/main.js"⟩ := by decide
  show (t.canonical ⟨"/main.js"⟩).toOption.map Location.path = _
  rw [canonical_main he]
  exact congrArg some hpath

theorem recordOf?_main {specs : List String} (he : t.entry? [starter] = some (.file bytes))
    (hscript : c.isScript ⟨"/main.js"⟩ = true)
    (hspecs : Source.specifiers (Text.Utf8.lossy bytes) = .ok specs) :
    recordOf? t c ⟨"/main.js"⟩ = some ⟨⟨"/main.js"⟩, Text.Utf8.lossy bytes, some specs⟩ :=
  recordOf?_script (read_eq_ok_iff.2 ⟨_, locate_main he, he⟩) hscript hspecs

end Main

theorem locate_starter (h : Fits dir k) : (tree dir).locate ⟨"/main.js"⟩ = .ok [starter] :=
  locate_main (entry?_starter h)

theorem recordOf?_starter (h : Fits dir k) : recordOf? (tree dir) (config k) ⟨"/main.js"⟩ =
    some ⟨⟨"/main.js"⟩, Text.Utf8.lossy mainBytes, some ["./node_modules/a.js"]⟩ := by
  have hscript : (config k).isScript ⟨"/main.js"⟩ = true := by
    have hname : (Path.mk "/main.js").fileName? = some "main.js" := by decide
    unfold Config.isScript
    rw [hname]
    rfl
  have hspecs : Source.specifiers (Text.Utf8.lossy mainBytes) = .ok ["./node_modules/a.js"] := by
    cbv
  exact recordOf?_main (entry?_starter h) hscript hspecs

/-! ## The script with two paths -/

section Script

variable {i : Nat}

theorem size_twice (hi : i ≤ 1) :
    (spelled installed twice i 0).text.utf8ByteSize < pathLimit := by
  have hinstalled : installed.text.utf8ByteSize = 12 := by decide
  have htwice : twice.text.utf8ByteSize = 4 := by decide
  rw [size_spelled, hinstalled, htwice]
  show _ < 4096
  omega

theorem locate_twice (h : Fits dir k) (hi : i ≤ 1) :
    (tree dir).locate (spelled installed twice i 0) = .ok (twice :: dir) :=
  locate_spelled h.notLink h.ne_nil (entry?_twice h) nofun (size_twice hi)

theorem canonicalOrSelf_twice (h : Fits dir k) (hi : i ≤ 1) :
    (tree dir).canonicalOrSelf (spelled installed twice i 0) = spelled installed twice i 0 :=
  canonicalOrSelf_spelled h.notLink h.ne_nil (entry?_twice h) nofun (size_twice hi) (h.long twice)

theorem recordOf?_twice (h : Fits dir k) (hi : i ≤ 1) :
    recordOf? (tree dir) (config k) (spelled installed twice i 0) =
      some ⟨spelled installed twice i 0, Text.Utf8.lossy twiceBytes,
        some ["/node_modules/a.js", "."]⟩ := by
  have hscript : (config k).isScript (spelled installed twice i 0) = true := by
    unfold Config.isScript
    rw [fileName?_spelled]
    rfl
  have hspecs : Source.specifiers (Text.Utf8.lossy twiceBytes) =
      .ok ["/node_modules/a.js", "."] := by cbv
  have hread : (tree dir).read (spelled installed twice i 0) =
      .ok twiceBytes :=
    read_eq_ok_iff.2 ⟨_, locate_twice h hi, entry?_twice h⟩
  exact recordOf?_script hread hscript hspecs

/-- A specifier that names the script by one of its paths finds it there. -/
theorem outcome_twice (h : Fits dir k) (hi : i ≤ 1) (file : Path) {spec : String}
    (hspec : spec ≠ "") (hscheme : hasScheme spec = false) (hbare : isBare spec = false)
    (hpath : specifierPath (Resolution.directoryOf file) spec = spelled installed twice i 0) :
    (resolve (tree dir) (config k).conventions none file spec).1.outcome =
      .resolved (spelled installed twice i 0) := by
  show (search _ _ (Resolution.directoryOf file) spec ⟨none, [], []⟩).1 = _
  have hself := canonicalOrSelf_twice h hi
  have hfile : (tree dir).isFile (spelled installed twice i 0) = true :=
    isFile_iff.2 ⟨_, _, locate_twice h hi, entry?_twice h⟩
  rw [search_of_find hspec hscheme hbare (q := spelled installed twice i 0), hself]
  · rw [hpath]
    exact List.find?_cons_of_pos hfile
  · rw [hself]
    exact fileName?_parent?_spelled installed twice i 0

end Script

theorem refers_starter_iff (h : Fits dir k) (p : Path) :
    Refers (tree dir) (config k) ⟨"/main.js"⟩ p ↔ p = spelled installed twice 1 0 := by
  have houtcome : (resolve (tree dir) (config k).conventions none ⟨"/main.js"⟩
      "./node_modules/a.js").1.outcome = .resolved (spelled installed twice 1 0) :=
    outcome_twice h (Nat.le_refl 1) _ (by decide) (by decide) (by decide) (by decide)
  rw [refers_iff (recordOf?_starter h)]
  simp [houtcome, eq_comm]

/-! ## What the second script refers to -/

/-- The script refers to itself by its shorter path. -/
theorem outcome_absolute (h : Fits dir k) : (resolve (tree dir) (config k).conventions none
    (spelled installed twice 1 0) "/node_modules/a.js").1.outcome =
      .resolved (spelled installed twice 0 0) :=
  outcome_twice h (Nat.zero_le 1) _ (by decide) (by decide) (by decide) (by decide)

theorem append_ending : (Path.mk "/node_modules/.").append (ending k) =
    spelled installed hidden 0 (k + 1) := by
  have htext : "/node_modules/." = "" ++ "/" ++ installed.text ++ "/." := by decide
  unfold Path.append spelled ending
  rw [htext, Path.dots, Path.dots]
  simp only [String.append_assoc]

theorem size_hidden (h : Fits dir k) :
    (spelled installed hidden 0 (k + 1)).text.utf8ByteSize < pathLimit := by
  have hinstalled : installed.text.utf8ByteSize = 12 := by decide
  have hhidden : hidden.text.utf8ByteSize = 4 := by decide
  have hsize := h.size_lt
  rw [size_spelled, hinstalled, hhidden]
  omega

theorem locate_hidden (h : Fits dir k) :
    (tree dir).locate (spelled installed hidden 0 (k + 1)) = .ok (hidden :: dir) :=
  locate_spelled h.notLink h.ne_nil (entry?_hidden h) nofun (size_hidden h)

theorem size_ending : (ending k).utf8ByteSize = 2 * k + 5 := by
  have hslash : "/".utf8ByteSize = 1 := by decide
  have hhidden : hidden.text.utf8ByteSize = 4 := by decide
  unfold ending
  rw [String.utf8ByteSize_append, String.utf8ByteSize_append, Path.size_dots, hslash, hhidden]

/-- Neither spelling of the directory is a file. -/
theorem isFile_directory (h : Fits dir k) {p : Path} {n : Nat} (htext : textError? p = none)
    (hstart : p.isAbsolute) (hsteps : stepsOf p.text =
      List.replicate n .here ++ (.name installed.text :: (List.replicate 1 .here ++ []))) :
    (tree dir).isFile p = false := by
  have hd : entry? (tree dir) dir = some .directory := entry?_linked_of_suffix List.suffix_rfl
  have hl : (tree dir).locate p = .ok dir := by
    refine locate_eq_ok_iff.2 ⟨htext, ?_⟩
    have hroot : (tree dir).startOf p = [] := if_pos hstart
    rw [hroot, hsteps]
    exact leads_here (entry?_nil _) (leads_linked h.notLink h.ne_nil (leads_here hd .done))
  exact isFile_of_directory hl hd

/-- Seen from the longer path, the hidden file is beyond the limit. -/
theorem outcome_dot_long (h : Fits dir k) : ∃ reason, (resolve (tree dir) (config k).conventions none
    (spelled installed twice 1 0) ".").1.outcome = .unresolved reason := by
  have hfrom : Resolution.directoryOf (spelled installed twice 1 0) = ⟨"/./node_modules"⟩ := by
    decide
  have hpath : specifierPath ⟨"/./node_modules"⟩ "." = ⟨"/./node_modules/."⟩ := by decide
  have hprefix : "/./node_modules/.".utf8ByteSize = 17 := by decide
  have hsize := h.le_size
  have hdirectory : (tree dir).isFile ⟨"/./node_modules/."⟩ = false :=
    isFile_directory h (n := 1) (by decide) (by decide) (by decide)
  have hended : (tree dir).isFile ((Path.mk "/./node_modules/.").append (ending k)) = false := by
    apply isFile_of_long
    unfold Path.append
    rw [String.utf8ByteSize_append, size_ending, hprefix]
    omega
  have hindex : (tree dir).isFile ((Path.mk "/./node_modules/.").child ("index" ++ ending k)) =
      false := by
    have hrel : (Path.mk ("index" ++ ending k)).isAbsolute = false := by
      unfold Path.isAbsolute
      rw [String.toList_append]
      rfl
    apply isFile_of_long
    unfold Path.child
    rw [hrel, if_neg Bool.false_ne_true, if_neg (by decide), String.utf8ByteSize_append,
      String.utf8ByteSize_append, String.utf8ByteSize_append, size_ending, hprefix]
    omega
  show ∃ reason, (search (tree dir) (config k).conventions
    (Resolution.directoryOf (spelled installed twice 1 0)) "." ⟨none, [], []⟩).1 = .unresolved reason
  rw [hfrom]
  refine search_of_none (by decide) (by decide) (by decide) rfl ?_ ?_
  · rw [hpath]
    simp [fileCandidates, config, hdirectory, hended]
  · rw [hpath]
    simp [indexCandidates, config, hindex]

/-- Seen from the shorter path, it is not. -/
theorem outcome_dot_short (h : Fits dir k) : (resolve (tree dir) (config k).conventions none
    (spelled installed twice 0 0) ".").1.outcome =
      .resolved (spelled installed hidden 0 (k + 1)) := by
  have hfrom : Resolution.directoryOf (spelled installed twice 0 0) = ⟨"/node_modules"⟩ := by
    decide
  have hpath : specifierPath ⟨"/node_modules"⟩ "." = ⟨"/node_modules/."⟩ := by decide
  have hdirectory : (tree dir).isFile ⟨"/node_modules/."⟩ = false :=
    isFile_directory h (n := 0) (by decide) (by decide) (by decide)
  have hself : (tree dir).canonicalOrSelf (spelled installed hidden 0 (k + 1)) =
      spelled installed hidden 0 (k + 1) :=
    canonicalOrSelf_spelled h.notLink h.ne_nil (entry?_hidden h) nofun (size_hidden h)
      (h.long hidden)
  have hfile : (tree dir).isFile (spelled installed hidden 0 (k + 1)) = true :=
    isFile_iff.2 ⟨_, _, locate_hidden h, entry?_hidden h⟩
  show (search (tree dir) (config k).conventions
    (Resolution.directoryOf (spelled installed twice 0 0)) "." ⟨none, [], []⟩).1 = _
  rw [hfrom, search_of_find (by decide) (by decide) (by decide)
    (q := spelled installed hidden 0 (k + 1)), hself]
  · rw [hpath]
    simp [fileCandidates, config, hdirectory, append_ending, hfile]
  · rw [hself]
    exact fileName?_parent?_spelled installed hidden 0 (k + 1)

/-! ## Reached and walked -/

/-- A walk stays in the first script and the longer path of the second one. -/
theorem closed_first (h : Fits dir k) : Closed (tree dir) (config k) .empty [.file ⟨"/main.js"⟩]
    fun p => p = ⟨"/main.js"⟩ ∨ p = spelled installed twice 1 0 where
  start := by
    intro s hs p hp _ _
    obtain rfl := List.mem_singleton.1 hs
    rw [path?_main (entry?_starter h)] at hp
    exact .inl (Option.some.inj hp).symm
  target := by
    rintro p q (rfl | rfl) hq hnew _
    · exact .inr ((refers_starter_iff h q).1 hq)
    · obtain ⟨specs, hspecs, spec, hspec, ho⟩ :=
        (refers_iff (recordOf?_twice h (Nat.le_refl 1)) q).1 hq
      obtain rfl := Option.some.inj hspecs
      rcases List.mem_cons.1 hspec with rfl | hspec
      · rw [outcome_absolute h] at ho
        obtain rfl := Outcome.resolved.inj ho
        exact (hnew (by decide)).elim
      · obtain rfl := List.mem_singleton.1 hspec
        obtain ⟨reason, houtcome⟩ := outcome_dot_long h
        rw [houtcome] at ho
        cases ho

theorem reachable_hidden (h : Fits dir k) : Reachable (tree dir) (config k) .empty
    [.file ⟨"/main.js"⟩] (spelled installed hidden 0 (k + 1)) := by
  have hmain : Reachable (tree dir) (config k) .empty [.file ⟨"/main.js"⟩] ⟨"/main.js"⟩ :=
    .start List.mem_cons_self (path?_main (entry?_starter h)) (by rw [recordOf?_starter h]; rfl) rfl
  have hlong := hmain.target ((refers_starter_iff h _).2 rfl) rfl
  have hshort : Refers (tree dir) (config k) (spelled installed twice 1 0)
      (spelled installed twice 0 0) :=
    ⟨_, _, recordOf?_twice h (Nat.le_refl 1), rfl, _, List.mem_cons_self, outcome_absolute h⟩
  have hlast : Refers (tree dir) (config k) (spelled installed twice 0 0)
      (spelled installed hidden 0 (k + 1)) :=
    ⟨_, _, recordOf?_twice h (Nat.zero_le 1), rfl, ".", by decide, outcome_dot_short h⟩
  exact (hlong.target hshort rfl).target hlast rfl

/-! ## A directory that fits -/

/-- One name more and the path is beyond the limit. -/
def deep : Location := List.replicate 2047 ⟨"d", by decide⟩

theorem deep_ne_nil : deep ≠ [] := by
  intro h
  exact absurd ((List.replicate_eq_nil_iff _).1 h) (by decide)

theorem fits_deep : Fits deep 2037 where
  ne_nil := deep_ne_nil
  notLink := by
    intro hs
    have hmem := hs.subset (List.mem_singleton_self _)
    exact absurd (List.eq_of_mem_replicate hmem) (by decide)
  notMain := by
    intro hs
    have hmem := hs.subset (List.mem_singleton_self _)
    exact absurd (List.eq_of_mem_replicate hmem) (by decide)
  long := by
    intro n
    have hd : "d".utf8ByteSize = 1 := by decide
    have hsize : deep.path.text.utf8ByteSize = 2047 * (1 + "d".utf8ByteSize) :=
      size_path_replicate _ 2046
    have hn : n.text.utf8ByteSize ≠ 0 :=
      mt String.utf8ByteSize_eq_zero_iff.1 (isName_iff.1 n.valid).1
    rw [size_path_cons n deep_ne_nil, hsize, hd]
    show 4096 ≤ _
    omega
  size_lt := by decide
  le_size := by decide

end PackageMap.Twofold
