import PackageMap.FileMap
import PackageMap.Resolve.Basic
import PackageMap.Source.Reference

/-!
# Walks

A walk adds a file to a map and then all files that it reaches, in the order of their references,
each before the next. The files still to visit are on a stack; a file that is in the map already is
passed over. Only paths within the limit can be read, and there are finitely many, so every visit
that adds a file leaves less work, and the walk ends.
-/

namespace PackageMap

/-- A specifier that stands for no file. -/
structure UnresolvedEdge where
  source : Path
  specifier : String
  reason : Resolve.Reason
deriving DecidableEq, Repr

/-- What a walk found besides the files. -/
structure WalkReport where
  /-- The number of records that the walk added. -/
  filesAdded : Nat := 0
  unresolved : Array UnresolvedEdge := #[]
  /-- Scripts that are leaves because they could not be scanned. -/
  extractionFailures : Array Path := #[]
  unreadable : Array Path := #[]
  /-- The number of references that browser maps drop. -/
  ignored : Nat := 0
deriving DecidableEq, Repr

inductive Warning where
  | unresolved (edge : UnresolvedEdge)
  | unreadable (path : Path)
  | unseeded (package : String)
deriving DecidableEq, Repr

/-- A walk under way. The paths of its map count as visited. -/
structure Walker where
  map : FileMap
  report : WalkReport := {}
  /-- The specifiers that have been warned of, as a set. -/
  warned : List String := []
  warnings : Array Warning := #[]
  cache : ManifestCache := .empty

namespace Walker

/-- Add a record, and count it if its path was free. -/
def add (w : Walker) (r : FileRecord) : Walker :=
  if w.map.contains r.path then w
  else
    { w with
      map := w.map.insert r
      report := { w.report with filesAdded := w.report.filesAdded + 1 } }

def noteUnreadable (w : Walker) (p : Path) : Walker :=
  { w with
    report := { w.report with unreadable := w.report.unreadable.push p }
    warnings := w.warnings.push (.unreadable p) }

def noteIgnored (w : Walker) : Walker :=
  { w with report := { w.report with ignored := w.report.ignored + 1 } }

/-- List an unresolved specifier, and warn of it unless it has been warned of. -/
def noteUnresolved (w : Walker) (e : UnresolvedEdge) : Walker :=
  { w with
    report := { w.report with unresolved := w.report.unresolved.push e }
    warned := w.warned.insert e.specifier
    warnings :=
      if e.specifier ∈ w.warned then w.warnings else w.warnings.push (.unresolved e) }

/-- List a script that could not be scanned. -/
def noteUnscanned (w : Walker) (p : Path) : Walker :=
  { w with
    report := { w.report with extractionFailures := w.report.extractionFailures.push p } }

/-- Follow one reference in a file: the file to visit next, if there is one. -/
def followOne (t : Tree) (c : Config) (file : Path) (w : Walker) (spec : String) :
    Walker × Option Path :=
  let (r, cache) := resolve t c.conventions (some w.cache) file spec
  let w := { w with cache := cache.getD w.cache }
  match r.outcome with
  | .resolved target =>
    (w, if target.Same file ∨ w.map.contains target then none else some target)
  | .ignored => (w.noteIgnored, none)
  | .unresolved reason => (w.noteUnresolved ⟨file, spec, reason⟩, none)

/-- Follow the references in a file: the files to visit next, in order, after those of `targets`,
which are given newest first. -/
def followAll (t : Tree) (c : Config) (file : Path) (w : Walker) (targets : List Path) :
    List String → Walker × List Path
  | [] => (w, targets.reverse)
  | spec :: specs =>
    let (w, target) := followOne t c file w spec
    followAll t c file w (target.toList ++ targets) specs

/-- Visit a file: add its record and give the files to visit next. -/
def visit (t : Tree) (c : Config) (w : Walker) (file : Path) : Walker × List Path :=
  match t.read file with
  | .error _ => (w.noteUnreadable file, [])
  | .ok bytes =>
    let content := Text.Utf8.lossy bytes
    if c.isScript file then
      match Source.specifiers content with
      | .error _ => ((w.noteUnscanned file).add (.leaf file content), [])
      | .ok specs =>
        let (w, targets) := followAll t c file w [] specs
        (w.add ⟨file, content, some specs⟩, targets)
    else (w.add (.leaf file content), [])

/-! ## The work that is left -/

/-- The specifiers in the file that an entry is. -/
def specifiersOf : Entry → List String
  | .file bytes => (Source.specifiers (Text.Utf8.lossy bytes)).toOption.getD []
  | _ => []

/-- The number of specifiers in all files. -/
def specifierCount (entries : List (Location × Entry)) : Nat :=
  entries.foldr (fun e n => (specifiersOf e.2).length + n) 0

/-- The number of paths that may be added to a map after files were read. -/
def pathsLeft (m : FileMap) : Nat := Text.textBound pathLimit - m.ids.countBelow pathLimit

/-- A bound on the visits still to come besides those of the stack. -/
def workLeft (t : Tree) (m : FileMap) : Nat := pathsLeft m * (specifierCount t.entries + 1)

@[simp] theorem followOne_map (t : Tree) (c : Config) (file : Path) (w : Walker)
    (spec : String) : (followOne t c file w spec).1.map = w.map := by
  unfold followOne; dsimp only; split <;> rfl

@[simp] theorem followAll_map (t : Tree) (c : Config) (file : Path) (w : Walker)
    (targets : List Path) (specs : List String) :
    (followAll t c file w targets specs).1.map = w.map := by
  induction specs generalizing w targets with
  | nil => rfl
  | cons spec specs ih => simp only [followAll, ih, followOne_map]

theorem length_toList_le {α : Type} (o : Option α) : o.toList.length ≤ 1 := by
  cases o <;> simp

theorem followAll_length_le (t : Tree) (c : Config) (file : Path) (w : Walker)
    (targets : List Path) (specs : List String) :
    (followAll t c file w targets specs).2.length ≤ targets.length + specs.length := by
  induction specs generalizing w targets with
  | nil => simp [followAll]
  | cons spec specs ih =>
    unfold followAll
    generalize followOne t c file w spec = followed
    refine Nat.le_trans (ih _ _) ?_
    rw [List.length_append, List.length_cons]
    have := length_toList_le followed.2
    omega

theorem add_map {w : Walker} {r : FileRecord} (h : w.map.contains r.path = false) :
    (w.add r).map = w.map.insert r := by
  unfold add; simp [h]

/-- A visit of a file that can be read adds its record. -/
theorem visit_map {t : Tree} {c : Config} {w : Walker} {file : Path} {bytes : ByteArray}
    (hr : t.read file = .ok bytes) (hw : w.map.contains file = false) :
    ∃ r, r.path = file ∧ (visit t c w file).1.map = w.map.insert r := by
  unfold visit
  rw [hr]
  dsimp only
  split
  · split
    · exact ⟨.leaf file _, rfl, add_map hw⟩
    · next specs _ =>
      refine ⟨⟨file, Text.Utf8.lossy bytes, some specs⟩, rfl, ?_⟩
      rw [add_map (by simpa using hw), followAll_map]
  · exact ⟨.leaf file _, rfl, add_map hw⟩

/-- A visit of what cannot be read adds nothing. -/
theorem visit_of_error {t : Tree} {c : Config} {w : Walker} {file : Path} {e : IoError}
    (hr : t.read file = .error e) : visit t c w file = (w.noteUnreadable file, []) := by
  unfold visit; rw [hr]

theorem length_le_specifierCount {e : Location × Entry} {entries : List (Location × Entry)}
    (h : e ∈ entries) : (specifiersOf e.2).length ≤ specifierCount entries := by
  induction entries with
  | nil => cases h
  | cons d entries ih =>
    have hd : specifierCount (d :: entries) =
        (specifiersOf d.2).length + specifierCount entries := rfl
    rcases List.mem_cons.1 h with rfl | h
    · omega
    · have := ih h; omega

/-- A visit gives no more files to visit next than there are specifiers. -/
theorem visit_length_le (t : Tree) (c : Config) (w : Walker) (file : Path) :
    (visit t c w file).2.length ≤ specifierCount t.entries := by
  unfold visit
  split
  · simp
  · next bytes hr =>
    obtain ⟨loc, hloc⟩ := t.mem_entries_of_read hr
    have hle := length_le_specifierCount hloc
    dsimp only
    split
    · split
      · simp
      · next specs hs =>
        have hall := followAll_length_le t c file w [] specs
        simp only [specifiersOf, hs, Except.toOption, Option.getD_some] at hle
        rw [List.length_nil, Nat.zero_add] at hall
        exact Nat.le_trans hall hle
    · simp

theorem pathsLeft_insert {m : FileMap} {r : FileRecord} (hm : m.contains r.path = false)
    (hp : r.path.text.utf8ByteSize < pathLimit) : pathsLeft (m.insert r) < pathsLeft m := by
  have hput := PathTable.countBelow_put m.records.size hm hp
  have hlt := PathTable.countBelow_lt m.records.size hm hp
  unfold pathsLeft
  rw [FileMap.ids_insert hm, hput]
  omega

/-- A visit that adds a record leaves less work, also with the files that it gives. -/
theorem workLeft_visit_lt {t : Tree} {c : Config} {w : Walker} {file : Path} {bytes : ByteArray}
    (hr : t.read file = .ok bytes) (hw : w.map.contains file = false) :
    workLeft t (visit t c w file).1.map + (visit t c w file).2.length < workLeft t w.map := by
  obtain ⟨r, hp, hm⟩ := visit_map (c := c) hr hw
  have hlt := pathsLeft_insert (hp ▸ hw) (hp ▸ t.size_lt_of_read hr)
  have hlen := visit_length_le t c w file
  unfold workLeft
  rw [hm]
  have := Nat.mul_le_mul_right (specifierCount t.entries + 1) hlt
  rw [Nat.succ_mul] at this
  omega

/-- Visit the files of a stack, and the files that they reach before those below. -/
def walkStack (t : Tree) (c : Config) (w : Walker) (stack : List Path) : Walker :=
  match stack with
  | [] => w
  | file :: rest =>
    if _hw : w.map.contains file then walkStack t c w rest
    else
      match _hv : visit t c w file with
      | (w', targets) => walkStack t c w' (targets ++ rest)
termination_by workLeft t w.map + stack.length
decreasing_by
  · exact Nat.lt_succ_self _
  · cases hr : t.read file with
    | error e =>
      rw [visit_of_error hr] at _hv
      cases _hv
      exact Nat.lt_succ_self _
    | ok bytes =>
      have hlt := workLeft_visit_lt (c := c) hr (by simpa using _hw)
      rw [_hv] at hlt
      simp only [List.length_append, List.length_cons] at hlt ⊢
      omega

theorem walkStack_nil (t : Tree) (c : Config) (w : Walker) : walkStack t c w [] = w := by
  unfold walkStack; rfl

theorem walkStack_of_contains {t : Tree} {c : Config} {w : Walker} {file : Path}
    (h : w.map.contains file = true) (rest : List Path) :
    walkStack t c w (file :: rest) = walkStack t c w rest := by
  rw [walkStack, dif_pos h]

theorem walkStack_of_not_contains {t : Tree} {c : Config} {w : Walker} {file : Path}
    (h : w.map.contains file = false) (rest : List Path) :
    walkStack t c w (file :: rest) =
      walkStack t c (visit t c w file).1 ((visit t c w file).2 ++ rest) := by
  rw [walkStack, dif_neg (by simp [h])]

/-- Walk from a file, which is added with all that it reaches. -/
def walk (t : Tree) (c : Config) (w : Walker) (file : Path) : Walker :=
  match t.canonical file with
  | .error _ => w.noteUnreadable file
  | .ok loc => walkStack t c w [loc.path]

/-- Walk from a package's entry, if it stands for a file. -/
def walkEntry (t : Tree) (c : Config) (w : Walker) (entry : Path) : Walker :=
  let (r, cache) := resolveEntry t c.conventions (some w.cache) entry
  let w := { w with cache := cache.getD w.cache }
  match r.outcome with
  | .resolved file => walk t c w file
  | _ => w

end Walker

end PackageMap
