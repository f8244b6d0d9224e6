import PackageMap.Proofs.Resolve.Cache
import PackageMap.Walk

/-!
# Reachable files

The references in a script resolve to files, and what is reached from the starts of some walks is
the least set that these references do not lead out of. What is reached can be read, and it is
written in one way if it has a canonical path.
-/

namespace PackageMap

variable {t : Tree} {c : Config} {seed : FileMap}

/-! ## Files and references -/

/-- The specifiers in a file, if it is a script that can be scanned. -/
def requiresOf (c : Config) (file : Path) (content : String) : Option (List String) :=
  if c.isScript file then (Source.specifiers content).toOption else none

/-- The record of a file that can be read. -/
def recordOf? (t : Tree) (c : Config) (file : Path) : Option FileRecord :=
  match t.read file with
  | .ok bytes =>
    some ⟨file, Text.Utf8.lossy bytes, requiresOf c file (Text.Utf8.lossy bytes)⟩
  | .error _ => none

/-- One of the specifiers in a script resolves to the target. -/
def Refers (t : Tree) (c : Config) (file target : Path) : Prop :=
  ∃ r specs, recordOf? t c file = some r ∧ r.requires = some specs ∧
    ∃ spec ∈ specs, (resolve t c.conventions none file spec).1.outcome = .resolved target

theorem path_of_recordOf? {file : Path} {r : FileRecord} (h : recordOf? t c file = some r) :
    r.path = file := by
  unfold recordOf? at h
  split at h
  · cases h; rfl
  · cases h

theorem refers_iff {file : Path} {r : FileRecord} (h : recordOf? t c file = some r) (q : Path) :
    Refers t c file q ↔ ∃ specs, r.requires = some specs ∧
      ∃ spec ∈ specs, (resolve t c.conventions none file spec).1.outcome = .resolved q := by
  constructor
  · rintro ⟨r', specs, hr', hspecs⟩
    obtain rfl := Option.some.inj (hr'.symm.trans h)
    exact ⟨specs, hspecs⟩
  · rintro ⟨specs, hspecs⟩
    exact ⟨r, specs, h, hspecs⟩

theorem recordOf?_script {file : Path} {bytes : ByteArray} {specs : List String}
    (hread : t.read file = .ok bytes) (hscript : c.isScript file = true)
    (hspecs : Source.specifiers (Text.Utf8.lossy bytes) = .ok specs) :
    recordOf? t c file = some ⟨file, Text.Utf8.lossy bytes, some specs⟩ := by
  unfold recordOf? requiresOf
  rw [hread]
  dsimp only
  rw [if_pos hscript, hspecs]
  rfl

theorem recordOf?_isSome_iff {file : Path} :
    (recordOf? t c file).isSome ↔ ∃ bytes, t.read file = .ok bytes := by
  unfold recordOf?
  cases t.read file with
  | ok bytes => simp
  | error e => simp

/-- What a search finds can be read. -/
theorem isSome_of_found (hg : t.Grounded) {p : Path} (h : Resolve.Found t p) :
    (recordOf? t c p).isSome := by
  obtain ⟨q, hq, rfl⟩ := h
  obtain ⟨loc, bytes, hl, he⟩ := Tree.isFile_iff.1 (Tree.isFile_canonicalOrSelf hg hq)
  exact recordOf?_isSome_iff.2 ⟨bytes, Tree.read_eq_ok_iff.2 ⟨loc, hl, he⟩⟩

theorem Refers.found {file target : Path} (h : Refers t c file target) :
    Resolve.Found t target := by
  obtain ⟨r, specs, -, -, spec, -, ho⟩ := h
  exact (resolve_of_faithful (Resolve.faithful_none t) file spec).2.2 _ ho

/-! ## Reachable files -/

/-- How a walk is started. -/
inductive Start where
  | file (p : Path)
  | entry (p : Path)

namespace Start

/-- The canonical path that a walk starts from. -/
def path? (t : Tree) (c : Config) : Start → Option Path
  | .file p => (t.canonical p).toOption.map Location.path
  | .entry p =>
    match (resolveEntry t c.conventions none p).1.outcome with
    | .resolved q => (t.canonical q).toOption.map Location.path
    | _ => none

def run (t : Tree) (c : Config) (w : Walker) : Start → Walker
  | .file p => w.walk t c p
  | .entry p => w.walkEntry t c p

end Start

/-- The walks from several starts, one after another, on top of a seed. -/
def runAll (t : Tree) (c : Config) (seed : FileMap) (starts : List Start) : Walker :=
  starts.foldl (Start.run t c) { map := seed }

/-- The least set with the starts that can be read and the targets of the references in it, but
without what is seeded. -/
inductive Reachable (t : Tree) (c : Config) (seed : FileMap) (starts : List Start) : Path → Prop
  | start {s : Start} {p : Path} (hs : s ∈ starts) (hp : s.path? t c = some p)
      (hr : (recordOf? t c p).isSome) (hseed : seed.contains p = false) :
      Reachable t c seed starts p
  | target {p q : Path} (hp : Reachable t c seed starts p) (hq : Refers t c p q)
      (hseed : seed.contains q = false) : Reachable t c seed starts q

/-- The walks do not lead out of the set. A file that refers to itself leads nowhere. -/
structure Closed (t : Tree) (c : Config) (seed : FileMap) (starts : List Start)
    (S : Path → Prop) : Prop where
  start : ∀ s ∈ starts, ∀ p, s.path? t c = some p → (recordOf? t c p).isSome →
    seed.contains p = false → S p
  target : ∀ p q, S p → Refers t c p q → ¬ q.Same p → seed.contains q = false → S q

theorem closed_reachable (t : Tree) (c : Config) (seed : FileMap) (starts : List Start) :
    Closed t c seed starts (Reachable t c seed starts) where
  start := fun _ hs _ hp hr hseed => .start hs hp hr hseed
  target := fun _ _ hp hq _ hseed => .target hp hq hseed

/-- What is referred to in the set can be read, unless it is seeded. -/
def Readable (t : Tree) (c : Config) (seed : FileMap) (S : Path → Prop) : Prop :=
  ∀ p q, S p → Refers t c p q → seed.contains q = false → (recordOf? t c q).isSome

theorem readable_of_grounded (hg : t.Grounded) (S : Path → Prop) : Readable t c seed S :=
  fun _ _ _ hq _ => isSome_of_found hg hq.found

theorem Start.canonical_of_path? {s : Start} {p : Path} (h : s.path? t c = some p) :
    ∃ f loc, t.canonical f = .ok loc ∧ p = loc.path := by
  have hmap {f : Path} (hf : (t.canonical f).toOption.map Location.path = some p) :
      ∃ f loc, t.canonical f = .ok loc ∧ p = loc.path := by
    cases hc : t.canonical f with
    | error e => rw [hc] at hf; cases hf
    | ok loc => rw [hc] at hf; cases hf; exact ⟨f, loc, hc, rfl⟩
  cases s with
  | file f => exact hmap h
  | entry f =>
    unfold Start.path? at h
    dsimp only at h
    split at h
    · exact hmap h
    · cases h

namespace Reachable

variable {starts : List Start} {p q : Path} {l l' : Location}

theorem isSome (hg : t.Grounded) (h : Reachable t c seed starts p) : (recordOf? t c p).isSome := by
  cases h with
  | start _ _ hr _ => exact hr
  | target _ hq _ => exact isSome_of_found hg hq.found

/-- A reachable file that has a canonical path is written that way. -/
theorem eq_path (hg : t.Grounded) (h : Reachable t c seed starts p) (hc : t.canonical p = .ok l) :
    t.locate p = .ok l ∧ p = l.path := by
  cases h with
  | start _ hp _ _ =>
    obtain ⟨f, loc, hf, rfl⟩ := Start.canonical_of_path? hp
    have hl := Tree.locate_canonical hg hf
    obtain rfl := Tree.canonical_unique hl hc
    exact ⟨hl, rfl⟩
  | target _ hq _ =>
    obtain ⟨f, hf, rfl⟩ := hq.found
    obtain ⟨loc, -, hl, -⟩ := Tree.isFile_iff.1 (Tree.isFile_canonicalOrSelf hg hf)
    obtain rfl := Tree.canonical_unique hl hc
    exact ⟨hl, Tree.canonicalOrSelf_eq_path hg hf hc⟩

/-- Reachable files that have canonical paths are written in one way. -/
theorem eq_of_same (hg : t.Grounded) (hp : Reachable t c seed starts p)
    (hq : Reachable t c seed starts q) (hcp : t.canonical p = .ok l) (hcq : t.canonical q = .ok l')
    (h : p.Same q) : p = q := by
  obtain ⟨hp, rfl⟩ := hp.eq_path hg hcp
  obtain ⟨hq, rfl⟩ := hq.eq_path hg hcq
  rw [Tree.locate_unique h hp hq]

end Reachable

end PackageMap
