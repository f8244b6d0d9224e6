import Mathlib.Data.List.Infix
import PackageMap.Proofs.Tree.Canonical

/-!
# Locations beyond the limit

A link may lead further down than any path that is written out may be long. A file there has no
canonical path, so it stays under the path that it was looked up with, which is one of many.
-/

namespace PackageMap

namespace Path

/-- So many segments that stay where they are. -/
def dots : Nat → String
  | 0 => ""
  | k + 1 => "/." ++ dots k

theorem size_dots (k : Nat) : (dots k).utf8ByteSize = 2 * k := by
  induction k with
  | zero => rfl
  | succ k ih =>
    rw [dots, String.utf8ByteSize_append, ih, Nat.mul_add_one, Nat.add_comm]
    rfl

theorem toList_dots (k : Nat) : (dots (k + 1)).toList = '/' :: '.' :: (dots k).toList := by
  rw [dots, String.toList_append]
  rfl

theorem nul_not_mem_dots (k : Nat) : '\x00' ∉ (dots k).toList := by
  induction k with
  | zero => nofun
  | succ k ih =>
    rw [toList_dots]
    simpa using ih

/-- Dots after a text and before a slash are segments of their own. -/
theorem segments_dots (cs ds : List Char) (k : Nat) :
    segments (cs ++ ((dots k).toList ++ '/' :: ds)) =
      segments cs ++ (List.replicate k ['.'] ++ segments ds) := by
  induction k generalizing cs with
  | zero => exact segments_append cs ds
  | succ k ih =>
    rw [toList_dots, List.cons_append, segments_append, ← List.singleton_append,
      List.append_assoc, ih ['.'], List.replicate_succ]
    rfl

theorem shorten_dots (lead : Lead) (k : Nat) (above : List Segment) :
    shorten lead (List.replicate k ['.'] ++ above) = shorten lead above := by
  induction k with
  | zero => rfl
  | succ k ih => exact ih

end Path

namespace Tree

variable {t : Tree} {p : Path} {loc l dir : Location}

theorem isFile_of_long (h : pathLimit ≤ p.text.utf8ByteSize) : t.isFile p = false := by
  rw [← Bool.not_eq_true]
  intro hfile
  obtain ⟨loc, bytes, hl, he⟩ := isFile_iff.1 hfile
  have hsize := t.size_lt_of_read (read_eq_ok_iff.2 ⟨loc, hl, he⟩)
  omega

theorem directory?_of_long (h : pathLimit ≤ p.text.utf8ByteSize) : t.directory? p = none := by
  unfold directory?
  cases hl : t.locate p with
  | error e => rfl
  | ok loc =>
    have htext := (locate_eq_ok_iff.1 hl).1
    unfold textError? at htext
    split at htext
    · cases htext
    · rw [if_pos h] at htext
      cases htext

theorem isFile_of_directory (hl : t.locate p = .ok loc) (he : t.entry? loc = some .directory) :
    t.isFile p = false := by
  rw [← Bool.not_eq_true]
  intro hfile
  obtain ⟨l, bytes, hl', he'⟩ := isFile_iff.1 hfile
  obtain rfl := Except.ok.inj (hl.symm.trans hl')
  rw [he] at he'
  cases he'

theorem canonicalOrSelf_of_long (hl : t.locate p = .ok loc) (hne : stepsOf p.text ≠ [])
    (hsize : pathLimit ≤ loc.path.text.utf8ByteSize) : t.canonicalOrSelf p = p := by
  unfold canonicalOrSelf
  cases hc : t.canonical p with
  | error e => rfl
  | ok l =>
    obtain rfl := canonical_unique hl hc
    have hlt := (canonical_eq_ok_iff.1 hc).2.size_lt hne
    omega

theorem size_path_cons (n : Name) {above : Location} (h : above ≠ []) :
    (Location.path (n :: above)).text.utf8ByteSize =
      above.path.text.utf8ByteSize + 1 + n.text.utf8ByteSize := by
  rw [text_path_cons n h, String.utf8ByteSize_append, String.utf8ByteSize_append]
  rfl

theorem size_path_replicate (n : Name) (k : Nat) :
    (Location.path (List.replicate (k + 1) n)).text.utf8ByteSize =
      (k + 1) * (1 + n.text.utf8ByteSize) := by
  induction k with
  | zero =>
    have htext : (Location.path [n]).text = "/" ++ n.text := by
      rw [← String.toList_inj, toList_path, String.toList_append]
      simp [Path.join]
    rw [List.replicate_one, htext, String.utf8ByteSize_append, Nat.one_mul]
    rfl
  | succ k ih =>
    rw [List.replicate_succ, size_path_cons n (by simp), ih, Nat.succ_mul (k + 1)]
    omega

/-! ## Spellings -/

/-- A path through a directory in the root to a name in it, with so many dots before the directory
and so many after it. -/
def spelled (link n : Name) (i k : Nat) : Path :=
  ⟨Path.dots i ++ "/" ++ link.text ++ Path.dots k ++ "/" ++ n.text⟩

section Spelled

variable (link n : Name) (i k : Nat)

theorem toList_spelled : (spelled link n i k).text.toList =
    (Path.dots i).toList ++
      '/' :: (link.text.toList ++ ((Path.dots k).toList ++ '/' :: n.text.toList)) := by
  unfold spelled
  simp only [String.toList_append, List.append_assoc]
  rfl

theorem segments_spelled : Path.segments (spelled link n i k).text.toList =
    [] :: List.replicate i ['.'] ++ link.text.toList :: List.replicate k ['.'] ++
      [n.text.toList] := by
  rw [toList_spelled, ← List.nil_append (_ ++ _), Path.segments_dots, Path.segments_dots,
    Path.segments_of_not_mem (slash_not_mem link), Path.segments_of_not_mem (slash_not_mem n)]
  simp
  rfl

theorem size_spelled : (spelled link n i k).text.utf8ByteSize =
    2 * (i + k) + link.text.utf8ByteSize + n.text.utf8ByteSize + 2 := by
  have hslash : "/".utf8ByteSize = 1 := rfl
  unfold spelled
  simp only [String.utf8ByteSize_append, Path.size_dots, hslash]
  omega

theorem stepsOf_spelled : stepsOf (spelled link n i k).text =
    List.replicate i .here ++ (.name link.text :: (List.replicate k .here ++ [.name n.text])) := by
  have hnamed : namedSteps (spelled link n i k).text =
      List.replicate i .here ++ (.name link.text :: (List.replicate k .here ++ [.name n.text])) := by
    have hdot : stepOf? ['.'] = some .here := rfl
    unfold namedSteps
    rw [segments_spelled]
    simp only [List.cons_append, List.append_assoc, List.filterMap_append, List.filterMap_cons,
      stepOf?_name, List.filterMap_replicate_of_some hdot]
    rfl
  have hends : endsInSlash (spelled link n i k).text = false := by
    apply endsInSlash_eq_false (n := n)
    rw [segments_spelled]
    simp only [List.getLast?_append, List.getLast?_singleton, Option.some_or]
  unfold stepsOf
  rw [hnamed, hends]
  exact List.append_nil _

theorem startOf_spelled (t : Tree) : t.startOf (spelled link n i k) = [] := by
  unfold startOf Path.isAbsolute
  rw [toList_spelled]
  cases i with
  | zero => rfl
  | succ i =>
    rw [Path.toList_dots]
    rfl

theorem textError?_spelled (h : (spelled link n i k).text.utf8ByteSize < pathLimit) :
    textError? (spelled link n i k) = none := by
  have hnul : '\x00' ∉ (spelled link n i k).text.toList := by
    rw [toList_spelled]
    simp [Path.nul_not_mem_dots, nul_not_mem]
  have hne : (spelled link n i k).text ≠ "" := by
    intro he
    have hsize := size_spelled link n i k
    rw [he] at hsize
    have hempty : "".utf8ByteSize = 0 := rfl
    omega
  unfold textError? emptyError?
  rw [if_neg (by simpa using hnul), if_neg hne]
  exact if_neg (Nat.not_le_of_lt h)

theorem split_spelled : (spelled link n i k).split =
    (.root, (List.replicate i ['.'] ++ link.text.toList :: List.replicate k ['.']) ++
      [n.text.toList]) :=
  Path.split_of_segments (segments_spelled link n i k) (by simp)

theorem fileName?_spelled : (spelled link n i k).fileName? = some n.text := by
  rw [Path.fileName?_of_split (split_spelled link n i k) (isSilent_name n) (name_ne_up n),
    String.ofList_toList]

/-- The directory of such a path has the name of the directory in the root. -/
theorem fileName?_parent?_spelled :
    (spelled link n i k).parent?.bind Path.fileName? = some link.text := by
  have habove : ∀ s ∈ List.replicate i ['.'] ++ [link.text.toList], '/' ∉ s := by
    intro s hs
    rcases List.mem_append.1 hs with hs | hs
    · rw [List.eq_of_mem_replicate hs]
      decide
    · rw [List.mem_singleton.1 hs]
      exact slash_not_mem link
  have hparent : (spelled link n i k).parent? =
      some (Path.assemble .root (List.replicate i ['.'] ++ [link.text.toList])) := by
    rw [Path.parent?_of_split (split_spelled link n i k) (isSilent_name n), List.reverse_append,
      List.reverse_cons, List.reverse_replicate, List.append_assoc, Path.shorten_dots,
      List.singleton_append, List.reverse_replicate, Path.shorten, isSilent_name,
      if_neg Bool.false_ne_true, List.head?_cons, List.reverse_cons, List.reverse_replicate]
  have hsegments := Path.segments_assemble habove (by simp)
  rw [hparent, Option.bind_some, Path.fileName?_of_split
    (Path.split_of_segments hsegments (by simp)) (isSilent_name link) (name_ne_up link),
    String.ofList_toList]

end Spelled

/-! ## A link to a deep directory -/

/-- The tree with a directory, a link to it in the root, and some files. -/
def linked (dir : Location) (link : Name) (files : List (Location × ByteArray)) : Tree where
  entries := (dir.tails.map fun d => (d, .directory)) ++ ([link], .link dir.path.text) ::
    files.map fun f => (f.1, .file f.2)
  cwd := []

variable {link : Name} {files : List (Location × ByteArray)}

theorem lookup_directories (dirs : List Location) (loc : Location) :
    (dirs.map fun d => (d, Entry.directory)).lookup loc =
      if loc ∈ dirs then some .directory else none := by
  induction dirs with
  | nil => rfl
  | cons d dirs ih =>
    rw [List.map_cons, List.lookup_cons, ih]
    by_cases hd : loc = d
    · simp [hd]
    · simp [hd, beq_false_of_ne hd]

theorem lookup_files (files : List (Location × ByteArray)) (loc : Location) :
    (files.map fun f => (f.1, Entry.file f.2)).lookup loc = (files.lookup loc).map .file := by
  induction files with
  | nil => rfl
  | cons f files ih =>
    rw [List.map_cons, List.lookup_cons, List.lookup_cons, ih]
    split <;> rfl

theorem entry?_linked_of_suffix (h : loc <:+ dir) :
    entry? (linked dir link files) loc = some .directory := by
  unfold entry? linked
  dsimp only
  rw [List.lookup_append, lookup_directories, if_pos ((List.mem_tails _ _).2 h)]
  split <;> rfl

theorem entry?_linked (h : ¬ loc <:+ dir) :
    entry? (linked dir link files) loc =
      if loc = [link] then some (.link dir.path.text) else (files.lookup loc).map .file := by
  have hne : loc ≠ [] := by
    rintro rfl
    exact h (List.nil_suffix)
  unfold entry? linked
  dsimp only
  rw [if_neg hne, List.lookup_append, lookup_directories, if_neg (mt (List.mem_tails _ _).1 h),
    Option.none_or, List.lookup_cons, lookup_files]
  by_cases hl : loc = [link]
  · simp [hl]
  · simp [hl, beq_false_of_ne hl]

theorem stands_of_suffix (h : ∀ d, d <:+ loc → t.entry? d = some .directory) : t.Stands loc := by
  induction loc with
  | nil => trivial
  | cons n above ih =>
    refine ⟨h above (List.suffix_cons n above), ih fun d hd => ?_⟩
    exact h d (hd.trans (List.suffix_cons n above))

theorem leads_here {k n : Nat} {rest : List Step} (hd : t.entry? loc = some .directory)
    (h : Leads t .direct k loc rest l) :
    Leads t .direct k loc (List.replicate n .here ++ rest) l := by
  induction n with
  | zero => exact h
  | succ n ih => exact .here ⟨rfl, hd⟩ ih

/-- A way through the link goes on from the directory. -/
theorem leads_linked {k : Nat} {rest : List Step} (hlink : ¬ [link] <:+ dir) (hdir : dir ≠ [])
    (h : Leads (linked dir link files) .direct k dir rest l) :
    Leads (linked dir link files) .direct (k + 1) [] (.name link.text :: rest) l := by
  have hentry : entry? (linked dir link files) [link] = some (.link dir.path.text) := by
    rw [entry?_linked hlink, if_pos rfl]
  refine .link ⟨rfl, rfl⟩ rfl hentry ?_
  have hbase : linkBase dir.path.text [] = [] := by
    unfold linkBase
    split <;> rfl
  rw [hbase, stepsOf_path hdir]
  refine leads_location (stands_of_suffix fun d hd => entry?_linked_of_suffix hd)
    (entry?_linked_of_suffix List.suffix_rfl) (by simp) h

theorem entry?_linked_file {n : Name} {bytes : ByteArray} (hdir : dir ≠ [])
    (h : files.lookup (n :: dir) = some bytes) :
    entry? (linked dir link files) (n :: dir) = some (.file bytes) := by
  have hnot : ¬ (n :: dir) <:+ dir := fun hs => Nat.not_succ_le_self _ hs.length_le
  have hlink : n :: dir ≠ [link] := fun hl => hdir (List.cons.inj hl).2
  rw [entry?_linked hnot, if_neg hlink, h]
  rfl

/-- Something in the directory is found under each of the spellings that are within the limit. -/
theorem locate_spelled {n : Name} {e : Entry} {i k : Nat} (hlink : ¬ [link] <:+ dir)
    (hdir : dir ≠ []) (he : entry? (linked dir link files) (n :: dir) = some e)
    (hstop : ∀ target, e ≠ .link target)
    (hsize : (spelled link n i k).text.utf8ByteSize < pathLimit) :
    (linked dir link files).locate (spelled link n i k) = .ok (n :: dir) := by
  have hd : entry? (linked dir link files) dir = some .directory :=
    entry?_linked_of_suffix List.suffix_rfl
  have hname : Leads (linked dir link files) .direct 39 dir [.name n.text] (n :: dir) :=
    .name ⟨rfl, hd⟩ rfl he hstop .done
  refine locate_eq_ok_iff.2 ⟨textError?_spelled link n i k hsize, ?_⟩
  rw [startOf_spelled, stepsOf_spelled]
  exact leads_here (entry?_nil _) (leads_linked hlink hdir (leads_here hd hname))

/-- What is in a directory beyond the limit keeps each of its spellings. -/
theorem canonicalOrSelf_spelled {n : Name} {e : Entry} {i k : Nat} (hlink : ¬ [link] <:+ dir)
    (hdir : dir ≠ []) (he : entry? (linked dir link files) (n :: dir) = some e)
    (hstop : ∀ target, e ≠ .link target)
    (hsize : (spelled link n i k).text.utf8ByteSize < pathLimit)
    (hlong : pathLimit ≤ (Location.path (n :: dir)).text.utf8ByteSize) :
    (linked dir link files).canonicalOrSelf (spelled link n i k) = spelled link n i k := by
  have hne : stepsOf (spelled link n i k).text ≠ [] := by
    rw [stepsOf_spelled]
    simp
  exact canonicalOrSelf_of_long (locate_spelled hlink hdir he hstop hsize) hne hlong

end Tree

end PackageMap
