import PackageMap.Ordered
import PackageMap.Path.Basic

/-!
# File trees

A tree is a finite map from locations to files, directories and symbolic links. A location is the
list of names up to the root, free of links, so two locations are one file only if they are equal.

The text of a path is limited where it is looked up, but where it leads is not. Writing out the
locations on the way, which makes a path canonical, limits these instead of the text.
-/

namespace PackageMap

/-- Why a request to the file system fails. -/
inductive IoError where
  | notFound
  | busy
  | notDirectory
  | isDirectory
  | nameTooLong
  | tooManyLinks
  | nulInPath
  | invalidText
deriving DecidableEq, Repr

def IoError.message : IoError → String
  | .notFound => "No such file or directory (os error 2)"
  | .busy => "Device or resource busy (os error 16)"
  | .notDirectory => "Not a directory (os error 20)"
  | .isDirectory => "Is a directory (os error 21)"
  | .nameTooLong => "File name too long (os error 36)"
  | .tooManyLinks => "Too many levels of symbolic links (os error 40)"
  | .nulInPath => "file name contained an unexpected NUL byte"
  | .invalidText => "stream did not contain valid UTF-8"

/-- The greatest number of bytes in a name. -/
def nameLimit : Nat := 255

/-- The number of bytes that a path stays below. -/
def pathLimit : Nat := 4096

/-- The greatest number of links that one path may follow. -/
def linkLimit : Nat := 40

/-- Whether a text can name an entry of a directory. -/
def isName (s : String) : Bool :=
  s != "" && s != "." && s != ".." && !s.toList.contains '/' && !s.toList.contains '\x00' &&
    decide (s.utf8ByteSize ≤ nameLimit)

/-- The name of an entry of a directory, taken to be UTF-8. -/
structure Name where
  text : String
  valid : isName text
deriving DecidableEq, Repr

def Name.ofText? (s : String) : Option Name := if h : isName s then some ⟨s, h⟩ else none

theorem Name.ofText?_text (n : Name) : Name.ofText? n.text = some n := by
  unfold Name.ofText?; rw [dif_pos n.valid]

/-- The names that lead from an entry up to the root. -/
abbrev Location := List Name

/-- The absolute path of a location. -/
def Location.path (loc : Location) : Path :=
  ⟨String.ofList ('/' :: Path.join (loc.reverse.map fun n => n.text.toList))⟩

inductive Entry where
  | file (bytes : ByteArray)
  | directory
  | link (target : String)

namespace Entry

/-- Files are equal if their bytes are. -/
def decEq : (a b : Entry) → Decidable (a = b)
  | .file a, .file b =>
    if h : a.data = b.data then isTrue (congrArg Entry.file (ByteArray.ext h))
    else isFalse fun e => h (congrArg ByteArray.data (Entry.file.inj e))
  | .directory, .directory => isTrue rfl
  | .link s, .link t =>
    if h : s = t then isTrue (congrArg Entry.link h) else isFalse fun e => h (Entry.link.inj e)
  | .file _, .directory => isFalse nofun
  | .file _, .link _ => isFalse nofun
  | .directory, .file _ => isFalse nofun
  | .directory, .link _ => isFalse nofun
  | .link _, .file _ => isFalse nofun
  | .link _, .directory => isFalse nofun

instance : DecidableEq Entry := decEq

end Entry

/-- A file tree, and the directory that relative paths start from. -/
structure Tree where
  entries : List (Location × Entry)
  cwd : Location
deriving DecidableEq

namespace Tree

/-- The entry at a location. The root is a directory. -/
def entry? (t : Tree) (loc : Location) : Option Entry :=
  if loc = [] then some .directory else t.entries.lookup loc

@[simp] theorem entry?_nil (t : Tree) : t.entry? [] = some .directory := rfl

/-- The name of an entry if its location lies directly in `dir`. -/
def childName? (dir : Location) : Location → Option Name
  | [] => none
  | n :: above => if above = dir then some n else none

/-- The names in a directory, in order, each once. -/
def children (t : Tree) (dir : Location) : List Name :=
  ((t.entries.filterMap fun e => childName? dir e.1).foldl
    (fun names n => Ordered.put n.text n names) []).map Prod.snd

/-! ## Following paths -/

/-- A segment of a path that is followed. -/
inductive Step where
  | here
  | up
  | name (text : String)
deriving DecidableEq, Repr

def stepOf? (s : Path.Segment) : Option Step :=
  if s = [] then none
  else if s = ['.'] then some .here
  else if s = ['.', '.'] then some .up
  else some (.name (String.ofList s))

/-- The steps that the segments of a path name. -/
def namedSteps (text : String) : List Step := (Path.segments text.toList).filterMap stepOf?

def endsInSlash (text : String) : Bool := text.toList.getLast? == some '/'

/-- The steps of a path. A slash at its end asks for a directory. -/
def stepsOf (text : String) : List Step :=
  namedSteps text ++ if endsInSlash text then [.here] else []

/-- How a way is gone. -/
inductive Manner where
  /-- Only where it leads counts. -/
  | direct
  /-- Each location on it is written out. -/
  | written
deriving DecidableEq, Repr

/-- Whether the way may go through a location with so many bytes after its path. -/
def Manner.admits (how : Manner) (loc : Location) (more : Nat) : Bool :=
  match how with
  | .direct => true
  | .written => decide (loc.path.text.utf8ByteSize + more < pathLimit)

/--
The location that the steps lead to from `loc`. Every step starts in a directory. At a link the rest
of the way is that of its target and the steps after it, which `jump` goes. A location that is
written out has a slash after it where the way goes on.
-/
def advance (t : Tree) (how : Manner)
    (jump : Location → List Step → Except IoError Location) (loc : Location) :
    List Step → Except IoError Location
  | [] => .ok loc
  | s :: rest =>
    if !how.admits loc 1 then .error .nameTooLong
    else
      match t.entry? loc with
      | none => .error .notFound
      | some (.file _) => .error .notDirectory
      | some (.link _) => .error .notDirectory
      | some .directory =>
        match s with
        | .here => advance t how jump loc rest
        | .up => advance t how jump loc.tail rest
        | .name text =>
          match Name.ofText? text with
          | none => .error .nameTooLong
          | some n =>
            if !how.admits (n :: loc) 0 then .error .nameTooLong
            else
              match t.entry? (n :: loc) with
              | none => .error .notFound
              | some (.link target) =>
                jump (if (Path.mk target).isAbsolute then [] else loc) (stepsOf target ++ rest)
              | some _ => advance t how jump (n :: loc) rest

/-- The location that the steps lead to from `loc` if at most `links` links are followed. -/
def follow (t : Tree) (how : Manner) (links : Nat) :
    Location → List Step → Except IoError Location :=
  match links with
  | 0 => advance t how fun _ _ => .error .tooManyLinks
  | links + 1 => advance t how (follow t how links)

/-- Where following a path starts. -/
def startOf (t : Tree) (p : Path) : Location := if p.isAbsolute then [] else t.cwd

/-- The error that a path has because its text names nothing. -/
def emptyError? (p : Path) : Option IoError :=
  if p.text.toList.contains '\x00' then some .nulInPath
  else if p.text = "" then some .notFound
  else none

/-- The error that a path has by its text when it is looked up. -/
def textError? (p : Path) : Option IoError :=
  match emptyError? p with
  | some e => some e
  | none => if p.text.utf8ByteSize ≥ pathLimit then some .nameTooLong else none

/-- The location that a path leads to. -/
def locate (t : Tree) (p : Path) : Except IoError Location :=
  match textError? p with
  | some e => .error e
  | none => t.follow .direct linkLimit (t.startOf p) (stepsOf p.text)

/-- The location that a path of any length leads to, with the locations on the way written out. -/
def canonical (t : Tree) (p : Path) : Except IoError Location :=
  match emptyError? p with
  | some e => .error e
  | none => t.follow .written linkLimit (t.startOf p) (stepsOf p.text)

/-- The canonical path of `p`, or `p` itself if it has none. -/
def canonicalOrSelf (t : Tree) (p : Path) : Path :=
  match t.canonical p with
  | .ok loc => loc.path
  | .error _ => p

/-- The location of the regular file that a path leads to. -/
def file? (t : Tree) (p : Path) : Option Location :=
  match t.locate p with
  | .ok loc =>
    match t.entry? loc with
    | some (.file _) => some loc
    | _ => none
  | .error _ => none

/-- The location of the directory that a path leads to. -/
def directory? (t : Tree) (p : Path) : Option Location :=
  match t.locate p with
  | .ok loc =>
    match t.entry? loc with
    | some .directory => some loc
    | _ => none
  | .error _ => none

def isFile (t : Tree) (p : Path) : Bool := (t.file? p).isSome

def isDirectory (t : Tree) (p : Path) : Bool := (t.directory? p).isSome

/-- The bytes of the file at a location. -/
def readAt (t : Tree) (loc : Location) : Except IoError ByteArray :=
  match t.entry? loc with
  | some (.file bytes) => .ok bytes
  | some .directory => .error .isDirectory
  | some (.link _) => .error .tooManyLinks
  | none => .error .notFound

/-- The bytes of the file that a path leads to. -/
def read (t : Tree) (p : Path) : Except IoError ByteArray :=
  match t.locate p with
  | .ok loc => t.readAt loc
  | .error e => .error e

/-- What is read is the bytes of a file of the tree. -/
theorem mem_entries_of_read (t : Tree) {p : Path} {bytes : ByteArray} (h : t.read p = .ok bytes) :
    ∃ loc, (loc, .file bytes) ∈ t.entries := by
  unfold read at h
  split at h
  · next loc _ =>
    unfold readAt at h
    split at h
    · next found he =>
      cases h
      unfold entry? at he
      split at he
      · cases he
      · obtain ⟨l₁, l₂, hl, _⟩ := List.lookup_eq_some_iff.1 he
        exact ⟨loc, hl ▸ List.mem_append_right l₁ List.mem_cons_self⟩
    · cases h
    · cases h
    · cases h
  · cases h

/-- What is read is under a path within the limit. -/
theorem size_lt_of_read (t : Tree) {p : Path} {bytes : ByteArray} (h : t.read p = .ok bytes) :
    p.text.utf8ByteSize < pathLimit := by
  unfold read locate textError? at h
  split at h
  · next heq =>
    split at heq
    · cases heq
    · next hnone =>
      split at hnone
      · cases hnone
      · split at hnone
        · cases hnone
        · omega
  · cases h

end Tree

end PackageMap
