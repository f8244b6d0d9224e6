import PackageMap.Tree.Basic

/-!
# Changing file trees

Creating, renaming and removing entries, and the replacement of a file through a temporary one
beside it: readers see the bytes before or the bytes after, and a failure leaves the tree as it was.
-/

namespace PackageMap.Tree

/-- The tree with this entry at the location, in the place of any other. -/
def put (t : Tree) (loc : Location) (e : Entry) : Tree :=
  { t with entries := t.entries.filter (fun x => x.1 != loc) ++ [(loc, e)] }

/-- The tree without the entry at the location and all below it. -/
def erase (t : Tree) (loc : Location) : Tree :=
  { t with entries := t.entries.filter fun x => !loc.isSuffixOf x.1 }

/-- The steps to the directory that holds a path's last step, and that step. -/
def splitLast (steps : List Step) : Option (List Step × Step) :=
  steps.getLast?.map fun last => (steps.dropLast, last)

/-- The directory that the steps lead to from `loc`. -/
def followDirectory (t : Tree) (loc : Location) (steps : List Step) : Except IoError Location :=
  match t.follow .direct linkLimit loc steps with
  | .error e => .error e
  | .ok dir =>
    match t.entry? dir with
    | some .directory => .ok dir
    | some _ => .error .notDirectory
    | none => .error .notFound

/--
The location that a file is created at: the last step names it in the directory that the steps
before lead to. A link there is followed, also to where nothing is yet.
-/
def creation (t : Tree) (links : Nat) (loc : Location) (steps : List Step) :
    Except IoError Location :=
  match splitLast steps with
  | none => .error .isDirectory
  | some (before, last) =>
    match t.followDirectory loc before with
    | .error e => .error e
    | .ok dir =>
      match last with
      | .name text =>
        match Name.ofText? text with
        | none => .error .nameTooLong
        | some n =>
          match t.entry? (n :: dir) with
          | some (.link target) =>
            match links with
            | 0 => .error .tooManyLinks
            | links + 1 =>
              creation t links (if (Path.mk target).isAbsolute then [] else dir) (stepsOf target)
          | some .directory => .error .isDirectory
          | _ => .ok (n :: dir)
      | _ => .error .isDirectory

/-- Create the file at a path, or replace what it holds. -/
def writeFile (t : Tree) (p : Path) (bytes : ByteArray) : Except IoError Tree :=
  match textError? p with
  | some e => .error e
  | none =>
    match t.creation linkLimit (t.startOf p) (stepsOf p.text) with
    | .ok loc => .ok (t.put loc (.file bytes))
    | .error e => .error e

/--
The location that a path names, whose last step is not followed. A path that ends at the root, in
`.` or in `..` names none.
-/
def place (t : Tree) (p : Path) : Except IoError Location :=
  match textError? p with
  | some e => .error e
  | none =>
    match splitLast (namedSteps p.text) with
    | none => .error .busy
    | some (before, last) =>
      match t.followDirectory (t.startOf p) before with
      | .error e => .error e
      | .ok dir =>
        match last with
        | .name text =>
          match Name.ofText? text with
          | none => .error .nameTooLong
          | some n => .ok (n :: dir)
        | _ => .error .busy

/-- Move the file or link at a location to the one that a path names, in the place of another. A
slash at the end of the path asks for a directory. -/
def rename (t : Tree) (loc : Location) (p : Path) : Except IoError Tree :=
  match t.place p with
  | .error e => .error e
  | .ok target =>
    if endsInSlash p.text then .error .notDirectory
    else
      match t.entry? loc, t.entry? target with
      | none, _ => .error .notFound
      | some _, some .directory => .error .isDirectory
      | some e, _ => .ok ((t.erase loc).put target e)

/-- The temporary file beside a path. `tag` tells the files of different writers apart. -/
def temporary (p : Path) (tag : String) : Path :=
  (p.parent?.getD ⟨"."⟩).child ("." ++ p.fileName?.getD "out" ++ ".tmp." ++ tag)

/-- Replace the file at a path through a temporary one beside it, which is removed on failure. -/
def replaceFile (t : Tree) (p : Path) (bytes : ByteArray) (tag : String) :
    Tree × Except IoError Unit :=
  match t.writeFile (temporary p tag) bytes with
  | .error e => (t, .error e)
  | .ok written =>
    match written.place (temporary p tag) with
    | .error e => (written, .error e)
    | .ok loc =>
      match written.rename loc p with
      | .ok renamed => (renamed, .ok ())
      | .error e => (written.erase loc, .error e)

/-- The tree with the directories that lead to a path. -/
def makeDirectories (t : Tree) (p : Path) : Tree :=
  p.ancestors.reverse.foldl (fun t q =>
    if t.isDirectory q then t
    else match t.place q with
      | .ok loc => t.put loc .directory
      | .error _ => t) t

/-- The tree with the entry at a path, and with the directories above it. -/
def insert (t : Tree) (p : Path) (e : Entry) : Tree :=
  let t := match p.parent? with
    | some dir => t.makeDirectories dir
    | none => t
  match e with
  | .directory => t.makeDirectories p
  | .file bytes =>
    match t.writeFile p bytes with
    | .ok t => t
    | .error _ => t
  | .link _ =>
    match t.place p with
    | .ok loc => t.put loc e
    | .error _ => t

/-- The tree without what a path names. -/
def remove (t : Tree) (p : Path) : Tree :=
  match t.place p with
  | .ok loc => t.erase loc
  | .error _ => t

end PackageMap.Tree
