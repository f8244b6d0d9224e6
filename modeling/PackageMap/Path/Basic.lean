/-!
# Paths

A path is kept as it is written. Two paths are the same when their components are: empty segments,
and `.` segments other than a leading one, do not count. The operations that shorten a path work on
its segments, so what is kept is kept as written.
-/

namespace PackageMap

/-- A path, whose names are taken to be UTF-8. -/
structure Path where
  text : String
deriving DecidableEq, Repr, Inhabited

namespace Path

/-- The texts between the slashes of a path. -/
abbrev Segment := List Char

inductive Component where
  | root
  | current
  | parent
  | name (text : String)
deriving DecidableEq, Repr, Inhabited

/-- Cut at every slash. There is one segment more than slashes. -/
def segments (cs : List Char) : List Segment :=
  cs.foldr (fun c ss =>
    if c = '/' then [] :: ss
    else match ss with
      | [] => [[c]]
      | s :: ss => (c :: s) :: ss) [[]]

theorem segments_ne_nil (cs : List Char) : segments cs ≠ [] := by
  cases cs with
  | nil => simp [segments]
  | cons c cs =>
    unfold segments
    rw [List.foldr_cons]
    split
    · simp
    · split <;> simp

/-- Put segments back together with slashes between them. -/
def join (ss : List Segment) : List Char := ['/'].intercalate ss

/-- A segment that is no component. -/
def isSilent (s : Segment) : Bool := s == [] || s == ['.']

/-- How a path begins: at the root, at an explicit `.`, or with its first segment. -/
inductive Lead where
  | root
  | current
  | none
deriving DecidableEq, Repr

/-- The start of a path and the segments after it. -/
def split (p : Path) : Lead × List Segment :=
  match segments p.text.toList with
  | [] :: s :: ss => (.root, s :: ss)
  | ['.'] :: ss => (.current, ss)
  | ss => (.none, ss)

/-- The path with this start and these segments. -/
def assemble : Lead → List Segment → Path
  | .root, ss => ⟨String.ofList ('/' :: join ss)⟩
  | .current, [] => ⟨"."⟩
  | .current, ss => ⟨String.ofList ('.' :: '/' :: join ss)⟩
  | .none, ss => ⟨String.ofList (join ss)⟩

def Lead.components : Lead → List Component
  | .root => [.root]
  | .current => [.current]
  | .none => []

def segmentComponent? (s : Segment) : Option Component :=
  if isSilent s then none else if s = ['.', '.'] then some .parent else some (.name (String.ofList s))

def components (p : Path) : List Component :=
  let (lead, ss) := p.split
  lead.components ++ ss.filterMap segmentComponent?

/-- Equality of paths, by components. -/
def Same (p q : Path) : Prop := p.components = q.components

instance : DecidableRel Same := fun p q => inferInstanceAs (Decidable (p.components = q.components))

theorem Same.refl (p : Path) : p.Same p := rfl

theorem Same.symm {p q : Path} (h : p.Same q) : q.Same p := Eq.symm h

theorem Same.trans {p q r : Path} (h : p.Same q) (h' : q.Same r) : p.Same r := Eq.trans h h'

def isAbsolute (p : Path) : Bool := p.text.toList.head? == some '/'

/-- The segments of a path with those after its last component left out, last first. -/
def trimmed (ss : List Segment) : List Segment := ss.reverse.dropWhile isSilent

/-- The paths that end above the given segments, which are given last first, nearest first. -/
def shorten (lead : Lead) : List Segment → List Path
  | [] =>
    match lead with
    | .root => [⟨"/"⟩]
    | .current => [⟨"."⟩, ⟨""⟩]
    | .none => [⟨""⟩]
  | s :: above =>
    if isSilent s then shorten lead above
    else assemble lead (s :: above).reverse :: shorten lead above

/-- The paths above a path, nearest first. -/
def parents (p : Path) : List Path :=
  let (lead, ss) := p.split
  match trimmed ss with
  | [] => if lead = .current then [⟨""⟩] else []
  | _ :: above => shorten lead above

/-- The path without its last component. The root and the empty path have none. -/
def parent? (p : Path) : Option Path := p.parents.head?

/-- A path and the paths above it, nearest first. -/
def ancestors (p : Path) : List Path := p :: p.parents

/-- The last component, if it is a name. -/
def fileName? (p : Path) : Option String :=
  match trimmed p.split.2 with
  | [] => none
  | s :: _ => if s = ['.', '.'] then none else some (String.ofList s)

/-- What follows the last dot of the file name. A dot that starts the name does not count. -/
def extension? (p : Path) : Option String := do
  let name ← p.fileName?
  let after := name.toList.reverse.takeWhile (· != '.')
  let before := name.toList.reverse.dropWhile (· != '.')
  if before.length ≤ 1 then none else some (String.ofList after.reverse)

/-- The path `text` seen from `p`: `text` itself if it is absolute, else the two texts with a slash
between them where one is needed. -/
def child (p : Path) (text : String) : Path :=
  if (Path.mk text).isAbsolute then ⟨text⟩
  else if p.text = "" ∨ p.text.toList.getLast? = some '/' then ⟨p.text ++ text⟩
  else ⟨p.text ++ "/" ++ text⟩

/-- The path with `ending` added to its text. -/
def append (p : Path) (ending : String) : Path := ⟨p.text ++ ending⟩

/-- Leave out the segments up to and with the `n`th component. -/
def dropComponents : Nat → List Segment → List Segment
  | 0, ss => ss
  | n + 1, ss => dropComponents n ((ss.dropWhile isSilent).drop 1)

/-- What follows the components of `base` in `p`, if `p` starts with them. -/
def relativeTo? (p base : Path) : Option Path :=
  if base.components.isPrefixOf p.components then
    let (lead, ss) := p.split
    match base.components.length with
    | 0 => some (assemble lead (trimmed ss).reverse)
    | n + 1 =>
      let rest := dropComponents (n + 1 - lead.components.length) ss
      some (assemble .none (trimmed (rest.dropWhile isSilent)).reverse)
  else none

def Component.rank : Component → Nat
  | .root => 0
  | .current => 1
  | .parent => 2
  | .name _ => 3

/-- The order of components: the root, `.`, `..`, then names in the order of their characters. -/
def Component.le (a b : Component) : Bool :=
  match a, b with
  | .name s, .name t => s ≤ t
  | a, b => a.rank ≤ b.rank

/-- The order of paths, component by component. -/
def componentsLe : List Component → List Component → Bool
  | [], _ => true
  | _ :: _, [] => false
  | a :: as, b :: bs => if a = b then componentsLe as bs else a.le b

protected def le (p q : Path) : Bool := componentsLe p.components q.components

end Path

end PackageMap
