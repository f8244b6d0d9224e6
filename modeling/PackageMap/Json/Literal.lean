import PackageMap.Json.Numeral
import PackageMap.Json.Quoted

/-!
# The grammar of JSON

A text is read into a literal, which keeps what the grammar alone does not settle: numbers of any
size, any depth, keys that occur twice, and escapes that name half of a surrogate pair.
-/

namespace PackageMap.Json

inductive Literal where
  | null
  | bool (b : Bool)
  | number (n : Numeral)
  | string (t : Text)
  | array (items : List Literal)
  | object (members : List (Text × Literal))
deriving Inhabited

namespace Literal

def isSpace (c : Char) : Bool := c == ' ' || c == '\t' || c == '\n' || c == '\r'

def skipSpace (cs : List Char) : List Char := cs.dropWhile isSpace

theorem skipSpace_length_le (cs : List Char) : (skipSpace cs).length ≤ cs.length :=
  (List.dropWhile_suffix _).length_le

/-- An array or an object that is still open, its parts newest first. -/
inductive Frame where
  | array (items : List Literal)
  | object (members : List (Text × Literal)) (key : Text)

/-- The reader in front of a value, or behind one. -/
inductive Position where
  | before
  | behind (l : Literal)

/-- The reader: where it stands, the open containers, innermost first, and the rest of the text. -/
structure State where
  position : Position
  frames : List Frame
  rest : List Char

/-- A member's key and colon, and then the reader in front of its value. -/
def readKey (members : List (Text × Literal)) (frames : List Frame) (cs : List Char) :
    Option State :=
  match skipSpace cs with
  | '"' :: r =>
    match readText r with
    | some (key, r) =>
      match skipSpace r with
      | ':' :: r => some ⟨.before, .object members key :: frames, r⟩
      | _ => none
    | none => none
  | _ => none

theorem readKey_length_lt {members : List (Text × Literal)} {frames : List Frame}
    {cs : List Char} {s : State} (h : readKey members frames cs = some s) :
    s.rest.length < cs.length := by
  unfold readKey at h
  split at h
  · next hs =>
    split at h
    · next r ht =>
      split at h
      · next hc =>
        cases h
        have h1 := hs ▸ skipSpace_length_le cs
        have h2 := readText_length_lt ht
        have h3 := hc ▸ skipSpace_length_le r
        simp only [List.length_cons] at *
        omega
      · cases h
    · cases h
  · cases h

/-- The state behind a value. -/
def State.behind (frames : List Frame) (l : Literal) (rest : List Char) : State :=
  ⟨.behind l, frames, rest⟩

/-- The reader in front of the value that starts with `c`. -/
def stepBefore (frames : List Frame) (c : Char) (r : List Char) : Option State :=
  if c = '"' then (readText r).map fun (t, rest) => .behind frames (.string t) rest
  else if c = '[' then
    match skipSpace r with
    | ']' :: rest => some (.behind frames (.array []) rest)
    | rest => some ⟨.before, .array [] :: frames, rest⟩
  else if c = '\x7b' then
    match skipSpace r with
    | '\x7d' :: rest => some (.behind frames (.object []) rest)
    | rest => readKey [] frames rest
  else
    match c, r with
    | 'n', 'u' :: 'l' :: 'l' :: rest => some (.behind frames .null rest)
    | 't', 'r' :: 'u' :: 'e' :: rest => some (.behind frames (.bool true) rest)
    | 'f', 'a' :: 'l' :: 's' :: 'e' :: rest => some (.behind frames (.bool false) rest)
    | c, r => (Numeral.read (c :: r)).map fun (n, rest) => .behind frames (.number n) rest

theorem stepBefore_length_lt {frames : List Frame} {c : Char} {r : List Char} {s : State}
    (h : stepBefore frames c r = some s) : s.rest.length < (c :: r).length := by
  unfold stepBefore at h
  have hsp := skipSpace_length_le r
  split at h
  · obtain ⟨⟨t, rest⟩, ht, hs⟩ := Option.map_eq_some_iff.1 h
    cases hs
    exact Nat.lt_succ_of_lt (readText_length_lt ht)
  split at h
  · split at h
    · next hs => cases h; rw [hs] at hsp; exact Nat.lt_succ_of_lt hsp
    · cases h; exact Nat.lt_succ_of_le hsp
  split at h
  · split at h
    · next hs => cases h; rw [hs] at hsp; exact Nat.lt_succ_of_lt hsp
    · exact Nat.lt_succ_of_lt (Nat.lt_of_lt_of_le (readKey_length_lt h) hsp)
  split at h
  · cases h; simp [State.behind]; omega
  · cases h; simp [State.behind]; omega
  · cases h; simp [State.behind]; omega
  · obtain ⟨⟨n, rest⟩, hn, hs⟩ := Option.map_eq_some_iff.1 h
    cases hs
    exact Numeral.read_length_lt hn

/-- The reader after the mark `c` behind a value of an open container. -/
def stepBehind (l : Literal) (frame : Frame) (frames : List Frame) (c : Char) (r : List Char) :
    Option State :=
  match frame with
  | .array items =>
    if c = ',' then some ⟨.before, .array (l :: items) :: frames, r⟩
    else if c = ']' then some (.behind frames (.array (l :: items).reverse) r)
    else none
  | .object members key =>
    if c = ',' then readKey ((key, l) :: members) frames r
    else if c = '\x7d' then some (.behind frames (.object ((key, l) :: members).reverse) r)
    else none

theorem stepBehind_length_lt {l : Literal} {frame : Frame} {frames : List Frame} {c : Char}
    {r : List Char} {s : State} (h : stepBehind l frame frames c r = some s) :
    s.rest.length < (c :: r).length := by
  unfold stepBehind at h
  split at h
  · split at h
    · cases h; exact Nat.lt_succ_self _
    split at h
    · cases h; exact Nat.lt_succ_self _
    · cases h
  · split at h
    · exact Nat.lt_succ_of_lt (readKey_length_lt h)
    split at h
    · cases h; exact Nat.lt_succ_self _
    · cases h

/-- One step of the reader, which takes at least one character. -/
def step (s : State) : Option State :=
  match skipSpace s.rest with
  | [] => none
  | c :: r =>
    match s.position, s.frames with
    | .before, frames => stepBefore frames c r
    | .behind l, frame :: frames => stepBehind l frame frames c r
    | .behind _, [] => none

theorem step_length_lt {s s' : State} (h : step s = some s') : s'.rest.length < s.rest.length := by
  unfold step at h
  split at h
  · cases h
  · next hs =>
    have hsp := hs ▸ skipSpace_length_le s.rest
    split at h
    · exact Nat.lt_of_lt_of_le (stepBefore_length_lt h) hsp
    · exact Nat.lt_of_lt_of_le (stepBehind_length_lt h) hsp
    · cases h

/-- The literal that a state has read when nothing but space is left. -/
def State.result? (s : State) : Option Literal :=
  match s.position, s.frames with
  | .behind l, [] => if skipSpace s.rest = [] then some l else none
  | _, _ => none

def finish (s : State) : Option Literal :=
  match s.result? with
  | some l => some l
  | none =>
    match _h : step s with
    | some s' => finish s'
    | none => none
termination_by s.rest.length
decreasing_by exact step_length_lt _h

end Literal

/-- The literal that a text writes, if it follows the grammar. -/
def Literal.ofText? (cs : List Char) : Option Literal := finish ⟨.before, [], cs⟩

end PackageMap.Json
