import PackageMap.Json.Read
import PackageMap.Json.Write
import PackageMap.Proofs.Json.Grammar

/-!
# Reading what was written

The text that is written for a value is read as that value (`Readable.ofText?_compactText`), if its
numbers are well formed and in range and it nests no deeper than the reader allows. The text spells
the literal of the value (`Readable.spelled`), and the literal is the value again within the limits
(`Readable.ofLiteral?_literal`).
-/

namespace PackageMap

/-! ## Strings -/

namespace Json

open PackageMap.Text (hexDigit hexValue?_hexDigit)

theorem hexUnit?_control {c : Char} (h : c.toNat < 0x20) :
    hexUnit? '0' '0' (hexDigit (c.toNat / 16)) (hexDigit (c.toNat % 16)) = some c.toNat := by
  have hzero : PackageMap.Text.hexValue? '0' = some 0 := by decide
  have hhigh := hexValue?_hexDigit (n := c.toNat / 16) (by omega)
  have hlow := hexValue?_hexDigit (n := c.toNat % 16) (by omega)
  simp only [hexUnit?, hzero, hhigh, hlow, Option.bind_eq_bind, Option.bind_some, Option.pure_def,
    Option.some.injEq]
  omega

theorem pieceOfUnit_toNat {c : Char} (h : c.toNat < 0x20) : pieceOfUnit c.toNat = .char c := by
  unfold pieceOfUnit
  rw [if_neg (by omega), Char.ofNat_toNat]

/-- A character is spelled by its escape. -/
theorem spelled_escape (c : Char) : (Piece.char c).Spelled (escape c) := by
  unfold escape
  split
  · next h => subst h; exact .escaped rfl
  split
  · next h => subst h; exact .escaped rfl
  split
  · next h => subst h; exact .escaped rfl
  split
  · next h => subst h; exact .escaped rfl
  split
  · next h => subst h; exact .escaped rfl
  split
  · next h => subst h; exact .escaped rfl
  split
  · next h => subst h; exact .escaped rfl
  split
  · next h =>
    rw [← pieceOfUnit_toNat h]
    exact .unit (hexUnit?_control h)
  · next hquote hslash _ _ _ _ _ h => exact .plain ⟨hquote, hslash, Nat.not_lt.1 h⟩

theorem spelled_escapes (cs : List Char) :
    List.Forall₂ Piece.Spelled (cs.map .char) (cs.map escape) := by
  rw [List.forall₂_map_left_iff, List.forall₂_map_right_iff, List.forall₂_same]
  exact fun c _ => spelled_escape c

theorem joins_chars (cs : List Char) : Joins (cs.map .char) cs := by
  induction cs with
  | nil => exact .nil
  | cons c cs ih => exact .char c ih

theorem quoted_quote (s : String) : Quoted (some s) (quote s) := by
  have hquoted := Quoted.joined (spelled_escapes s.toList) (joins_chars s.toList)
  rwa [String.ofList_toList, ← List.flatMap_def] at hquoted

end Json

/-! ## Numbers -/

namespace Numeral

/-- How the exponent is written. -/
def exponentText : Option (Bool × List Char) → List Char
  | none => []
  | some (negative, ds) => 'e' :: ((if negative then ['-'] else []) ++ ds)

theorem text_eq (n : Numeral) : n.text = (if n.negative then ['-'] else []) ++
    (n.whole ++ (fractionText n.fraction ++ exponentText n.exponent)) := by
  obtain ⟨negative, whole, fraction, exponent⟩ := n
  cases exponent with
  | none => simp [text, fractionText, exponentText]
  | some e => simp [text, fractionText, exponentText]

theorem spelled_exponentText (e : Option (Bool × List Char)) :
    ExponentSpelled e (exponentText e) := by
  cases e with
  | none => exact .none
  | some e =>
    obtain ⟨negative, ds⟩ := e
    cases negative with
    | true => exact .minus ds (.inl rfl)
    | false => exact .bare ds (.inl rfl)

theorem spelled_text {n : Numeral} (h : n.WellFormed) : n.Spelled n.text := by
  rw [text_eq]
  exact .mk h (spelled_exponentText n.exponent)

end Numeral

/-! ## Literals -/

namespace Json

mutual

/-- The literal that is written for a value. -/
def literal : Json → Literal
  | .null => .null
  | .bool b => .bool b
  | .number n => .number n
  | .string s => .string (some s)
  | .array items => .array (literals items)
  | .object members => .object (memberLiterals members)

def literals : List Json → List Literal
  | [] => []
  | j :: js => literal j :: literals js

def memberLiterals : List (String × Json) → List (Text × Literal)
  | [] => []
  | (key, j) :: ms => (some key, literal j) :: memberLiterals ms

end

namespace Literal

/-- A value in a container, without space. -/
def item (j : Json) : Item := ⟨j.literal, [], j.compact, []⟩

/-- A member of an object, without space. -/
def member (m : String × Json) : Member := ⟨some m.1, [], quote m.1, [], item m.2⟩

theorem space_nil : Space [] := nofun

theorem literals_eq (js : List Json) : literals js = (js.map item).map Item.literal := by
  induction js with
  | nil => rfl
  | cons j js ih => rw [literals, ih]; rfl

theorem memberLiterals_eq (ms : List (String × Json)) :
    memberLiterals ms = (ms.map member).map Member.entry := by
  induction ms with
  | nil => rfl
  | cons m ms ih => rw [memberLiterals, ih]; rfl

theorem text_item (j : Json) : (item j).text = j.compact := by
  simp [Item.text, item]

theorem text_member (m : String × Json) : (member m).text = quote m.1 ++ ':' :: m.2.compact := by
  simp [Member.text, member, text_item]

theorem compactItems_eq (js : List Json) :
    compactItems js = commas ((js.map item).map Item.text) := by
  induction js with
  | nil => rfl
  | cons j js ih =>
    cases js with
    | nil => rw [compactItems, List.map_singleton, List.map_singleton, commas_singleton, text_item]
    | cons j' js =>
      simp only [List.map_cons] at ih ⊢
      rw [compactItems, ih, commas_cons_cons, text_item j]
      exact List.cons_ne_nil j' js

theorem compactMembers_eq (ms : List (String × Json)) :
    compactMembers ms = commas ((ms.map member).map Member.text) := by
  induction ms with
  | nil => rfl
  | cons m ms ih =>
    cases ms with
    | nil =>
      rw [compactMembers, List.map_singleton, List.map_singleton, commas_singleton, text_member]
    | cons m' ms =>
      simp only [List.map_cons] at ih ⊢
      rw [compactMembers, ih, commas_cons_cons, text_member m, List.append_assoc, List.cons_append]
      exact List.cons_ne_nil m' ms

theorem spelled_array {js : List Json} (h : ∀ j ∈ js, Spelled j.literal j.compact) :
    Spelled (.array (literals js)) (compact (.array js)) := by
  rw [compact, compactItems_eq, literals_eq]
  cases js with
  | nil => exact .noItems space_nil
  | cons j js =>
    refine .items ?_ ?_ <;> rw [← List.map_cons, List.forall_mem_map]
    · exact fun _ _ => ⟨space_nil, space_nil⟩
    · exact h

theorem spelled_object {ms : List (String × Json)}
    (h : ∀ m ∈ ms, Spelled m.2.literal m.2.compact) :
    Spelled (.object (memberLiterals ms)) (compact (.object ms)) := by
  rw [compact, compactMembers_eq, memberLiterals_eq]
  cases ms with
  | nil => exact .noMembers space_nil
  | cons m ms =>
    refine .members ?_ ?_ ?_ <;> rw [← List.map_cons, List.forall_mem_map]
    · exact fun _ _ => ⟨space_nil, space_nil, space_nil, space_nil⟩
    · exact fun m _ => quoted_quote m.1
    · exact h

end Literal

end Json

/-! ## Values -/

namespace Json

/-- The values that may be written and read, where `depth` containers may be open at once. -/
inductive Readable : Nat → Json → Prop
  | null {depth} : Readable depth .null
  | bool {depth} (b) : Readable depth (.bool b)
  | number {depth n} (h : n.WellFormed) (hrange : n.inRange) : Readable depth (.number n)
  | string {depth} (s) : Readable depth (.string s)
  | array {depth js} (h : ∀ j ∈ js, Readable depth j) : Readable (depth + 1) (.array js)
  | object {depth ms} (h : ∀ m ∈ ms, Readable depth m.2) : Readable (depth + 1) (.object ms)

variable {depth : Nat} {j : Json}

theorem Readable.spelled (h : Readable depth j) : Literal.Spelled j.literal j.compact := by
  induction h with
  | null => exact .null
  | bool b =>
    cases b with
    | true => exact .true
    | false => exact .false
  | number h _ => exact .number (Numeral.spelled_text h)
  | string s => exact .string (quoted_quote s)
  | array _ ih => exact Literal.spelled_array ih
  | object _ ih => exact Literal.spelled_object ih

theorem ofItems?_literals {js : List Json} (h : ∀ j ∈ js, ofLiteral? depth j.literal = some j)
    (taken : List Json) :
    ofItems? depth taken (literals js) = some (.array (taken.reverse ++ js)) := by
  induction js generalizing taken with
  | nil => rw [literals, ofItems?, List.append_nil]
  | cons j js ih =>
    rw [literals, ofItems?, h j (by simp)]
    dsimp only
    rw [ih fun i hi => h i (.tail _ hi)]
    simp

theorem ofMembers?_memberLiterals {ms : List (String × Json)}
    (h : ∀ m ∈ ms, ofLiteral? depth m.2.literal = some m.2) (taken : List (String × Json)) :
    ofMembers? depth taken (memberLiterals ms) = some (.object (taken.reverse ++ ms)) := by
  induction ms generalizing taken with
  | nil => rw [memberLiterals, ofMembers?, List.append_nil]
  | cons m ms ih =>
    rw [memberLiterals, ofMembers?, h m (by simp)]
    dsimp only
    rw [ih fun e he => h e (.tail _ he)]
    simp

theorem Readable.ofLiteral?_literal (h : Readable depth j) :
    ofLiteral? depth j.literal = some j := by
  induction h with
  | null => rw [literal, ofLiteral?]
  | bool b => rw [literal, ofLiteral?]
  | number _ hrange => rw [literal, ofLiteral?, if_pos hrange]
  | string s => rw [literal, ofLiteral?, Option.map_some]
  | array _ ih =>
    rw [literal, ofLiteral?]
    exact ofItems?_literals ih []
  | object _ ih =>
    rw [literal, ofLiteral?]
    exact ofMembers?_memberLiterals ih []

/-- The text of a value is read as the value. -/
theorem Readable.ofText?_compactText (h : Readable depthLimit j) :
    ofText? j.compactText = some j := by
  have hspells : Literal.Spells j.compactText j.literal := by
    refine ⟨[], j.compact, [], Literal.space_nil, Literal.space_nil, h.spelled, ?_⟩
    rw [compactText, String.toList_ofList, List.nil_append, List.append_nil]
  unfold ofText?
  rw [hspells.ofText?_eq]
  exact h.ofLiteral?_literal

end Json

end PackageMap
