import PackageMap.Json.Numeral

/-!
# Numbers within the range of doubles

A number with a fraction or an exponent, or of more digits than a 64-bit word takes, is a double.
Only as many leading digits are used as a 64-bit word takes; each later digit of the whole part
counts as a power of ten. The number is out of range if the product of the significand and the power
of ten, both rounded to doubles, rounds to infinity.
-/

namespace PackageMap.Numeral

/-- The nearest number of at most 53 significant bits, the even one of two. -/
def roundToDouble (n : Nat) : Nat :=
  let shift := n.log2 + 1 - 53
  let unit := 1 <<< shift
  let q := n / unit
  let r := n % unit
  if 2 * r > unit ∨ (2 * r = unit ∧ q % 2 = 1) then (q + 1) * unit else q * unit

/-- The least product that rounds to infinity. -/
def overflowBound : Nat := (1 <<< 54 - 1) <<< 970

/-- The largest exponent that is counted out. -/
def exponentMax : Nat := 2147483647

/-- A significand and the power of ten it is scaled by. -/
structure Scaled where
  significand : Nat
  exponent : Int
deriving DecidableEq, Repr

/-- Take the digits of the whole part: those past the first that does not fit count as powers. -/
def scaleWhole (n : Nat) : List Char → Scaled
  | [] => ⟨n, 0⟩
  | d :: ds =>
    let next := 10 * n + (d.toNat - 48)
    if next ≥ wordLimit then ⟨n, (d :: ds).length⟩ else scaleWhole next ds

/-- Take the digits of the fraction, up to the first that does not fit. -/
def scaleFraction (s : Scaled) : List Char → Scaled
  | [] => s
  | d :: ds =>
    let next := 10 * s.significand + (d.toNat - 48)
    if next ≥ wordLimit then s else scaleFraction ⟨next, s.exponent - 1⟩ ds

/-- Keep an exponent within 32 bits. -/
def saturate (e : Int) : Int := max (-(exponentMax : Int) - 1) (min (exponentMax : Int) e)

/-- Whether the scaled significand is finite as a double. -/
def Scaled.isFinite (s : Scaled) : Bool :=
  if s.exponent < 0 ∨ s.significand = 0 then true
  else if s.exponent > 308 then false
  else roundToDouble s.significand * roundToDouble (Nat.pow 10 s.exponent.toNat) < overflowBound

/-- The value of an exponent's digits, or `none` past `exponentMax`. -/
def exponentValue? (digits : List Char) (n : Nat) : Option Nat :=
  match digits with
  | [] => some n
  | d :: ds =>
    let next := 10 * n + (d.toNat - 48)
    if next > exponentMax then none else exponentValue? ds next

/-- Whether the number is in range. An exponent too large to count out makes every number but zero
infinite, and one too small makes it zero. -/
def inRange (n : Numeral) : Bool :=
  let s := scaleFraction (scaleWhole 0 n.whole) n.fraction
  match n.exponent with
  | none => s.isFinite
  | some (negative, digits) =>
    match exponentValue? digits 0 with
    | some e =>
      Scaled.isFinite ⟨s.significand, saturate (if negative then s.exponent - e else s.exponent + e)⟩
    | none => negative || s.significand == 0

end PackageMap.Numeral
