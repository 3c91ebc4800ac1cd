import ShapeCodec.Number.Numeral

/-! # Binary floating-point numbers

The values of the 64-bit binary format, kept exactly: a finite value is a sign and a natural
number of units, where a unit is the smallest positive value, `2 ^ (-1074)`. Decimal numerals
are rounded to the nearest value, a tie going to the even significand.
-/

namespace ShapeCodec

/-- A number of units that the format can hold: at most 53 significant bits, below `2 ^ 1024`. -/
def Representable (units : Nat) : Prop :=
  units < twoTo 2098 ∧ twoTo (units.log2 - 52) ∣ units

instance (units : Nat) : Decidable (Representable units) := by
  unfold Representable; infer_instance

/-- A value of the 64-bit binary format. All the not-a-number patterns are one value. -/
inductive Binary64
  | nan
  | infinite (negative : Bool)
  | finite (negative : Bool) (units : Nat) (representable : Representable units)
deriving DecidableEq

namespace Binary64

/-- The quotient of two natural numbers, rounded to the nearest; a half goes to the even one. -/
def divNearestEven (n d : Nat) : Nat :=
  let q := n / d
  let r := n % d
  if 2 * r < d then q else if d < 2 * r then q + 1 else q + q % 2

/-- The number of units nearest to `n / d` units that has at most 53 significant bits. -/
def roundUnits (n d : Nat) : Nat :=
  let shift := (n / d).log2 - 52
  divNearestEven n (d * twoTo shift) * twoTo shift

/-- The value with a given number of units, infinite when the format cannot hold so many. -/
def ofUnits (negative : Bool) (units : Nat) : Binary64 :=
  if h : Representable units then finite negative units h else infinite negative

def nearestUnits (magnitude : Nat) (power : Int) : Nat :=
  if 0 ≤ power then roundUnits (magnitude * tenTo power.toNat * twoTo 1074) 1
  else roundUnits (magnitude * twoTo 1074) (tenTo (-power).toNat)

/-- The value nearest to `magnitude * 10 ^ power` with the given sign. What is at least `10 ^ 309`
is infinite and what is below `10 ^ (-399)` is zero, whatever the size of the exponent. -/
def ofScientific (negative : Bool) (magnitude : Nat) (power : Int) : Binary64 :=
  let point := (Digit.ofNat magnitude).length + power
  if magnitude = 0 then ofUnits negative 0
  else if 310 ≤ point then infinite negative
  else if point ≤ -399 then ofUnits negative 0
  else ofUnits negative (nearestUnits magnitude power)

def ofNumeral (n : Numeral) : Binary64 := ofScientific n.negative n.magnitude n.power

def ofInt (i : Int) : Binary64 := ofScientific (decide (i < 0)) i.natAbs 0

def isFinite : Binary64 → Bool
  | finite .. => true
  | _ => false

/-- Sameness of values: not-a-number is the same as itself, and the two zeros are the same. -/
def same : Binary64 → Binary64 → Bool
  | nan, nan => true
  | infinite s, infinite t => s == t
  | finite s u _, finite t v _ => u == v && (s == t || u == 0)
  | _, _ => false

end Binary64

/-- The value nearest to a numeral, unless it lies beyond the finite range. -/
def Numeral.toBinary64? (n : Numeral) : Option Binary64 :=
  let x := Binary64.ofNumeral n
  if x.isFinite then some x else none

end ShapeCodec
