import ShapeCodec.Number.Numeral

/-! # Fixed-point decimals

A decimal is an integer coefficient below `2 ^ 96` in magnitude over a power of ten of at most
28. The scale is part of the value: `1.0` and `1.00` are different decimals that compare equal.
-/

namespace ShapeCodec

/-- The number `coefficient / 10 ^ scale`. -/
structure Decimal where
  coefficient : Int
  scale : Nat
  natAbs_lt : coefficient.natAbs < twoTo 96
  scale_le : scale ≤ 28
deriving DecidableEq

namespace Decimal

def mk? (coefficient : Int) (scale : Nat) : Option Decimal :=
  if h : coefficient.natAbs < twoTo 96 ∧ scale ≤ 28 then some ⟨coefficient, scale, h.1, h.2⟩
  else none

def ofInt64 (i : Int64) : Decimal where
  coefficient := i.toInt
  scale := 0
  natAbs_lt := by
    have := Int64.le_toInt i
    have := Int64.toInt_lt i
    simp only [twoTo, natPower]
    omega
  scale_le := by decide

/-- Multiplies `m` by ten to the minus `scale`. A negative scale is worked off by a power of ten of
at most 38, a positive one becomes the scale of the result. -/
def shifted? (m : Int) (scale : Int) : Option Decimal :=
  if 0 ≤ scale then mk? m scale.toNat
  else if -scale ≤ 38 then mk? (m * tenTo (-scale).toNat) 0
  else none

/-- The decimal that a numeral stands for, without rounding: the digits before the exponent must
fit as they are written, the exponent must be a 64-bit integer, and so must the result. -/
def ofNumeral? (n : Numeral) : Option Decimal := do
  let written ← mk? n.coefficient n.fraction.length
  match n.exponent with
  | none => some written
  | some e =>
    let _ ← Int64.ofInt? e.value
    shifted? written.coefficient (written.scale - e.value)

def lastDigits : Nat → Nat → List Digit
  | 0, _ => []
  | width + 1, n => lastDigits width (n / 10) ++ [⟨n % 10, Nat.mod_lt _ (by decide)⟩]

/-- A decimal as it is written: exactly `scale` fraction digits, and no sign for zero. -/
def toNumeral (d : Decimal) : Numeral :=
  let n := d.coefficient.natAbs
  ⟨decide (d.coefficient < 0), n / tenTo d.scale, lastDigits d.scale n, none⟩

def text (d : Decimal) : String := d.toNumeral.text

def isWhole (d : Decimal) : Bool := d.coefficient % tenTo d.scale == 0

/-- The 64-bit integer that is left when the fraction of a decimal is cut off. -/
def toInt64? (d : Decimal) : Option Int64 := Int64.ofInt? (d.coefficient.tdiv (tenTo d.scale))

/-- Numeric equality, whatever the scales. -/
def same (a b : Decimal) : Bool := a.coefficient * tenTo b.scale == b.coefficient * tenTo a.scale

end Decimal

end ShapeCodec
