import ShapeCodec.Proofs.Number.Numerals
import ShapeCodec.Proofs.Number.Rounding

/-! # Widening to floats

Integers and decimals all lie in the finite range of floats, so each of them has a nearest float.
A decimal without a fraction is spelled as the integer that it is, and both widen alike.
-/

namespace ShapeCodec

theorem Numeral.toBinary64?_ofInt (i : Int64) :
    (ofInt i.toInt).toBinary64? = some (.ofInt i.toInt) := by
  have h : Binary64.ofNumeral (ofInt i.toInt) = .ofInt i.toInt := by
    simp [Binary64.ofNumeral, Binary64.ofInt, ofInt, magnitude, power, Digit.value, tenTo, natPower]
  rw [toBinary64?, h]
  exact if_pos (Binary64.isFinite_ofInt i)

namespace Decimal

theorem power_toNumeral (d : Decimal) : d.toNumeral.power = -d.scale := by
  rw [toNumeral, Numeral.power, length_lastDigits]
  exact Int.zero_sub _

theorem exists_toBinary64? (d : Decimal) : ∃ x, d.toNumeral.toBinary64? = some x := by
  refine ⟨_, if_pos ?_⟩
  have := d.scale_le
  rw [Binary64.ofNumeral, magnitude_toNumeral, power_toNumeral]
  exact Binary64.isFinite_ofScientific _ d.natAbs_lt (by omega) (by omega)

theorem toNumeral_ofInt64 (i : Int64) : (ofInt64 i).toNumeral = .ofInt i.toInt :=
  congrArg (Numeral.mk _ · [] none) (Nat.div_one _)

theorem toNumeral_eq_ofInt {d : Decimal} {i : Int64} (h : d.toNumeral.toInt64? = some i) :
    d.toNumeral = .ofInt i.toInt := by
  rw [← ofInt64_of_toInt64? h, toNumeral_ofInt64]

end Decimal

end ShapeCodec
