import Mathlib
import ShapeCodec.Proofs.Conformance.Cases
import ShapeCodec.Proofs.Decoding.Cases
import ShapeCodec.Proofs.Gates
import ShapeCodec.Proofs.Json.Writing
import ShapeCodec.Proofs.Number.Exact

/-! # Decimals that are integers

Checking, encoding and decoding each ask in a way of their own whether a decimal is a 64-bit
integer: by its remainder and its quotient, by its quotient alone, and by the digits that it is
written with. All of them answer for the number that the decimal stands for.
-/

namespace ShapeCodec

open Grammar

/-- The number that a JSON value is written for. -/
inductive Json.Denotes : Json → ℚ → Prop
  | int (i : Int64) : Denotes (.int i) i.toInt
  | number {n : Numeral} {w : Written} : w.SpelledBy n.chars → Denotes (.number n) w.toRat

namespace Json

theorem denotes_int_iff {k : Int64} {q : ℚ} : (int k).Denotes q ↔ q = k.toInt := by
  constructor
  · rintro ⟨⟩
    rfl
  · rintro rfl
    exact .int k

theorem denotes_number_iff {n : Numeral} {q : ℚ} : (number n).Denotes q ↔ q = n.written.toRat := by
  constructor
  · rintro ⟨⟩
    rename_i w hw
    rw [hw.eq_written (numberText_chars n)]
  · rintro rfl
    exact .number (numberText_chars n).spelledBy

end Json

/-! ## Numbers without a fraction -/

theorem Numeral.toRat_of_not_isFractional {n : Numeral} (h : n.isFractional = false) :
    n.written.toRat = n.coefficient := by
  simp only [isFractional, Bool.or_eq_false_iff, Bool.not_eq_false', List.isEmpty_iff,
    Option.isSome_eq_false_iff, Option.isNone_iff_eq_none] at h
  have hp : n.power = 0 := by simp [power, h.1, h.2]
  rw [toRat_written, hp, zpow_zero, mul_one]

theorem Numeral.toRat_of_toInt64? {n : Numeral} {i : Int64} (h : n.toInt64? = some i) :
    n.written.toRat = i.toInt := by
  unfold toInt64? at h
  split at h
  · cases h
  · rename_i hf
    rw [toRat_of_not_isFractional (Bool.eq_false_iff.mpr hf), Int64.toInt_of_ofInt? h]

namespace Decimal

variable {d : Decimal} {i : Int64}

theorem toRat_eq_intCast_iff {z : Int} : d.toRat = z ↔ d.coefficient = z * tenTo d.scale := by
  have hpos : (0 : ℚ) < 10 ^ d.scale := by positivity
  have hcast : ((tenTo d.scale : Nat) : ℚ) = 10 ^ d.scale := Nat.cast_pow 10 d.scale
  rw [toRat, div_eq_iff hpos.ne', ← hcast]
  exact_mod_cast Iff.rfl

theorem isWhole_and_toInt64?_iff :
    d.isWhole = true ∧ d.toInt64? = some i ↔ d.toRat = i.toInt := by
  have hpos : (tenTo d.scale : Int) ≠ 0 := Int.natCast_ne_zero.mpr (tenTo_pos _).ne'
  rw [isWhole, toInt64?, beq_iff_eq, Int64.ofInt?_eq_some_iff, toRat_eq_intCast_iff]
  constructor
  · rintro ⟨hw, hi⟩
    rw [hi, Int.tdiv_mul_cancel (Int.dvd_of_emod_eq_zero hw)]
  · intro h
    rw [h]
    exact ⟨Int.mul_emod_left _ _, (Int.mul_tdiv_cancel _ hpos).symm⟩

end Decimal

/-! ## The three engines -/

namespace Json

variable {o : Settings} {n : Numeral} {d : Decimal} {i : Int64}

theorem toInt64_number_eq_ok_iff : (number n).toInt64 o = .ok i ↔ n.toInt64? = some i ∨
    n.isFractional = true ∧ o.castDecimal = true ∧
      ∃ d, Decimal.ofNumeral? n = some d ∧ d.toRat = i.toInt := by
  simp only [← Decimal.isWhole_and_toInt64?_iff]
  rw [toInt64]
  cases hf : n.isFractional with
  | false => cases n.toInt64? <;> simp
  | true =>
    have hn : n.toInt64? = none := if_pos hf
    cases ho : o.castDecimal with
    | false => simp [hn]
    | true =>
      cases hd : Decimal.ofNumeral? n with
      | none => simp [hn]
      | some d =>
        cases hw : d.isWhole with
        | false => simp [hn, hw]
        | true => cases hi : d.toInt64? <;> simp [hn, hw, hi]

theorem denotes_iff_of_toInt64 {j : Json} (h : j.toInt64 o = .ok i) {q : ℚ} :
    j.Denotes q ↔ q = i.toInt := by
  cases j with
  | int k =>
    obtain rfl : k = i := Except.ok.inj h
    exact denotes_int_iff
  | number n =>
    have hq : n.written.toRat = i.toInt := by
      rcases toInt64_number_eq_ok_iff.mp h with hi | ⟨-, -, d, hd, hi⟩
      · exact Numeral.toRat_of_toInt64? hi
      · rw [← Decimal.toRat_of_ofNumeral? hd, hi]
    rw [← hq]
    exact denotes_number_iff
  | _ => cases h

theorem toInt64_toNumeral_eq_ok_iff (ho : o.castDecimal = true) :
    (number d.toNumeral).toInt64 o = .ok i ↔ d.toRat = i.toInt := by
  rw [toInt64_number_eq_ok_iff]
  constructor
  · rintro (hi | ⟨-, -, d', hd', hi⟩)
    · rw [← d.toRat_written_toNumeral, Numeral.toRat_of_toInt64? hi]
    · obtain rfl := Option.some.inj (d.ofNumeral?_toNumeral.symm.trans hd')
      exact hi
  · intro hi
    cases hf : d.toNumeral.isFractional with
    | true => exact .inr ⟨rfl, ho, d, d.ofNumeral?_toNumeral, hi⟩
    | false =>
      rw [← d.toRat_written_toNumeral, Numeral.toRat_of_not_isFractional hf, Int.cast_inj] at hi
      exact .inl ((if_neg (by simp [hf])).trans (Int64.ofInt?_eq_some_iff.mpr hi.symm))

end Json

namespace Shape

variable {o : Settings} {d : Decimal} {i : Int64}

theorem conforms_int_decimal_iff (ho : o.castDecimal = true) :
    conforms o int (.decimal d) = true ↔ ∃ i : Int64, d.toRat = i.toInt := by
  simp only [← Decimal.isWhole_and_toInt64?_iff, conforms_int_iff, ho, true_and, reduceCtorEq,
    exists_false, false_or, Value.decimal.injEq]
  constructor
  · rintro ⟨_, i, rfl, h⟩
    exact ⟨i, h⟩
  · rintro ⟨i, h⟩
    exact ⟨d, i, rfl, h⟩

theorem encodeValue_int_decimal_eq_ok_iff :
    encodeValue o int (.decimal d) = .ok (.int i) ↔ d.toInt64? = some i := by
  rw [encodeValue]
  cases d.toInt64? <;> simp

end Shape

variable {o : Settings} {d : Decimal} {i : Int64}

theorem isInstance_int_decimal_iff (ho : o.castDecimal = true) :
    (∃ verdict, isInstance o .int (.decimal d) = .ok verdict ∧ verdict.holds = true) ↔
      ∃ i : Int64, d.toRat = i.toInt := by
  rw [isInstance_of_checkable rfl, ← Shape.conforms_int_decimal_iff ho]
  simp

theorem encode_int_decimal_eq_ok_iff (ho : o.castDecimal = true) :
    encode o .int (.decimal d) = .ok (.int i) ↔ d.toRat = i.toInt := by
  have hs : Shape.int.satisfies .encodable = true := rfl
  rw [encode_eq_ok_iff, and_iff_right hs, Shape.conforms_int_decimal_iff ho,
    Shape.encodeValue_int_decimal_eq_ok_iff]
  constructor
  · rintro ⟨⟨k, hk⟩, hi⟩
    have hk' := (Decimal.isWhole_and_toInt64?_iff.mpr hk).2
    rw [hk, Option.some.inj (hk'.symm.trans hi)]
  · intro h
    exact ⟨⟨i, h⟩, (Decimal.isWhole_and_toInt64?_iff.mpr h).2⟩

theorem decode_int_eq_ok_iff {j : Json} :
    decode o .int j = .ok (.int i) ↔ j.toInt64 o = .ok i := by
  have hs : Shape.int.satisfies .encodable = true := rfl
  rw [decode_eq_ok_iff, and_iff_right hs, Shape.decodeJson_int_eq_ok_iff]
  simp

theorem Decimal.exists_toRat_eq_iff : (∃ i : Int64, d.toRat = i.toInt) ↔
    ∃ z : ℤ, d.toRat = z ∧ -(twoTo 63 : ℤ) ≤ z ∧ z ≤ twoTo 63 - 1 := by
  constructor
  · rintro ⟨i, h⟩
    exact ⟨i.toInt, h, i.le_toInt, Int.le_sub_one_of_lt i.toInt_lt⟩
  · rintro ⟨z, h, hl, hu⟩
    obtain ⟨i, hi⟩ := Int64.exists_ofInt?_iff.mpr ⟨hl, Int.lt_of_le_sub_one hu⟩
    exact ⟨i, h.trans (congrArg _ (Int64.toInt_of_ofInt? hi).symm)⟩

/-- Under decimal casting the engines take the same decimals for integers: those that are one and
fit 64 bits. What they make of them is that integer. With and without it, an integer is only decoded
from what is written for that number. -/
theorem engines_agree_on_integers :
    (∀ (o : Settings) (d : Decimal), o.castDecimal = true →
      [∃ verdict, isInstance o .int (.decimal d) = .ok verdict ∧ verdict.holds = true,
        ∃ i, encode o .int (.decimal d) = .ok (.int i),
        ∃ i, decode o .int (.number d.toNumeral) = .ok (.int i),
        ∃ z : ℤ, d.toRat = z ∧ -(twoTo 63 : ℤ) ≤ z ∧ z ≤ twoTo 63 - 1].TFAE ∧
      ∀ i : Int64, encode o .int (.decimal d) = .ok (.int i) ∨
        decode o .int (.number d.toNumeral) = .ok (.int i) → d.toRat = i.toInt) ∧
    ∀ (o : Settings) (j : Json) (i : Int64), decode o .int j = .ok (.int i) →
      ∀ q : ℚ, j.Denotes q ↔ q = i.toInt := by
  constructor
  · intro o d ho
    have hencode := fun i => encode_int_decimal_eq_ok_iff (d := d) (i := i) ho
    have hdecode := fun i => decode_int_eq_ok_iff.trans
      (Json.toInt64_toNumeral_eq_ok_iff (d := d) (i := i) ho)
    simp only [hencode, hdecode, isInstance_int_decimal_iff ho, ← Decimal.exists_toRat_eq_iff]
    exact ⟨List.tfae_of_forall (∃ i : Int64, d.toRat = i.toInt) _ (by simp),
      fun i h => h.elim id id⟩
  · intro o j i h q
    exact Json.denotes_iff_of_toInt64 (decode_int_eq_ok_iff.mp h)

theorem engines_agree_on_integers_least :
    let least : Decimal := ⟨-92233720368547758080, 1, by decide, by decide⟩
    let fifteen : Numeral := ⟨false, 1, [5, 0], some (.ofInt 1)⟩
    (∃ verdict, isInstance .standard .int (.decimal least) = .ok verdict ∧ verdict.holds = true) ∧
      encode .standard .int (.decimal least) = .ok (.int (-9223372036854775808)) ∧
      least.toRat = (-9223372036854775808 : Int64).toInt ∧
      decode .standard .int (.number fifteen) = .ok (.int 15) ∧
      (Json.number fifteen).Denotes (15 : Int64).toInt := by
  intro least fifteen
  have hencode : encode .standard .int (.decimal least) = .ok (.int (-9223372036854775808)) := by
    cbv
  have hdecode : decode .standard .int (.number fifteen) = .ok (.int 15) := by cbv
  obtain ⟨hsame, hexact⟩ := engines_agree_on_integers.1 .standard least rfl
  have hholds := hsame.out 1 0
  exact ⟨hholds.mp ⟨_, hencode⟩, hencode, hexact _ (.inl hencode), hdecode,
    (engines_agree_on_integers.2 _ _ _ hdecode _).mpr rfl⟩

end ShapeCodec
