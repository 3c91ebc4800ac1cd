import Mathlib
import ShapeCodec.Decoding
import ShapeCodec.Proofs.Number.Shortest
import ShapeCodec.Proofs.Number.Widening
import ShapeCodec.Proofs.Number.Written

/-! # Decimals are exact

What is read as a decimal stands for the number that is written, or it is refused. The digits before
the exponent have to fit as they are written, and the exponent may move the point only as far as the
format reaches.
-/

namespace ShapeCodec

open Grammar

def Decimal.toRat (d : Decimal) : ℚ := d.coefficient / 10 ^ d.scale

/-- A number that a decimal holds as it is written. The digits before the exponent count with their
zeros. At most 28 of them stand behind the point in the end, or zeros are appended by a power of ten
that is a 128-bit integer, as long as the digits fit. -/
structure Grammar.Written.FitsDecimal (w : Written) : Prop where
  digits_lt : w.digits < twoTo 96
  fraction_le : w.fraction.length ≤ 28
  exponent_fits : -(twoTo 63 : Int) ≤ w.exponent ∧ w.exponent < twoTo 63
  places_fit : 0 ≤ w.places ∧ w.places ≤ 28 ∨ w.places < 0 ∧
    tenTo (-w.places).toNat < twoTo 127 ∧ w.digits * tenTo (-w.places).toNat < twoTo 96

theorem Numeral.natAbs_coefficient (n : Numeral) : n.coefficient.natAbs = n.written.digits := by
  rw [coefficient, digits_written]
  split <;> simp

theorem Int64.ofInt?_eq_some_iff {z : Int} {i : Int64} : ofInt? z = some i ↔ i.toInt = z :=
  ⟨toInt_of_ofInt?, fun h => h ▸ ofInt?_toInt i⟩

theorem Int64.exists_ofInt?_iff {z : Int} :
    (∃ i, ofInt? z = some i) ↔ -(twoTo 63 : Int) ≤ z ∧ z < twoTo 63 := by
  unfold ofInt?
  split
  · rename_i h
    exact ⟨fun _ => h, fun _ => ⟨_, rfl⟩⟩
  · rename_i h
    exact ⟨nofun, fun h' => (h h').elim⟩

namespace Decimal

variable {c s : Int} {k : Nat} {n : Numeral} {d : Decimal}

/-! ## The steps of reading -/

theorem mk?_eq_some_iff : mk? c k = some d ↔ d.coefficient = c ∧ d.scale = k := by
  constructor
  · intro h
    unfold mk? at h
    split at h
    · cases h
      exact ⟨rfl, rfl⟩
    · cases h
  · rintro ⟨rfl, rfl⟩
    exact mk?_self d

theorem exists_mk?_iff : (∃ d, mk? c k = some d) ↔ c.natAbs < twoTo 96 ∧ k ≤ 28 := by
  unfold mk?
  split <;> simp [*]

theorem tenTo_lt_twoTo_iff : tenTo k < twoTo 127 ↔ k ≤ 38 := by
  constructor
  · intro h
    by_contra hk
    have h39 : tenTo 39 ≤ tenTo k := Nat.pow_le_pow_right (by decide) (by omega)
    exact absurd (h39.trans_lt h) (by decide)
  · intro h
    have h38 : tenTo k ≤ tenTo 38 := Nat.pow_le_pow_right (by decide) h
    exact h38.trans_lt (by decide)

theorem shifted?_eq_some_iff : shifted? c s = some d ↔
    0 ≤ s ∧ d.coefficient = c ∧ d.scale = s ∨
      s < 0 ∧ -s ≤ 38 ∧ d.coefficient = c * tenTo (-s).toNat ∧ d.scale = 0 := by
  unfold shifted?
  split
  · rw [mk?_eq_some_iff]
    omega
  · split
    · rw [mk?_eq_some_iff]
      omega
    · simp only [reduceCtorEq, false_iff]
      omega

theorem exists_shifted?_iff : (∃ d, shifted? c s = some d) ↔
    0 ≤ s ∧ s ≤ 28 ∧ c.natAbs < twoTo 96 ∨
      s < 0 ∧ tenTo (-s).toNat < twoTo 127 ∧ c.natAbs * tenTo (-s).toNat < twoTo 96 := by
  rw [tenTo_lt_twoTo_iff]
  unfold shifted?
  split
  · rw [exists_mk?_iff]
    omega
  · split
    · rw [exists_mk?_iff, Int.natAbs_mul, Int.natAbs_natCast]
      omega
    · simp only [reduceCtorEq, exists_false, false_iff]
      omega

theorem toRat_of_shifted? (h : shifted? c s = some d) : d.toRat = c / 10 ^ s := by
  rw [toRat]
  rcases shifted?_eq_some_iff.mp h with ⟨_, rfl, rfl⟩ | ⟨hs, -, hc, hk⟩
  · rw [zpow_natCast]
  · rw [hc, hk, pow_zero, div_one, Int.cast_mul, Int.cast_natCast,
      Binary64.cast_tenTo_of_neg hs, ← div_eq_mul_inv]

/-- The digits before the exponent have to make a decimal themselves, which the exponent shifts. -/
theorem ofNumeral?_eq_some_iff : ofNumeral? n = some d ↔
    n.written.digits < twoTo 96 ∧ n.written.fraction.length ≤ 28 ∧
      (-(twoTo 63 : Int) ≤ n.written.exponent ∧ n.written.exponent < twoTo 63) ∧
      shifted? n.coefficient n.written.places = some d := by
  have hmk := exists_mk?_iff (c := n.coefficient) (k := n.fraction.length)
  rw [n.natAbs_coefficient] at hmk
  change _ ↔ _ ∧ n.fraction.length ≤ 28 ∧ _
  unfold ofNumeral?
  cases hw : mk? n.coefficient n.fraction.length with
  | none =>
    rw [hw] at hmk
    simp only [reduceCtorEq, exists_false, false_iff] at hmk
    simp only [Option.bind_eq_bind, Option.bind_none, reduceCtorEq, false_iff]
    exact fun h => hmk ⟨h.1, h.2.1⟩
  | some w =>
    obtain ⟨hm, hf⟩ := hmk.mp ⟨w, hw⟩
    obtain ⟨hc, hs⟩ := mk?_eq_some_iff.mp hw
    simp only [Option.bind_eq_bind, Option.bind_some, hm, hf, true_and]
    rw [← Int64.exists_ofInt?_iff]
    unfold Written.places Numeral.written
    cases he : n.exponent with
    | none =>
      have hp : shifted? n.coefficient (n.fraction.length - 0) = some w := by
        rw [Int.sub_zero, shifted?, if_pos (Int.natCast_nonneg _), Int.toNat_natCast, hw]
      simp only [Option.elim_none, hp]
      exact (and_iff_right ⟨0, by decide⟩).symm
    | some e =>
      simp only [Option.elim_some, hc, hs]
      cases Int64.ofInt? e.value <;> simp

/-! ## Exactness -/

theorem exists_ofNumeral?_iff : (∃ d, ofNumeral? n = some d) ↔ n.written.FitsDecimal := by
  simp only [ofNumeral?_eq_some_iff, exists_and_left, exists_shifted?_iff, n.natAbs_coefficient]
  constructor
  · rintro ⟨hd, hf, he, hp⟩
    exact ⟨hd, hf, he, hp.imp_left fun h => ⟨h.1, h.2.1⟩⟩
  · rintro ⟨hd, hf, he, hp⟩
    exact ⟨hd, hf, he, hp.imp_left fun h => ⟨h.1, h.2, hd⟩⟩

/-- A decimal stands for the number that it is read from. -/
theorem toRat_of_ofNumeral? (h : ofNumeral? n = some d) : d.toRat = n.written.toRat := by
  obtain ⟨-, -, -, hd⟩ := ofNumeral?_eq_some_iff.mp h
  rw [toRat_of_shifted? hd, Numeral.toRat_written, n.places_written, zpow_neg, div_inv_eq_mul]

theorem toRat_written_toNumeral (d : Decimal) : d.toNumeral.written.toRat = d.toRat :=
  (toRat_of_ofNumeral? (ofNumeral?_toNumeral d)).symm

end Decimal

namespace Json

theorem toDecimal_number_eq_ok_iff {n : Numeral} {d : Decimal} :
    (number n).toDecimal = .ok d ↔ Decimal.ofNumeral? n = some d := by
  rw [toDecimal]
  cases Decimal.ofNumeral? n <;> simp

theorem toDecimal_str_eq_ok_iff {s : String} {n : Numeral} {d : Decimal}
    (h : Numeral.ofChars? s.toList = some n) :
    (str s).toDecimal = .ok d ↔ Decimal.ofNumeral? n = some d := by
  rw [toDecimal, h]
  cases hd : Decimal.ofNumeral? n <;> simp [hd]

end Json

/-- A number that is written as a string or as a JSON number is read as the decimal of that number,
within the bounds of the format, or it is refused, exactly when it does not fit as it is written.
What a decimal is written as is read as that decimal, with its scale. -/
theorem decimals_exact_or_refused :
    (∀ (s : String) (w : Written) (j : Json), w.SpelledBy s.toList →
      (j = .str s ∨ ∃ n : Numeral, NumberText s.toList n.chars ∧ j = .number n) →
        (∀ d, j.toDecimal = .ok d →
          d.toRat = w.toRat ∧ d.scale ≤ 28 ∧ d.coefficient.natAbs < twoTo 96) ∧
        ((∃ d, j.toDecimal = .ok d) ↔ w.FitsDecimal)) ∧
    ∀ d : Decimal, (Json.str d.text).toDecimal = .ok d ∧
      (Json.number d.toNumeral).toDecimal = .ok d := by
  constructor
  · intro s w j h hj
    obtain ⟨n, hn, rfl⟩ := h.exists_numeral
    have hread : ∀ d, j.toDecimal = .ok d ↔ Decimal.ofNumeral? n = some d := by
      intro d
      rcases hj with rfl | ⟨m, hm, rfl⟩
      · exact Json.toDecimal_str_eq_ok_iff hn.ofChars?
      · obtain rfl := Option.some.inj (hm.ofChars?.symm.trans hn.ofChars?)
        exact Json.toDecimal_number_eq_ok_iff
    simp only [hread]
    exact ⟨fun d hd => ⟨Decimal.toRat_of_ofNumeral? hd, d.scale_le, d.natAbs_lt⟩,
      Decimal.exists_ofNumeral?_iff⟩
  · intro d
    have hn : Numeral.ofChars? d.text.toList = some d.toNumeral := by
      rw [Decimal.text, Numeral.text, String.toList_ofList]
      exact Numeral.ofChars?_chars _
    exact ⟨(Json.toDecimal_str_eq_ok_iff hn).mpr d.ofNumeral?_toNumeral,
      Json.toDecimal_number_eq_ok_iff.mpr d.ofNumeral?_toNumeral⟩

theorem decimals_exact_or_refused_appended :
    (⟨true, [2], [5, 0], 3⟩ : Written).SpelledBy "-2.50E3".toList ∧
    ∃ d, (Json.str "-2.50E3").toDecimal = .ok d ∧ d.toRat = -2500 ∧
      (⟨true, [2], [5, 0], 3⟩ : Written).FitsDecimal := by
  have h : (⟨true, [2], [5, 0], 3⟩ : Written).SpelledBy "-2.50E3".toList :=
    ⟨.digits (d := 2) (by decide) [], "E3".toList, .digits (.inr rfl) 3 [], by decide⟩
  have hd : (Json.str "-2.50E3").toDecimal = .ok ⟨-2500, 0, by decide, by decide⟩ := by cbv
  obtain ⟨hexact, hfits⟩ := decimals_exact_or_refused.1 _ _ _ h (.inl rfl)
  refine ⟨h, _, hd, (hexact _ hd).1.trans ?_, hfits.mp ⟨_, hd⟩⟩
  norm_num [Written.toRat, Written.places, Written.digits, Digit.value]

end ShapeCodec
