import Mathlib
import ShapeCodec.Proofs.Number.Shortest
import ShapeCodec.Proofs.Number.Written

/-! # No float is nearer

A number is rounded to a float that no other float is nearer to. Among the numbers that come to one
float is always the one that it stands for, as long as its text is a number.
-/

namespace ShapeCodec

namespace Binary64

/-! ## Units -/

/-- No other number of units of the format is nearer. -/
def NearestUnits (q : ℚ) (units : Nat) : Prop :=
  ∀ other : Nat, Representable other → |q - units| ≤ |q - other|

theorem divNearestEven_bounds (n : Nat) {d : Nat} (hd : 0 < d) :
    2 * n ≤ 2 * (divNearestEven n d * d) + d ∧ 2 * (divNearestEven n d * d) ≤ 2 * n + d := by
  have hn := Nat.div_add_mod' n d
  have hm := Nat.mod_lt n hd
  rw [divNearestEven]
  split
  · omega
  · split
    · rw [Nat.add_mul]
      omega
    · rcases Nat.mod_two_eq_zero_or_one (n / d) with h | h <;> rw [h, Nat.add_mul] <;> omega

theorem abs_sub_divNearestEven_le (n k : Nat) {d : Nat} (hd : 0 < d) :
    |(n : ℚ) - divNearestEven n d * d| ≤ |(n : ℚ) - k * d| := by
  obtain ⟨h₁, h₂⟩ := divNearestEven_bounds n hd
  generalize divNearestEven n d = r at *
  have h₁ : 2 * (n : ℚ) ≤ 2 * (r * d) + d := by exact_mod_cast h₁
  have h₂ : 2 * ((r : ℚ) * d) ≤ 2 * n + d := by exact_mod_cast h₂
  have hstep : ∀ {i j : Nat}, i < j → (i : ℚ) * d + d ≤ j * d := by
    intro i j hij
    exact_mod_cast Nat.succ_mul i d ▸ Nat.mul_le_mul_right d hij
  have hhalf : |(n : ℚ) - r * d| ≤ d / 2 := abs_le.mpr ⟨by linarith, by linarith⟩
  rcases Nat.lt_trichotomy k r with h | rfl | h
  · have := hstep h
    exact hhalf.trans (le_abs.mpr (.inl (by linarith)))
  · exact le_rfl
  · have := hstep h
    exact hhalf.trans (le_abs.mpr (.inr (by linarith)))

/-- What has more significant bits than the format holds at the size of a ratio is below the power
of two that the ratio starts with. -/
theorem lt_of_not_place_dvd {q w : Nat} (hw : Representable w) (h : ¬ twoTo (q.log2 - 52) ∣ w) :
    w < twoTo q.log2 := by
  by_contra hge
  have hw0 : w ≠ 0 := by
    rintro rfl
    exact h (Nat.dvd_zero _)
  have hlog : q.log2 ≤ w.log2 := (Nat.le_log2 hw0).mpr (Nat.le_of_not_lt hge)
  exact h ((twoTo_dvd (by omega)).trans hw.2)

theorem nearestUnits_roundUnits (n : Nat) {d : Nat} (hd : 0 < d) :
    NearestUnits ((n : ℚ) / d) (roundUnits n d) := by
  have hd' : (0 : ℚ) < d := by exact_mod_cast hd
  -- The multiples of the last place are compared by the rounding itself.
  have hmul : ∀ k : Nat, |(n : ℚ) / d - roundUnits n d| ≤
      |(n : ℚ) / d - (k * twoTo ((n / d).log2 - 52) : Nat)| := by
    intro k
    have hplace := twoTo_pos ((n / d).log2 - 52)
    have h := abs_sub_divNearestEven_le n k (Nat.mul_pos hd hplace)
    rw [roundUnits]
    generalize twoTo ((n / d).log2 - 52) = place at *
    have hscale : ∀ r : Nat,
        |(n : ℚ) / d - (r * place : Nat)| = |(n : ℚ) - r * (d * place : Nat)| / d := by
      intro r
      rw [← abs_of_pos hd', ← abs_div, abs_of_pos hd']
      congr 1
      push_cast
      field_simp
    rw [hscale, hscale]
    exact div_le_div_of_nonneg_right h hd'.le
  intro w hw
  by_cases hdvd : twoTo ((n / d).log2 - 52) ∣ w
  · obtain ⟨k, rfl⟩ := hdvd
    rw [Nat.mul_comm]
    exact hmul k
  · -- Any other is on the far side of the power of two that the ratio starts with.
    have hlt := lt_of_not_place_dvd hw hdvd
    have hshift : (n / d).log2 - 52 ≠ 0 := by
      intro h0
      rw [h0] at hdvd
      exact hdvd (Nat.one_dvd w)
    have hq : n / d ≠ 0 := by
      intro h0
      simp [h0] at hshift
    have hpow : twoTo 52 * twoTo ((n / d).log2 - 52) = twoTo (n / d).log2 := by
      rw [← twoTo_add]
      congr 1
      omega
    have hle : ((twoTo (n / d).log2 : Nat) : ℚ) ≤ n / d :=
      (Nat.cast_le.mpr (twoTo_log2_le hq)).trans Nat.cast_div_le
    have hw' : (w : ℚ) < (twoTo (n / d).log2 : Nat) := by exact_mod_cast hlt
    have h := hmul (twoTo 52)
    rw [hpow, abs_of_nonneg (a := _ - ((twoTo (n / d).log2 : Nat) : ℚ)) (by linarith)] at h
    rw [abs_of_nonneg (a := _ - (w : ℚ)) (by linarith)]
    linarith

theorem nearestUnits_nearestUnits (m : Nat) (e : Int) :
    NearestUnits (m * 10 ^ e * (twoTo 1074 : Nat)) (nearestUnits m e) := by
  rw [nearestUnits]
  generalize twoTo 1074 = one
  split
  · rename_i he
    have h := nearestUnits_roundUnits (m * tenTo e.toNat * one) Nat.one_pos
    rwa [Nat.cast_one, div_one, Nat.cast_mul, Nat.cast_mul, cast_tenTo_of_nonneg he] at h
  · rename_i he
    have h := nearestUnits_roundUnits (m * one) (tenTo_pos (-e).toNat)
    rwa [Nat.cast_mul, cast_tenTo_of_neg (by omega), div_inv_eq_mul, mul_right_comm] at h

theorem NearestUnits.eq_of_representable {units w : Nat} (h : NearestUnits w units)
    (hw : Representable w) : units = w := by
  have h0 := h w hw
  rw [sub_self, abs_zero, abs_nonpos_iff, sub_eq_zero] at h0
  exact_mod_cast h0.symm

/-- What is less than half a unit is nearest to nothing. -/
theorem nearestUnits_zero_of_lt {q : ℚ} (h0 : 0 ≤ q) (h : 2 * q ≤ 1) : NearestUnits q 0 := by
  intro w _
  rcases Nat.eq_zero_or_pos w with rfl | hw
  · exact le_rfl
  · have hw : (1 : ℚ) ≤ w := by exact_mod_cast hw
    rw [Nat.cast_zero, sub_zero, abs_of_nonneg h0]
    exact le_abs.mpr (.inr (by linarith))

theorem ofScientific_cases (negative : Bool) (m : Nat) (e : Int) :
    (m ≠ 0 ∧ 310 ≤ (Digit.ofNat m).length + e ∧
      ofScientific negative m e = infinite negative) ∨ ∃ units,
      ofScientific negative m e = ofUnits negative units ∧
      NearestUnits (m * 10 ^ e * (twoTo 1074 : Nat)) units := by
  rw [ofScientific]
  split
  · rename_i hm
    refine .inr ⟨0, rfl, ?_⟩
    rw [hm, Nat.cast_zero, zero_mul, zero_mul]
    exact nearestUnits_zero_of_lt le_rfl (by norm_num)
  · rename_i hm
    split
    · rename_i hp
      exact .inl ⟨hm, hp, rfl⟩
    · right
      split
      · rename_i hp
        refine ⟨0, rfl, nearestUnits_zero_of_lt (by positivity) ?_⟩
        have hq : (m : ℚ) * 10 ^ e < 10 ^ (-399 : Int) :=
          (lt_zpow_length m e).trans_le (zpow_le_zpow_right₀ (by norm_num) hp)
        have hone := twoTo_lt_zpow
        have hpos : (0 : ℚ) < (twoTo 1074 : Nat) := by exact_mod_cast twoTo_pos 1074
        generalize ((twoTo 1074 : Nat) : ℚ) = one at *
        calc 2 * ((m : ℚ) * 10 ^ e * one)
            ≤ 2 * (10 ^ (-399 : Int) * 10 ^ (324 : Int)) := by gcongr
          _ ≤ 1 := by rw [← zpow_add₀ (by norm_num)]; norm_num
      · exact ⟨_, rfl, nearestUnits_nearestUnits m e⟩

theorem ofScientific_of_representable {negative : Bool} {m : Nat} {e : Int} {units : Nat}
    (hr : Representable units) (h : (m : ℚ) * 10 ^ e * (twoTo 1074 : Nat) = units) :
    ofScientific negative m e = .finite negative units hr := by
  rcases ofScientific_cases negative m e with ⟨hm, hp, -⟩ | ⟨u, he, hn⟩
  · have hlen : 0 < (Digit.ofNat m).length := List.length_pos_iff.mpr (Digit.ofNat_ne_nil m)
    have hlow : (10 : ℚ) ^ (309 : Int) ≤ m * 10 ^ e :=
      (zpow_le_zpow_right₀ (by norm_num) (by omega)).trans (zpow_length_le hm e)
    have hhigh := lt_zpow_of_representable hr
    have hpos : (0 : ℚ) < (twoTo 1074 : Nat) := by exact_mod_cast twoTo_pos 1074
    have hu : (0 : ℚ) ≤ units := Nat.cast_nonneg units
    generalize ((twoTo 1074 : Nat) : ℚ) = one at *
    have hle := mul_le_mul_of_nonneg_right hlow hpos.le
    rw [h] at hle
    have hlt := hhigh.trans_le hle
    linarith only [hlt, hu]
  · rw [h] at hn
    rw [he, hn.eq_of_representable hr, ofUnits_of_representable]

/-! ## Floats -/

def signed (negative : Bool) (q : ℚ) : ℚ := if negative then -q else q

@[simp] theorem signed_zero (negative : Bool) : signed negative 0 = 0 := by
  cases negative <;> simp [signed]

theorem abs_signed_sub (negative : Bool) (p q : ℚ) :
    |signed negative p - signed negative q| = |p - q| := by
  cases negative with
  | false => rfl
  | true =>
    rw [abs_sub_comm p q]
    congr 1
    simp [signed, sub_eq_add_neg, add_comm]

theorem abs_signed {q : ℚ} (hq : 0 ≤ q) (negative : Bool) : |signed negative q| = q := by
  cases negative <;> simp [signed, abs_of_nonneg hq]

theorem signed_left_injective {s t : Bool} {q : ℚ} (hq : 0 < q) (h : signed s q = signed t q) :
    s = t := by
  cases s <;> cases t <;> simp only [signed, if_true, Bool.false_eq_true, if_false] at h
  · rfl
  · linarith
  · linarith
  · rfl

theorem abs_sub_le_signed (s t : Bool) {p q : ℚ} (hp : 0 ≤ p) (hq : 0 ≤ q) :
    |p - q| ≤ |signed s p - signed t q| := by
  have h := abs_abs_sub_abs_le (signed s p) (signed t q)
  rwa [abs_signed hp, abs_signed hq] at h

inductive Denotes : Binary64 → ℚ → Prop
  | finite (negative : Bool) (units : Nat) (hr : Representable units) :
    Denotes (.finite negative units hr) (signed negative (units / (twoTo 1074 : Nat)))

/-- A finite float that no other is nearer to a number than. -/
def Nearest (x : Binary64) (q : ℚ) : Prop :=
  ∃ r, x.Denotes r ∧ ∀ y s, Denotes y s → |q - r| ≤ |q - s|

/-- Units that are nearest to a magnitude make the float that is nearest to the number. -/
theorem NearestUnits.nearest {negative : Bool} {units : Nat} {q : ℚ} (hq : 0 ≤ q)
    (hr : Representable units) (h : NearestUnits (q * (twoTo 1074 : Nat)) units) :
    (finite negative units hr).Nearest (signed negative q) := by
  refine ⟨_, .finite negative units hr, ?_⟩
  rintro _ _ ⟨negative', w, hw⟩
  have hpos : (0 : ℚ) < (twoTo 1074 : Nat) := by exact_mod_cast twoTo_pos 1074
  have hle := h w hw
  generalize ((twoTo 1074 : Nat) : ℚ) = one at *
  have hscale : ∀ u : Nat, |q - u / one| = |q * one - u| / one := by
    intro u
    rw [← abs_of_pos hpos, ← abs_div, abs_of_pos hpos]
    congr 1
    field_simp
  calc |signed negative q - signed negative (units / one)|
      = |q * one - units| / one := by rw [abs_signed_sub, hscale]
    _ ≤ |q * one - w| / one := div_le_div_of_nonneg_right hle hpos.le
    _ = |q - w / one| := (hscale w).symm
    _ ≤ |signed negative q - signed negative' (w / one)| :=
        abs_sub_le_signed _ _ hq (by positivity)

theorem Nearest.denotes {x y : Binary64} {q : ℚ} (h : x.Nearest q) (hy : y.Denotes q) :
    x.Denotes q := by
  obtain ⟨r, hr, hn⟩ := h
  have h0 := hn y q hy
  rw [sub_self, abs_zero, abs_nonpos_iff, sub_eq_zero] at h0
  exact h0 ▸ hr

end Binary64

namespace Numeral

open Binary64

variable {n : Numeral} {x : Binary64}

theorem toRat_eq_signed (n : Numeral) :
    n.written.toRat = signed n.negative (n.magnitude * 10 ^ n.power) := by
  rw [toRat_written, coefficient, signed]
  split <;> simp

theorem toBinary64?_eq_some_iff :
    n.toBinary64? = some x ↔ ofNumeral n = x ∧ x.isFinite = true := by
  simp only [toBinary64?, Option.ite_none_right_eq_some, Option.some.injEq]
  constructor
  · rintro ⟨hf, rfl⟩
    exact ⟨rfl, hf⟩
  · rintro ⟨rfl, hf⟩
    exact ⟨hf, rfl⟩

/-- A number is read as a float that none is nearer than. -/
theorem nearest_of_toBinary64? (h : n.toBinary64? = some x) : x.Nearest n.written.toRat := by
  obtain ⟨rfl, hf⟩ := toBinary64?_eq_some_iff.mp h
  rw [toRat_eq_signed]
  rw [ofNumeral] at hf ⊢
  rcases ofScientific_cases n.negative n.magnitude n.power with ⟨-, -, he⟩ | ⟨units, he, hn⟩
  · rw [he] at hf
    cases hf
  · rw [he] at hf ⊢
    by_cases hr : Representable units
    · rw [ofUnits_of_representable _ hr]
      exact hn.nearest (by positivity) hr
    · rw [ofUnits, dif_neg hr] at hf
      cases hf

/-- What a float stands for is read as that float, up to the sign of zero. -/
theorem exists_toBinary64?_of_denotes (h : x.Denotes n.written.toRat) :
    ∃ y, n.toBinary64? = some y ∧ y.same x = true := by
  rw [toRat_eq_signed] at h
  generalize hq : signed n.negative (n.magnitude * 10 ^ n.power) = q at h
  obtain ⟨negative, units, hr⟩ := h
  have hof : (n.magnitude : ℚ) * 10 ^ n.power * (twoTo 1074 : Nat) = units →
      ofNumeral n = .finite n.negative units hr := ofScientific_of_representable hr
  have hpos : (0 : ℚ) < (twoTo 1074 : Nat) := by exact_mod_cast twoTo_pos 1074
  generalize ((twoTo 1074 : Nat) : ℚ) = one at *
  have hmag : (0 : ℚ) ≤ n.magnitude * 10 ^ n.power := by positivity
  have hunits : (0 : ℚ) ≤ units / one := by positivity
  have habs : (n.magnitude : ℚ) * 10 ^ n.power = units / one := by
    rw [← abs_signed hmag n.negative, hq, abs_signed hunits]
  have he := hof (by rw [habs, div_mul_cancel₀ _ hpos.ne'])
  refine ⟨_, toBinary64?_eq_some_iff.mpr ⟨he, rfl⟩, ?_⟩
  rw [habs] at hq
  rcases Nat.eq_zero_or_pos units with rfl | hu
  · simp [same]
  · have hsign : n.negative = negative := signed_left_injective (by positivity) hq
    simp [same, hsign]

end Numeral

end ShapeCodec
