import Mathlib
import ShapeCodec.Number.Shortest
import ShapeCodec.Proofs.Number.Rounding

/-! # The shortest numeral reads back

A float lies between two neighbours with 17 significant digits, and the nearer one is close enough
to be rounded to it. So the search for digits ends, and however the digits are laid out they spell
the number that was found.
-/

namespace ShapeCodec

namespace Binary64

theorem cast_tenTo_of_nonneg {e : Int} (h : 0 ≤ e) : ((tenTo e.toNat : Nat) : ℚ) = 10 ^ e := by
  conv_rhs => rw [← Int.toNat_of_nonneg h, zpow_natCast]
  exact Nat.cast_pow 10 e.toNat

theorem cast_tenTo_of_neg {e : Int} (h : e < 0) : ((tenTo (-e).toNat : Nat) : ℚ) = (10 ^ e)⁻¹ := by
  rw [cast_tenTo_of_nonneg (by omega), zpow_neg]

theorem nearestUnits_of_close {units m : Nat} {e : Int} (hr : Representable units)
    (h₁ : 20000000000000000 * ((m : ℚ) * 10 ^ e * (twoTo 1074 : Nat)) ≤ 20000000000000001 * units)
    (h₂ : 19999999999999999 * units ≤ 20000000000000000 * ((m : ℚ) * 10 ^ e * (twoTo 1074 : Nat))) :
    nearestUnits m e = units := by
  generalize hone : twoTo 1074 = one at h₁ h₂
  rw [nearestUnits, hone]
  rcases lt_or_ge e 0 with he | he
  · rw [if_neg (by omega)]
    have hd : 0 < tenTo (-e).toNat := tenTo_pos _
    have hc := cast_tenTo_of_neg he
    have hq : (10 : ℚ) ^ e = ((tenTo (-e).toNat : Nat) : ℚ)⁻¹ := by rw [hc, inv_inv]
    generalize tenTo (-e).toNat = d at hd hq
    have hd' : (0 : ℚ) < d := by exact_mod_cast hd
    have hx : (m : ℚ) * 10 ^ e * one * d = m * one := by
      rw [hq]
      field_simp
    refine roundUnits_of_close hr hd ?_ ?_
    · have h := mul_le_mul_of_nonneg_right h₁ hd'.le
      have : 20000000000000000 * ((m : ℚ) * one) ≤ 20000000000000001 * (units * d) := by
        linarith
      exact_mod_cast this
    · have h := mul_le_mul_of_nonneg_right h₂ hd'.le
      have : 19999999999999999 * ((units : ℚ) * d) ≤ 20000000000000000 * (m * one) := by
        linarith
      exact_mod_cast this
  · rw [if_pos he]
    rw [← cast_tenTo_of_nonneg he] at h₁ h₂
    refine roundUnits_of_close hr Nat.one_pos ?_ ?_
    · rw [Nat.mul_one]
      exact_mod_cast h₁
    · rw [Nat.mul_one]
      exact_mod_cast h₂

theorem decimalPoint_spec {units : Nat} (hu : 0 < units) :
    (10 : ℚ) ^ (decimalPoint units - 1) * (twoTo 1074 : Nat) ≤ units ∧
      (units : ℚ) < 10 ^ decimalPoint units * (twoTo 1074 : Nat) := by
  have hone : 0 < twoTo 1074 := twoTo_pos _
  rw [decimalPoint]
  generalize twoTo 1074 = one at hone
  split
  · rename_i hle
    have hq : 0 < units / one := Nat.div_pos hle hone
    have hl := Digit.tenTo_le_of_pos hq
    have hh := Digit.lt_tenTo_length (units / one)
    have hlen : 0 < (Digit.ofNat (units / one)).length :=
      List.length_pos_iff.mpr (Digit.ofNat_ne_nil _)
    generalize (Digit.ofNat (units / one)).length = len at *
    constructor
    · rw [← cast_tenTo_of_nonneg (by omega), show ((len : Int) - 1).toNat = len - 1 by omega]
      exact_mod_cast (Nat.le_div_iff_mul_le hone).mp hl
    · rw [← cast_tenTo_of_nonneg (by omega), Int.toNat_natCast]
      exact_mod_cast (Nat.div_lt_iff_lt_mul hone).mp hh
  · rename_i hlt
    have hq : 0 < (one - 1) / units := Nat.div_pos (by omega) hu
    have hl := Digit.tenTo_le_of_pos hq
    have hh := Digit.lt_tenTo_length ((one - 1) / units)
    have hlen : 0 < (Digit.ofNat ((one - 1) / units)).length :=
      List.length_pos_iff.mpr (Digit.ofNat_ne_nil _)
    generalize (Digit.ofNat ((one - 1) / units)).length = len at *
    have hl := (Nat.le_div_iff_mul_le hu).mp hl
    have hh := (Nat.div_lt_iff_lt_mul hu).mp hh
    have hpow : ∀ k : Nat, (10 : ℚ) ^ (-(k : Int)) * (tenTo k : Nat) = 1 := by
      intro k
      rw [show ((tenTo k : Nat) : ℚ) = 10 ^ k from Nat.cast_pow 10 k, zpow_neg, zpow_natCast]
      exact inv_mul_cancel₀ (by positivity)
    constructor
    · have h : (one : ℚ) ≤ (tenTo len : Nat) * units := by exact_mod_cast (by omega)
      have hp : (0 : ℚ) < 10 ^ (-(len : Int)) := by positivity
      have := mul_le_mul_of_nonneg_left h hp.le
      rw [← mul_assoc, hpow, one_mul] at this
      rwa [show (1 : Int) - len - 1 = -len by ring]
    · have h : ((tenTo (len - 1) : Nat) : ℚ) * units < one := by exact_mod_cast (by omega)
      have hp : (0 : ℚ) < 10 ^ (-((len - 1 : Nat) : Int)) := by positivity
      have := mul_lt_mul_of_pos_left h hp
      rw [← mul_assoc, hpow, one_mul] at this
      rwa [show (1 : Int) - len = -((len - 1 : Nat) : Int) by omega]

/-! ## The search -/

theorem exists_ratio (units : Nat) (p : Int) : ∃ (n d : Nat) (step : ℚ), 0 < d ∧ 0 < step ∧
    step = 10 ^ p * (twoTo 1074 : Nat) ∧ n * step = units * d ∧
    n = (if 0 ≤ p then units else units * tenTo (-p).toNat) ∧
    d = if 0 ≤ p then twoTo 1074 * tenTo p.toNat else twoTo 1074 := by
  have hone : 0 < twoTo 1074 := twoTo_pos _
  generalize twoTo 1074 = one at hone
  have hone' : (0 : ℚ) < one := by exact_mod_cast hone
  refine ⟨_, _, _, ?_, ?_, rfl, ?_, rfl, rfl⟩
  · split
    · exact Nat.mul_pos hone (tenTo_pos _)
    · exact hone
  · positivity
  · split
    · rename_i hp
      rw [← cast_tenTo_of_nonneg hp]
      push_cast
      ring
    · rename_i hp
      rw [Nat.cast_mul, cast_tenTo_of_neg (by omega)]
      have : (10 : ℚ) ^ p ≠ 0 := by positivity
      field_simp

/-- What is found reads back, and lies at most one step above the number. -/
theorem neighbour?_spec {units m : Nat} {p : Int} (h : neighbour? units p = some m) :
    nearestUnits m p = units ∧
      (m : ℚ) * (10 ^ p * (twoTo 1074 : Nat)) ≤ units + 10 ^ p * (twoTo 1074 : Nat) := by
  obtain ⟨n, d, step, hd, hstep, hs, hnd, hn, hd'⟩ := exists_ratio units p
  rw [neighbour?, ← hn, ← hd'] at h
  have hm : nearestUnits m p = units ∧ m ≤ n / d + 1 := by
    dsimp only at h
    split at h
    · rename_i hl hh
      split at h <;> cases h
      · exact ⟨by simpa using hl, by omega⟩
      · exact ⟨by simpa using hh, by omega⟩
    · rename_i hl _
      cases h
      exact ⟨by simpa using hl, by omega⟩
    · rename_i _ hh
      cases h
      exact ⟨by simpa using hh, by omega⟩
    · cases h
  refine ⟨hm.1, ?_⟩
  rw [← hs]
  have hfloor : ((n / d : Nat) : ℚ) * step ≤ units := by
    have hle : ((n / d : Nat) : ℚ) * d ≤ n := by exact_mod_cast Nat.div_mul_le_self n d
    have hd0 : (0 : ℚ) < d := by exact_mod_cast hd
    have := mul_le_mul_of_nonneg_right hle hstep.le
    rw [hnd] at this
    have : ((n / d : Nat) : ℚ) * step * d ≤ units * d := by linarith
    exact le_of_mul_le_mul_right this hd0
  have hm' : (m : ℚ) ≤ ((n / d : Nat) : ℚ) + 1 := by exact_mod_cast hm.2
  have := mul_le_mul_of_nonneg_right hm' hstep.le
  linarith

/-- With 17 significant digits one of the neighbours reads back. -/
theorem neighbour?_isSome {units : Nat} (hr : Representable units) {p : Int}
    (h : 10000000000000000 * (10 ^ p * (twoTo 1074 : Nat)) ≤ (units : ℚ)) :
    (neighbour? units p).isSome = true := by
  obtain ⟨n, d, step, hd, hstep, hs, hnd, hn, hd'⟩ := exists_ratio units p
  rw [← hs] at h
  have hd0 : (0 : ℚ) < d := by exact_mod_cast hd
  -- a neighbour at most half a step away is close enough
  have hclose : ∀ m : Nat, 2 * (m * d) ≤ 2 * n + d → 2 * n ≤ 2 * (m * d) + d →
      nearestUnits m p = units := by
    intro m h₁ h₂
    have h₁ : 2 * ((m : ℚ) * d) ≤ 2 * n + d := by exact_mod_cast h₁
    have h₂ : 2 * (n : ℚ) ≤ 2 * (m * d) + d := by exact_mod_cast h₂
    have e₁ := mul_le_mul_of_nonneg_right h₁ hstep.le
    have e₂ := mul_le_mul_of_nonneg_right h₂ hstep.le
    have e₃ := mul_le_mul_of_nonneg_right h hd0.le
    refine nearestUnits_of_close hr ?_ ?_ <;> rw [mul_assoc, ← hs] <;>
      refine le_of_mul_le_mul_right ?_ hd0 <;> linarith
  have hdm := Nat.div_add_mod' n d
  have hmod := Nat.mod_lt n hd
  have hex : nearestUnits (n / d) p = units ∨ nearestUnits (n / d + 1) p = units := by
    rcases Nat.le_total (2 * (n % d)) d with hle | hle
    · exact .inl (hclose _ (by omega) (by omega))
    · refine .inr (hclose _ ?_ ?_) <;> rw [Nat.add_mul, Nat.one_mul] <;> omega
  rw [neighbour?, ← hn, ← hd']
  dsimp only
  rcases hex with hl | hh
  · cases hh : nearestUnits (n / d + 1) p == units <;> simp [hl]
    split <;> rfl
  · cases hl : nearestUnits (n / d) p == units <;> simp [hh]
    split <;> rfl

theorem searchDigits_spec {units : Nat} (hr : Representable units) {point : Int}
    (h : (10 : ℚ) ^ (point - 1) * (twoTo 1074 : Nat) ≤ units) (more count : Nat) (hc : 0 < count)
    (hm : 0 < more) (he : count + more = 18) :
    ∃ m e, searchDigits units point count more = (m, e) ∧ neighbour? units e = some m ∧
      point - 17 ≤ e ∧ e ≤ point - 1 := by
  induction more generalizing count with
  | zero => omega
  | succ more ih =>
    rw [searchDigits]
    split
    · rename_i m hn
      exact ⟨m, point - count, rfl, hn, by omega, by omega⟩
    · rename_i hn
      rcases Nat.eq_zero_or_pos more with rfl | hm
      · -- the last attempt has 17 digits
        have hp : 10000000000000000 * ((10 : ℚ) ^ (point - count) * (twoTo 1074 : Nat)) ≤
            units := by
          have hz : (10 : ℚ) ^ (point - 1) = 10 ^ 16 * 10 ^ (point - count) := by
            rw [← zpow_natCast, ← zpow_add₀ (by norm_num)]
            congr 1
            omega
          rw [hz] at h
          linarith
        have := neighbour?_isSome hr hp
        simp [hn] at this
      · exact ih (count + 1) (by omega) hm (by omega)

theorem shortest_spec {units : Nat} (hr : Representable units) (hu : 0 < units) :
    ∃ m e, shortest units = (m, e) ∧ neighbour? units e = some m ∧
      decimalPoint units - 17 ≤ e ∧ e ≤ decimalPoint units - 1 :=
  searchDigits_spec hr (decimalPoint_spec hu).1 17 1 (by decide) (by decide) rfl

@[simp] theorem nearestUnits_zero (e : Int) : nearestUnits 0 e = 0 := by
  have h : ∀ d, roundUnits 0 d = 0 := by
    intro d
    simp [roundUnits, divNearestEven]
  rw [nearestUnits]
  split <;> rw [Nat.zero_mul]
  · rw [Nat.zero_mul, h]
  · rw [h]

/-! ## The bounds of the format -/

theorem lt_zpow_of_representable {units : Nat} (hr : Representable units) :
    (units : ℚ) * 2 < 10 ^ (309 : Int) * (twoTo 1074 : Nat) := by
  have h : twoTo 2098 * 2 ≤ tenTo 309 * twoTo 1074 := by decide +kernel
  have h : units * 2 < tenTo 309 * twoTo 1074 :=
    (Nat.mul_lt_mul_of_pos_right hr.1 (by decide)).trans_le h
  have h : (units : ℚ) * 2 < (tenTo (309 : Int).toNat : Nat) * (twoTo 1074 : Nat) := by
    exact_mod_cast h
  rwa [cast_tenTo_of_nonneg (by decide)] at h

theorem twoTo_lt_zpow : ((twoTo 1074 : Nat) : ℚ) < 10 ^ (324 : Int) := by
  have h : twoTo 1074 < tenTo 324 := by decide +kernel
  have h : ((twoTo 1074 : Nat) : ℚ) < (tenTo (324 : Int).toNat : Nat) := Nat.cast_lt.mpr h
  rwa [cast_tenTo_of_nonneg (by decide)] at h

theorem zpow_length_le {m : Nat} (hm : m ≠ 0) (e : Int) :
    (10 : ℚ) ^ (((Digit.ofNat m).length - 1 : Nat) + e) ≤ m * 10 ^ e := by
  have hten : ((tenTo ((Digit.ofNat m).length - 1) : Nat) : ℚ) ≤ m := by
    exact_mod_cast Digit.tenTo_le_of_pos (Nat.pos_of_ne_zero hm)
  rw [Nat.cast_pow] at hten
  rw [zpow_add₀ (by norm_num), zpow_natCast]
  exact mul_le_mul_of_nonneg_right hten (by positivity)

theorem lt_zpow_length (m : Nat) (e : Int) :
    (m : ℚ) * 10 ^ e < 10 ^ ((Digit.ofNat m).length + e) := by
  have hten : (m : ℚ) < (tenTo (Digit.ofNat m).length : Nat) := by
    exact_mod_cast Digit.lt_tenTo_length m
  rw [Nat.cast_pow] at hten
  rw [zpow_add₀ (by norm_num), zpow_natCast]
  exact mul_lt_mul_of_pos_right hten (by positivity)

theorem shortest_bounds {units m : Nat} {e : Int} (hr : Representable units) (hu : 0 < units)
    (hn : neighbour? units e = some m) (hl : decimalPoint units - 17 ≤ e)
    (hh : e ≤ decimalPoint units - 1) :
    m ≠ 0 ∧ (Digit.ofNat m).length + e < 310 ∧ -399 < (Digit.ofNat m).length + e := by
  obtain ⟨hback, hm⟩ := neighbour?_spec hn
  obtain ⟨hlow, hhigh⟩ := decimalPoint_spec hu
  have hm0 : m ≠ 0 := by
    rintro rfl
    rw [nearestUnits_zero] at hback
    omega
  have hlen : 0 < (Digit.ofNat m).length := List.length_pos_iff.mpr (Digit.ofNat_ne_nil m)
  have hone := twoTo_lt_zpow
  have hpos : (0 : ℚ) < (twoTo 1074 : Nat) := by exact_mod_cast twoTo_pos 1074
  have hunits := lt_zpow_of_representable hr
  generalize ((twoTo 1074 : Nat) : ℚ) = one at *
  refine ⟨hm0, ?_, ?_⟩
  · have hstep : (10 : ℚ) ^ e * one ≤ units :=
      (mul_le_mul_of_nonneg_right (zpow_le_zpow_right₀ (by norm_num) hh) hpos.le).trans hlow
    have hlt : (m : ℚ) * 10 ^ e < 10 ^ (309 : Int) := by
      have : (m : ℚ) * 10 ^ e * one < 10 ^ (309 : Int) * one := by rw [mul_assoc]; linarith
      exact lt_of_mul_lt_mul_right this hpos.le
    have := (zpow_lt_zpow_iff_right₀ (by norm_num)).mp ((zpow_length_le hm0 e).trans_lt hlt)
    omega
  · have h1 : (1 : ℚ) ≤ units := by exact_mod_cast hu
    have hz : (10 : ℚ) ^ (0 : Int) < 10 ^ (decimalPoint units + 324) := by
      rw [zpow_add₀ (by norm_num), zpow_zero]
      have hp : (0 : ℚ) < 10 ^ decimalPoint units := by positivity
      have := mul_lt_mul_of_pos_left hone hp
      linarith
    have := (zpow_lt_zpow_iff_right₀ (by norm_num)).mp hz
    omega

/-- The digits that are found spell the float. -/
theorem ofScientific_shortest {units m : Nat} {e : Int} (negative : Bool)
    (hr : Representable units) (hu : 0 < units) (hs : shortest units = (m, e)) :
    ofScientific negative m e = .finite negative units hr := by
  obtain ⟨m', e', hs', hn, hl, hh⟩ := shortest_spec hr hu
  obtain ⟨rfl, rfl⟩ : m = m' ∧ e = e' := Prod.mk.inj (hs.symm.trans hs')
  obtain ⟨hm, hlt, hgt⟩ := shortest_bounds hr hu hn hl hh
  rw [ofScientific]
  simp only [if_neg hm]
  rw [if_neg (by omega), if_neg (by omega), (neighbour?_spec hn).1, ofUnits, dif_pos hr]

end Binary64

/-! ## The layout -/

theorem Exponent.value_ofInt (i : Int) : (ofInt i).value = i := by
  have hv := Digit.value_ofNat i.natAbs
  rw [ofInt]
  split
  · rename_i h
    exact (Digit.ofNat_ne_nil _ h).elim
  · rename_i d ds h
    rw [h] at hv
    simp only [value, hv, decide_eq_true_eq]
    split <;> omega

namespace Binary64

theorem trimZeros_spec (ds : List Digit) :
    ds = (trimZeros ds).1 ++ List.replicate (trimZeros ds).2 Digit.zero := by
  have hz : ds.reverse.takeWhile (· == Digit.zero) =
      List.replicate (trimZeros ds).2 Digit.zero := by
    refine List.eq_replicate_iff.mpr ⟨rfl, fun d hd => ?_⟩
    simpa using List.mem_takeWhile_imp hd
  have h := List.takeWhile_append_dropWhile (p := (· == Digit.zero)) (l := ds.reverse)
  rw [hz] at h
  have hr := congrArg List.reverse h
  rw [List.reverse_reverse, List.reverse_append, List.reverse_replicate] at hr
  exact hr.symm

/-- However digits are laid out, they keep their number and end up as a fraction or before an
exponent. -/
theorem layout_spec (negative : Bool) {digits : List Digit} (hd : digits ≠ []) (point : Int) :
    (layout negative digits point).negative = negative ∧
      (layout negative digits point).isFractional = true ∧
      ∃ k : Nat, (layout negative digits point).magnitude = Digit.value digits * tenTo k ∧
        (layout negative digits point).power = point - digits.length - k := by
  unfold layout
  split
  · rename_i hp
    refine ⟨rfl, by simp [Numeral.isFractional, hd], 0, ?_, ?_⟩
    · simp [Numeral.magnitude, Digit.value_append, tenTo, natPower]
    · simp only [Numeral.power, List.length_append, List.length_replicate]
      omega
  · split
    · rename_i hp
      by_cases hl : digits.length ≤ point.toNat
      · simp only [if_pos hl, List.take_of_length_le hl]
        refine ⟨trivial, rfl, point.toNat - digits.length + 1, ?_, ?_⟩
        · rw [Numeral.magnitude, Digit.value_append, Digit.value_replicate_zero,
            List.length_replicate, Nat.add_zero, Nat.mul_assoc, ← tenTo_add]
          rfl
        · simp only [Numeral.power, List.length_singleton]
          omega
      · simp only [if_neg hl]
        refine ⟨trivial, by simpa [Numeral.isFractional] using hl, 0, ?_, ?_⟩
        · rw [Numeral.magnitude, show point.toNat - digits.length = 0 by omega,
            List.replicate_zero, List.append_nil, ← Digit.value_append, List.take_append_drop]
          simp [tenTo, natPower]
        · simp only [Numeral.power, List.length_drop]
          omega
    · cases digits with
      | nil => exact (hd rfl).elim
      | cons d ds =>
        refine ⟨rfl, by simp [Numeral.isFractional], 0, ?_, ?_⟩
        · rw [Digit.value_cons]
          simp [Numeral.magnitude, tenTo, natPower]
        · simp only [Numeral.power, Exponent.value_ofInt, List.length_cons]
          omega

theorem finiteNumeral_spec {negative : Bool} {units : Nat} (hr : Representable units) :
    (finiteNumeral negative units).isFractional = true ∧
      ofNumeral (finiteNumeral negative units) = .finite negative units hr := by
  rw [finiteNumeral]
  split
  · rename_i h
    subst h
    have hm : (⟨negative, 0, [Digit.zero], none⟩ : Numeral).magnitude = 0 := rfl
    refine ⟨rfl, ?_⟩
    rw [ofNumeral, ofScientific]
    simp only [if_pos hm]
    exact ofUnits_of_representable negative hr
  · rename_i h
    obtain ⟨m, e, hs, hn, hl, hh⟩ := shortest_spec hr (Nat.pos_of_ne_zero h)
    have hm := (shortest_bounds hr (Nat.pos_of_ne_zero h) hn hl hh).1
    rw [hs]
    dsimp only
    have hsplit := trimZeros_spec (Digit.ofNat m)
    generalize trimZeros (Digit.ofNat m) = t at hsplit
    have hvalue : m = Digit.value t.1 * tenTo t.2 := by
      have hv := Digit.value_ofNat m
      rw [hsplit, Digit.value_append, Digit.value_replicate_zero, List.length_replicate] at hv
      exact hv.symm
    have ht : t.1 ≠ [] := by
      intro ht
      rw [ht] at hvalue
      simp [Digit.value] at hvalue
      exact hm hvalue
    have hlen : (Digit.ofNat m).length = t.1.length + t.2 := by
      rw [hsplit, List.length_append, List.length_replicate]
    obtain ⟨hneg, hfrac, k, hmag, hpow⟩ :=
      layout_spec negative ht ((Digit.ofNat m).length + e)
    refine ⟨hfrac, ?_⟩
    rw [ofNumeral, hneg, ← ofScientific_shortest negative hr (Nat.pos_of_ne_zero h) hs]
    refine ofScientific_eq_of_mul_eq negative (a := t.2) (b := k) ?_ ?_
    · rw [hmag, hvalue, Nat.mul_right_comm]
    · rw [hpow, hlen]
      push_cast
      ring

/-- A float that has a numeral is read back from it, and never as an integer. -/
theorem toBinary64?_of_toNumeral? {x : Binary64} {n : Numeral} (h : x.toNumeral? = some n) :
    n.isFractional = true ∧ n.toBinary64? = some x := by
  cases x with
  | finite negative units hr =>
    obtain rfl := Option.some.inj h
    obtain ⟨hf, hn⟩ : (finiteNumeral negative units).isFractional = true ∧
      ofNumeral (finiteNumeral negative units) = .finite negative units hr := finiteNumeral_spec hr
    refine ⟨hf, ?_⟩
    rw [Numeral.toBinary64?, hn]
    rfl
  | _ => cases h

end Binary64

end ShapeCodec
