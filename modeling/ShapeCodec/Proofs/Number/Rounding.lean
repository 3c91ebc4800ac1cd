import Mathlib
import ShapeCodec.Number.Binary64
import ShapeCodec.Proofs.Number.Digits

/-! # Rounding to the nearest float

A ratio that lies close enough to a number of units the format can hold is rounded to it: within
one part in `2 * 10 ^ 16`, which is less than half the last place of 53 bits. What a numeral is
rounded to depends on its number alone.
-/

namespace ShapeCodec

theorem twoTo_add (m n : Nat) : twoTo (m + n) = twoTo m * twoTo n := Nat.pow_add 2 m n

theorem twoTo_dvd {m n : Nat} (h : m ≤ n) : twoTo m ∣ twoTo n := Nat.pow_dvd_pow 2 h

theorem twoTo_le {m n : Nat} (h : m ≤ n) : twoTo m ≤ twoTo n := Nat.pow_le_pow_right (by decide) h

theorem twoTo_log2_le {n : Nat} (h : n ≠ 0) : twoTo n.log2 ≤ n := Nat.log2_self_le h

theorem lt_twoTo_log2 (n : Nat) : n < twoTo (n.log2 + 1) := Nat.lt_log2_self

theorem lt_twoTo_shift (n : Nat) : n < 9007199254740992 * twoTo (n.log2 - 52) := by
  rw [show 9007199254740992 = twoTo 53 from rfl, ← twoTo_add]
  exact Nat.lt_of_lt_of_le (lt_twoTo_log2 n) (twoTo_le (by omega))

namespace Binary64

theorem divNearestEven_of_close {n d k : Nat} (h₁ : 2 * n < 2 * (k * d) + d)
    (h₂ : 2 * (k * d) < 2 * n + d) : divNearestEven n d = k := by
  have hd : 0 < d := by
    rcases Nat.eq_zero_or_pos d with rfl | hd
    · omega
    · exact hd
  have hn := Nat.div_add_mod n d
  have hm := Nat.mod_lt n hd
  rw [divNearestEven]
  rcases Nat.lt_or_ge n (k * d) with h | h
  · obtain ⟨j, rfl⟩ : ∃ j, k = j + 1 := ⟨k - 1, by
      rcases k with _ | k
      · omega
      · rfl⟩
    rw [Nat.add_mul, Nat.one_mul] at h h₁ h₂
    have hq : n / d = j := Nat.div_eq_of_lt_le (by omega) (by rw [Nat.add_mul]; omega)
    rw [hq, Nat.mul_comm] at hn
    rw [hq]
    simp only [if_neg (show ¬ 2 * (n % d) < d by omega), if_pos (show d < 2 * (n % d) by omega)]
  · have hq : n / d = k := Nat.div_eq_of_lt_le h (by rw [Nat.add_mul]; omega)
    rw [hq, Nat.mul_comm] at hn
    rw [hq]
    simp only [if_pos (show 2 * (n % d) < d by omega)]

theorem add_place_le {units : Nat} (hr : Representable units) :
    units + twoTo (units.log2 - 52) ≤ twoTo (units.log2 + 1) := by
  obtain ⟨k, hk⟩ := hr.2
  obtain ⟨l, hl⟩ : twoTo (units.log2 - 52) ∣ twoTo (units.log2 + 1) := twoTo_dvd (by omega)
  have hkl : k + 1 ≤ l := by
    have hlt : twoTo (units.log2 - 52) * k < twoTo (units.log2 - 52) * l := by
      rw [← hk, ← hl]
      exact lt_twoTo_log2 units
    exact Nat.lt_of_mul_lt_mul_left hlt
  calc units + twoTo (units.log2 - 52)
      = twoTo (units.log2 - 52) * (k + 1) := by rw [Nat.mul_succ, ← hk]
    _ ≤ twoTo (units.log2 - 52) * l := Nat.mul_le_mul_left _ hkl
    _ = twoTo (units.log2 + 1) := hl.symm

theorem log2_div_le_of_close {units n d : Nat} (hr : Representable units) (hd : 0 < d)
    (h : 20000000000000000 * n ≤ 20000000000000001 * (units * d)) :
    (n / d).log2 ≤ units.log2 := by
  by_contra hlt
  have hq : n / d ≠ 0 := by
    intro hq
    simp [hq] at hlt
  have hpow : twoTo (units.log2 + 1) ≤ n / d :=
    (twoTo_le (by omega)).trans (twoTo_log2_le hq)
  have hn : (units + twoTo (units.log2 - 52)) * d ≤ n :=
    (Nat.mul_le_mul_right d ((add_place_le hr).trans hpow)).trans (Nat.div_mul_le_self n d)
  have hu : units * d < 9007199254740992 * (twoTo (units.log2 - 52) * d) := by
    rw [← Nat.mul_assoc]
    exact Nat.mul_lt_mul_of_pos_right (lt_twoTo_shift units) hd
  rw [Nat.add_mul] at hn
  omega

/-- A ratio close to a number of units is rounded to it. -/
theorem roundUnits_of_close {units n d : Nat} (hr : Representable units) (hd : 0 < d)
    (h₁ : 20000000000000000 * n ≤ 20000000000000001 * (units * d))
    (h₂ : 19999999999999999 * (units * d) ≤ 20000000000000000 * n) : roundUnits n d = units := by
  have hlog := log2_div_le_of_close hr hd h₁
  obtain ⟨k, hk⟩ : twoTo ((n / d).log2 - 52) ∣ units := (twoTo_dvd (by omega)).trans hr.2
  have hplace := twoTo_pos ((n / d).log2 - 52)
  have hhigh : n < 9007199254740992 * (d * twoTo ((n / d).log2 - 52)) := by
    have hq : n / d + 1 ≤ 9007199254740992 * twoTo ((n / d).log2 - 52) := lt_twoTo_shift (n / d)
    calc n < d * (n / d + 1) := Nat.lt_mul_div_succ n hd
      _ ≤ d * (9007199254740992 * twoTo ((n / d).log2 - 52)) := Nat.mul_le_mul_left d hq
      _ = 9007199254740992 * (d * twoTo ((n / d).log2 - 52)) := Nat.mul_left_comm _ _ _
  have hud : units * d = k * (d * twoTo ((n / d).log2 - 52)) := by
    conv_lhs => rw [hk]
    ring
  rw [roundUnits, divNearestEven_of_close (k := k) (by omega) (by omega), Nat.mul_comm]
  exact hk.symm

/-! ## The same number with another power of ten -/

theorem roundUnits_mul_right (n d : Nat) {c : Nat} (hc : 0 < c) :
    roundUnits (n * c) (d * c) = roundUnits n d := by
  have hround : ∀ n d, divNearestEven (n * c) (d * c) = divNearestEven n d := by
    intro n d
    rw [divNearestEven, divNearestEven, Nat.mul_div_mul_right _ _ hc, Nat.mul_mod_mul_right]
    simp only [← Nat.mul_assoc, Nat.mul_lt_mul_right hc]
  rw [roundUnits, roundUnits, Nat.mul_div_mul_right _ _ hc, Nat.mul_right_comm, hround]

theorem nearestUnits_mul_tenTo (m k : Nat) (e : Int) :
    nearestUnits (m * tenTo k) (e - k) = nearestUnits m e := by
  have hk := tenTo_pos k
  rw [nearestUnits, nearestUnits]
  rcases lt_or_ge e 0 with he | he
  · rw [if_neg (by omega), if_neg (by omega), Nat.mul_right_comm,
      show (-(e - k)).toNat = (-e).toNat + k by omega, tenTo_add, roundUnits_mul_right _ _ hk]
  · rw [if_pos he]
    split
    · rw [Nat.mul_assoc m, ← tenTo_add, show k + (e - k).toNat = e.toNat by omega]
    · obtain ⟨j, hj⟩ : ∃ j : Nat, k = e.toNat + j := ⟨k - e.toNat, by omega⟩
      rw [show (-(e - k)).toNat = j by omega, hj, tenTo_add, ← Nat.mul_assoc, Nat.mul_right_comm,
        ← roundUnits_mul_right _ 1 (tenTo_pos j), Nat.one_mul]

theorem ofScientific_mul_tenTo (negative : Bool) (m k : Nat) (e : Int) :
    ofScientific negative (m * tenTo k) (e - k) = ofScientific negative m e := by
  rcases Nat.eq_zero_or_pos m with rfl | hm
  · simp [ofScientific]
  · have hmk : m * tenTo k ≠ 0 := Nat.ne_of_gt (Nat.mul_pos hm (tenTo_pos k))
    rw [ofScientific, ofScientific, if_neg hmk, if_neg (Nat.ne_of_gt hm), nearestUnits_mul_tenTo,
      Digit.length_ofNat_mul_tenTo hm]
    have hp : ((Digit.ofNat m).length + k : Nat) + (e - k) = (Digit.ofNat m).length + e := by
      push_cast
      ring
    rw [hp]

/-- Two spellings of a number are rounded alike. -/
theorem ofScientific_eq_of_mul_eq (negative : Bool) {m n a b : Nat} {e f : Int}
    (h : m * tenTo a = n * tenTo b) (hp : e - a = f - b) :
    ofScientific negative m e = ofScientific negative n f := by
  rw [← ofScientific_mul_tenTo negative m a, ← ofScientific_mul_tenTo negative n b, h, hp]

/-! ## Integers -/

theorem divNearestEven_le {n d k : Nat} (h : n < k * d) : divNearestEven n d ≤ k := by
  have hq : n / d < k := Nat.div_lt_of_lt_mul (Nat.mul_comm k d ▸ h)
  have := Nat.mod_lt (n / d) (show 0 < 2 by decide)
  rw [divNearestEven]
  split
  · omega
  · split
    · omega
    · omega

theorem exists_roundUnits_eq (n : Nat) {d : Nat} (hd : 0 < d) :
    ∃ r ≤ twoTo 53, roundUnits n d = r * twoTo ((n / d).log2 - 52) := by
  refine ⟨_, divNearestEven_le ?_, rfl⟩
  have hq : n / d + 1 ≤ 9007199254740992 * twoTo ((n / d).log2 - 52) := lt_twoTo_shift (n / d)
  calc n < d * (n / d + 1) := Nat.lt_mul_div_succ n hd
    _ ≤ d * (9007199254740992 * twoTo ((n / d).log2 - 52)) := Nat.mul_le_mul_left d hq
    _ = twoTo 53 * (d * twoTo ((n / d).log2 - 52)) := Nat.mul_left_comm _ _ _

theorem place_dvd_roundUnits (n : Nat) {d : Nat} (hd : 0 < d) :
    twoTo ((roundUnits n d).log2 - 52) ∣ roundUnits n d := by
  obtain ⟨r, hle, he⟩ := exists_roundUnits_eq n hd
  generalize (n / d).log2 - 52 = s at he
  rw [he]
  rcases Nat.eq_zero_or_pos r with rfl | hpos
  · simp
  rcases Nat.lt_or_ge r (twoTo 53) with hlt | hge
  · refine (twoTo_dvd ?_).trans (Nat.dvd_mul_left _ _)
    have hb : r * twoTo s < twoTo (53 + s) := by
      rw [twoTo_add]
      exact Nat.mul_lt_mul_of_pos_right hlt (twoTo_pos s)
    have hne : r * twoTo s ≠ 0 := Nat.ne_of_gt (Nat.mul_pos hpos (twoTo_pos s))
    have := (Nat.log2_lt hne).mpr hb
    omega
  · obtain rfl : r = twoTo 53 := Nat.le_antisymm hle hge
    rw [← twoTo_add]
    refine twoTo_dvd ?_
    rw [show (twoTo (53 + s)).log2 = 53 + s from Nat.log2_two_pow]
    omega

theorem representable_roundUnits {n d k : Nat} (hd : 0 < d) (h : n / d < twoTo k) (hk : k ≤ 2000) :
    Representable (roundUnits n d) := by
  refine ⟨?_, place_dvd_roundUnits n hd⟩
  obtain ⟨r, hle, he⟩ := exists_roundUnits_eq n hd
  have hlog : (n / d).log2 ≤ k := by
    by_contra hlt
    have hne : n / d ≠ 0 := by
      intro h0
      simp [h0] at hlt
    exact absurd (Nat.lt_of_le_of_lt ((twoTo_le (by omega)).trans (twoTo_log2_le hne)) h)
      (Nat.lt_irrefl _)
  rw [he]
  calc r * twoTo ((n / d).log2 - 52)
      ≤ twoTo 53 * twoTo ((n / d).log2 - 52) := Nat.mul_le_mul_right _ hle
    _ = twoTo (53 + ((n / d).log2 - 52)) := (twoTo_add _ _).symm
    _ < twoTo 2098 := Nat.pow_lt_pow_right (by decide) (by omega)

theorem ofUnits_of_representable (negative : Bool) {units : Nat} (h : Representable units) :
    ofUnits negative units = .finite negative units h := dif_pos h

theorem representable_zero : Representable 0 := ⟨twoTo_pos 2098, Nat.dvd_zero _⟩

theorem isFinite_ofScientific (negative : Bool) {m : Nat} {e : Int} (hm : m < twoTo 96)
    (he : -28 ≤ e) (he' : e ≤ 0) : (ofScientific negative m e).isFinite = true := by
  have finite : ∀ {u}, Representable u → (ofUnits negative u).isFinite = true := by
    intro u hu
    rw [ofUnits_of_representable _ hu]
    rfl
  rw [ofScientific]
  split
  · exact finite representable_zero
  · rename_i h0
    have hl : (Digit.ofNat m).length - 1 < 29 := by
      have hlt : tenTo ((Digit.ofNat m).length - 1) < tenTo 29 :=
        (Digit.tenTo_le_of_pos (Nat.pos_of_ne_zero h0)).trans_lt (hm.trans (by decide))
      exact (Nat.pow_lt_pow_iff_right (by decide)).mp hlt
    rw [if_neg (by omega), if_neg (by omega)]
    refine finite ?_
    have hu : m * twoTo 1074 < twoTo (96 + 1074) := by
      rw [twoTo_add]
      exact Nat.mul_lt_mul_of_pos_right hm (twoTo_pos _)
    rw [nearestUnits]
    split
    · obtain rfl : e = 0 := by omega
      refine representable_roundUnits (k := 96 + 1074) (by decide) ?_ (by decide)
      rwa [Nat.div_one, show tenTo (0 : Int).toNat = 1 from rfl, Nat.mul_one]
    · exact representable_roundUnits (k := 96 + 1074) (tenTo_pos _)
        ((Nat.div_le_self _ _).trans_lt hu) (by decide)

theorem isFinite_ofInt (i : Int64) : (ofInt i.toInt).isFinite = true := by
  have h₁ := Int64.le_toInt i
  have h₂ := Int64.toInt_lt i
  refine isFinite_ofScientific _ ?_ (by decide) le_rfl
  simp only [twoTo, natPower]
  omega

end Binary64

end ShapeCodec
