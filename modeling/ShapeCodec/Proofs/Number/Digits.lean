import Mathlib.Data.List.Induction
import ShapeCodec.Number.Digit
import ShapeCodec.Number.Power

/-! # Digits and what they stand for

The digits of a number stand for it, there is no zero in front of them, and a text gives them back
up to the first character that is no digit.
-/

namespace ShapeCodec

theorem tenTo_pos (n : Nat) : 0 < tenTo n := Nat.pow_pos (by decide)

theorem twoTo_pos (n : Nat) : 0 < twoTo n := Nat.pow_pos (by decide)

theorem tenTo_succ (n : Nat) : tenTo (n + 1) = 10 * tenTo n := by
  rw [tenTo, tenTo, natPower, Nat.pow_succ, Nat.mul_comm]

theorem tenTo_add (m n : Nat) : tenTo (m + n) = tenTo m * tenTo n := Nat.pow_add 10 m n

namespace Digit

theorem value_append (ds es : List Digit) :
    value (ds ++ es) = value ds * tenTo es.length + value es := by
  have key : ∀ (es : List Digit) (v : Nat),
      es.foldl (fun v d => 10 * v + d.val) v = v * tenTo es.length + value es := by
    intro es
    induction es with
    | nil => simp [value, tenTo, natPower]
    | cons e es ih =>
      intro v
      have he : value (e :: es) = (10 * 0 + e.val) * tenTo es.length + value es := ih _
      rw [List.foldl_cons, ih, he, List.length_cons, tenTo_succ, Nat.mul_zero, Nat.zero_add,
        Nat.add_mul, Nat.mul_comm 10 v, Nat.mul_assoc, Nat.add_assoc]
  rw [value, List.foldl_append]
  exact key es _

theorem value_cons (d : Digit) (ds : List Digit) :
    value (d :: ds) = d.val * tenTo ds.length + value ds := by
  have h := value_append [d] ds
  simpa [value] using h

theorem value_lt (ds : List Digit) : value ds < tenTo ds.length := by
  induction ds with
  | nil => decide
  | cons d ds ih =>
    rw [value_cons, List.length_cons, tenTo_succ]
    have h : d.val * tenTo ds.length ≤ 9 * tenTo ds.length :=
      Nat.mul_le_mul_right _ (Nat.le_of_lt_succ d.isLt)
    omega

@[simp] theorem value_replicate_zero (n : Nat) : value (List.replicate n zero) = 0 := by
  induction n with
  | zero => rfl
  | succ n ih => rw [List.replicate_succ, value_cons, ih]; simp [zero]

theorem ofNatOnto_eq (n : Nat) (after : List Digit) : ofNatOnto n after = ofNat n ++ after := by
  induction n using Nat.strongRecOn generalizing after with
  | ind n ih =>
    by_cases h : n < 10
    · rw [ofNat, ofNatOnto, dif_pos h, ofNatOnto, dif_pos h]
      rfl
    · have step : ∀ after, ofNatOnto n after =
          ofNatOnto (n / 10) (⟨n % 10, Nat.mod_lt _ (by decide)⟩ :: after) := by
        intro after
        rw [ofNatOnto, dif_neg h]
      rw [ofNat, step, step, ih (n / 10) (by omega), ih (n / 10) (by omega) [_],
        List.append_assoc]
      rfl

theorem ofNat_of_lt {n : Nat} (h : n < 10) : ofNat n = [⟨n, h⟩] := by
  rw [ofNat, ofNatOnto, dif_pos h]

theorem ofNat_of_le {n : Nat} (h : 10 ≤ n) :
    ofNat n = ofNat (n / 10) ++ [⟨n % 10, Nat.mod_lt _ (by decide)⟩] := by
  conv => lhs; rw [ofNat, ofNatOnto, dif_neg (by omega), ofNatOnto_eq]

theorem value_ofNat (n : Nat) : value (ofNat n) = n := by
  induction n using Nat.strongRecOn with
  | ind n ih =>
    by_cases h : n < 10
    · rw [ofNat_of_lt h]
      simp [value]
    · rw [ofNat_of_le (by omega), value_append, ih (n / 10) (by omega)]
      simp [value, tenTo, natPower]
      omega

@[simp] theorem ofNat_ne_nil (n : Nat) : ofNat n ≠ [] := by
  by_cases h : n < 10
  · simp [ofNat_of_lt h]
  · simp [ofNat_of_le (Nat.le_of_not_lt h)]

theorem lt_tenTo_length (n : Nat) : n < tenTo (ofNat n).length := by
  have h := value_lt (ofNat n)
  rwa [value_ofNat] at h

theorem tenTo_le_of_pos {n : Nat} (h : 0 < n) : tenTo ((ofNat n).length - 1) ≤ n := by
  induction n using Nat.strongRecOn with
  | ind n ih =>
    by_cases h10 : n < 10
    · rw [ofNat_of_lt h10]
      exact h
    · have hi := ih (n / 10) (by omega) (by omega)
      have hl : 0 < (ofNat (n / 10)).length := List.length_pos_iff.mpr (ofNat_ne_nil _)
      rw [ofNat_of_le (by omega), List.length_append, List.length_singleton, Nat.add_sub_cancel]
      obtain ⟨k, hk⟩ : ∃ k, (ofNat (n / 10)).length = k + 1 := ⟨_, (Nat.succ_pred (by omega)).symm⟩
      rw [hk, Nat.add_sub_cancel] at hi
      rw [hk, tenTo_succ]
      omega

theorem head_ofNat_ne_zero {n : Nat} (h : 0 < n) {d : Digit} {ds : List Digit}
    (hd : ofNat n = d :: ds) : d ≠ zero := by
  rintro rfl
  have hv := value_ofNat n
  have hl := tenTo_le_of_pos h
  rw [hd, value_cons] at hv
  rw [hd, List.length_cons, Nat.add_sub_cancel] at hl
  have := value_lt ds
  simp [zero] at hv
  omega

theorem length_ofNat_mul_tenTo {n : Nat} (h : 0 < n) (k : Nat) :
    (ofNat (n * tenTo k)).length = (ofNat n).length + k := by
  induction k with
  | zero => simp [tenTo, natPower]
  | succ k ih =>
    have hp : 0 < n * tenTo k := Nat.mul_pos h (tenTo_pos k)
    have he : n * tenTo (k + 1) / 10 = n * tenTo k := by
      rw [tenTo_succ, Nat.mul_left_comm, Nat.mul_div_cancel_left _ (by decide)]
    rw [ofNat_of_le (by rw [tenTo_succ, Nat.mul_left_comm]; omega), he, List.length_append, ih]
    rfl

/-! ## Texts -/

theorem ofChar?_char (d : Digit) : ofChar? d.char = some d := by
  revert d
  decide

def Stops (cs : List Char) : Prop := ∀ c ∈ cs.head?, ofChar? c = none

theorem span_chars_append (ds : List Digit) {rest : List Char} (h : Stops rest) :
    span (chars ds ++ rest) = (ds, rest) := by
  induction ds with
  | nil =>
    cases rest with
    | nil => rfl
    | cons c cs => simp [chars, span, h c rfl]
  | cons d ds ih =>
    have hc : chars (d :: ds) ++ rest = d.char :: (chars ds ++ rest) := rfl
    rw [hc, span, ofChar?_char, ih]

theorem char_of_ofChar? {c : Char} {d : Digit} (h : ofChar? c = some d) : c = d.char := by
  unfold ofChar? at h
  split at h
  · rename_i hc
    obtain rfl := Option.some.inj h
    rw [char, Nat.add_sub_cancel' hc.1, Char.ofNat_toNat]
  · cases h

theorem eq_of_span {cs rest : List Char} {ds : List Digit} (h : span cs = (ds, rest)) :
    cs = chars ds ++ rest := by
  induction cs generalizing ds with
  | nil =>
    cases h
    rfl
  | cons c cs ih =>
    unfold span at h
    split at h
    · rename_i d hd
      obtain ⟨es, more⟩ : ∃ p, p = span cs := ⟨_, rfl⟩
      rw [← more] at h
      cases h
      rw [char_of_ofChar? hd, ih more.symm]
      rfl
    · cases h
      rfl

theorem chars_injective : Function.Injective chars := by
  intro ds es h
  have hd := span_chars_append ds (show Stops [] from nofun)
  rw [h, span_chars_append es (show Stops [] from nofun)] at hd
  exact (congrArg Prod.fst hd).symm

theorem ofNat_value {d : Digit} (hd : d ≠ zero) (ds : List Digit) :
    ofNat (value (d :: ds)) = d :: ds := by
  induction ds using List.reverseRecOn with
  | nil =>
    have hv : value [d] = d.val := by simp [value]
    rw [hv, ofNat_of_lt d.isLt]
  | append_singleton ds e ih =>
    have hpos : 0 < value (d :: ds) := by
      rw [value_cons]
      exact Nat.add_pos_left (Nat.mul_pos (Nat.pos_of_ne_zero fun h => hd (Fin.ext h))
        (tenTo_pos _)) _
    have hv : value (d :: (ds ++ [e])) = 10 * value (d :: ds) + e.val := by
      rw [← List.cons_append, value, List.foldl_append]
      rfl
    have hdiv : (10 * value (d :: ds) + e.val) / 10 = value (d :: ds) := by omega
    have hmod : (10 * value (d :: ds) + e.val) % 10 = e.val := by omega
    rw [hv, ofNat_of_le (by omega), hdiv, ih]
    simp only [hmod, List.cons_append]

end Digit

end ShapeCodec
