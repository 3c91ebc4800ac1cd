import ShapeCodec.Number.Decimal
import ShapeCodec.Proofs.Number.Digits

/-! # Numerals are read as they are written

A numeral that is written before something that cannot belong to it is read back, and so are the
integers and decimals that are written as numerals.
-/

namespace ShapeCodec

namespace Numeral

def Ends (cs : List Char) : Prop :=
  ∀ c ∈ cs.head?, Digit.ofChar? c = none ∧ c ≠ '.' ∧ c ≠ 'e' ∧ c ≠ 'E'

theorem Ends.stops {cs : List Char} (h : Ends cs) : Digit.Stops cs := fun c hc => (h c hc).1

theorem char_ne_minus : ∀ d : Digit, d.char ≠ '-' := by decide

theorem scanMinus_of_ne {c : Char} (h : c ≠ '-') (cs : List Char) :
    scanMinus (c :: cs) = (false, c :: cs) := by
  unfold scanMinus
  split
  · rename_i he
    exact (h (List.cons.inj he).1).elim
  · rfl

theorem scanWhole_natChars (n : Nat) {rest : List Char} (h : Digit.Stops rest) :
    scanWhole (Digit.natChars n ++ rest) = .ok (n, rest) := by
  have hs : Digit.span (Digit.natChars n ++ rest) = (Digit.ofNat n, rest) :=
    Digit.span_chars_append _ h
  have hv := Digit.value_ofNat n
  unfold scanWhole
  rw [hs]
  cases hd : Digit.ofNat n with
  | nil => exact (Digit.ofNat_ne_nil n hd).elim
  | cons d ds =>
    cases ds with
    | nil => simp [hd, Digit.value] at hv ⊢; exact hv
    | cons e ds =>
      have hn : 0 < n := by
        rcases Nat.eq_zero_or_pos n with rfl | hn
        · rw [Digit.ofNat_of_lt (by decide)] at hd
          cases hd
        · exact hn
      simp only [if_neg (Digit.head_ofNat_ne_zero hn hd)]
      rw [← hd, hv]

theorem scanFraction_chars (ds : List Digit) {rest : List Char} (h : Digit.Stops rest)
    (hp : ∀ c ∈ rest.head?, c ≠ '.') :
    scanFraction ((if ds.isEmpty then [] else '.' :: Digit.chars ds) ++ rest) = .ok (ds, rest) := by
  cases ds with
  | nil =>
    cases rest with
    | nil => rfl
    | cons c cs =>
      simp only [List.isEmpty_nil, if_true, List.nil_append]
      unfold scanFraction
      split
      · rename_i he
        exact (hp _ rfl (List.cons.inj he).1).elim
      · rfl
  | cons d ds =>
    simp only [List.isEmpty_cons, Bool.false_eq_true, if_false, List.cons_append]
    rw [scanFraction, Digit.span_chars_append _ h]

theorem scanExponent_chars (e : Exponent) {rest : List Char} (h : Digit.Stops rest) :
    scanExponent (e.chars ++ rest) = .ok (some e, rest) := by
  have hs : Digit.span (Digit.chars (e.lead :: e.rest) ++ rest) = (e.lead :: e.rest, rest) :=
    Digit.span_chars_append _ h
  obtain ⟨negative, lead, ds⟩ := e
  simp only [Exponent.chars, List.cons_append, scanExponent, true_or, if_true]
  cases negative <;> simp [scanSign, hs]

theorem scanExponent_of_ends {rest : List Char} (h : Ends rest) :
    scanExponent rest = .ok (none, rest) := by
  cases rest with
  | nil => rfl
  | cons c cs =>
    obtain ⟨_, _, he, hE⟩ := h c rfl
    rw [scanExponent, if_neg (by simp [he, hE])]

theorem scan_mantissaChars (n : Numeral) {tail rest : List Char}
    (he : scanExponent tail = .ok (n.exponent, rest)) (hs : Digit.Stops tail)
    (hp : ∀ c ∈ tail.head?, c ≠ '.') : scan (n.mantissaChars ++ tail) = .ok (n, rest) := by
  obtain ⟨negative, whole, fraction, exponent⟩ := n
  obtain ⟨body, hb⟩ : ∃ body, body =
      (if fraction.isEmpty then [] else '.' :: Digit.chars fraction) ++ tail := ⟨_, rfl⟩
  have hfrac : scanFraction body = .ok (fraction, tail) := hb ▸ scanFraction_chars _ hs hp
  have hbody : Digit.Stops body := by
    cases fraction with
    | nil => rw [hb]; exact hs
    | cons d ds =>
      rw [hb]
      rintro c ⟨⟩
      decide
  have hminus : scanMinus ((if negative then ['-'] else []) ++ (Digit.natChars whole ++ body)) =
      (negative, Digit.natChars whole ++ body) := by
    cases negative with
    | true => rfl
    | false =>
      cases hd : Digit.ofNat whole with
      | nil => exact (Digit.ofNat_ne_nil _ hd).elim
      | cons d ds =>
        simp only [Digit.natChars, hd, Digit.chars, List.map_cons, Bool.false_eq_true, if_false,
          List.nil_append, List.cons_append]
        exact scanMinus_of_ne (char_ne_minus d) _
  have hchars : (⟨negative, whole, fraction, exponent⟩ : Numeral).mantissaChars ++ tail =
      (if negative then ['-'] else []) ++ (Digit.natChars whole ++ body) := by
    rw [hb, mantissaChars]
    simp only [List.append_assoc]
  rw [hchars, scan, hminus]
  simp only [bind, Except.bind, scanWhole_natChars _ hbody, hfrac, he]
  rfl

/-- A numeral that stands before something else is read back. -/
theorem scan_chars (n : Numeral) {rest : List Char} (h : Ends rest) :
    scan (n.chars ++ rest) = .ok (n, rest) := by
  rw [chars, List.append_assoc]
  cases he : n.exponent with
  | none =>
    apply scan_mantissaChars n
    · rw [he]
      exact scanExponent_of_ends h
    · exact h.stops
    · exact fun c hc => (h c hc).2.1
  | some e =>
    apply scan_mantissaChars n
    · rw [he]
      exact scanExponent_chars e h.stops
    · rintro c ⟨⟩
      decide
    · rintro c ⟨⟩
      decide

theorem ofChars?_chars (n : Numeral) : ofChars? n.chars = some n := by
  have h := scan_chars n (show Ends [] from nofun)
  rw [List.append_nil] at h
  rw [ofChars?, h]

theorem chars_injective : Function.Injective chars := by
  intro m n h
  have hm := ofChars?_chars m
  rw [h, ofChars?_chars] at hm
  exact (Option.some.inj hm).symm

/-! ## Integers -/

def ofInt (i : Int) : Numeral := ⟨decide (i < 0), i.natAbs, [], none⟩

theorem chars_ofInt (i : Int) : (ofInt i).chars = Digit.intChars i := by
  rw [chars, mantissaChars, Digit.intChars, ofInt]
  by_cases h : i < 0 <;> simp [h]

theorem coefficient_ofInt (i : Int) : (ofInt i).coefficient = i := by
  simp only [coefficient, magnitude, ofInt, decide_eq_true_eq, List.length_nil, Digit.value,
    List.foldl_nil, tenTo, natPower, Nat.pow_zero, Nat.mul_one, Nat.add_zero]
  split <;> omega

end Numeral

namespace Int64

theorem ofInt?_toInt (i : Int64) : ofInt? i.toInt = some i := by
  have h₁ := Int64.le_toInt i
  have h₂ := Int64.toInt_lt i
  rw [ofInt?, if_pos (by simp only [twoTo, natPower]; omega), Int64.ofInt_toInt]

theorem toInt_of_ofInt? {n : Int} {i : Int64} (h : ofInt? n = some i) : i.toInt = n := by
  unfold ofInt? at h
  split at h
  · rename_i hn
    simp only [twoTo, natPower] at hn
    obtain rfl := Option.some.inj h
    exact Int64.toInt_ofInt_of_le (by omega) (by omega)
  · cases h

end Int64

theorem Numeral.toInt64?_ofInt (i : Int64) : (ofInt i.toInt).toInt64? = some i := by
  rw [toInt64?, coefficient_ofInt, Int64.ofInt?_toInt]
  rfl

/-! ## Decimals -/

namespace Decimal

@[simp] theorem lastDigits_zero (n : Nat) : lastDigits 0 n = [] := rfl

theorem lastDigits_succ (width n : Nat) : lastDigits (width + 1) n =
    lastDigits width (n / 10) ++ [⟨n % 10, Nat.mod_lt n (Nat.succ_pos 9)⟩] := rfl

@[simp] theorem length_lastDigits (width n : Nat) : (lastDigits width n).length = width := by
  induction width generalizing n with
  | zero => rfl
  | succ w ih => rw [lastDigits_succ, List.length_append, ih]; rfl

theorem value_lastDigits (width n : Nat) : Digit.value (lastDigits width n) = n % tenTo width := by
  induction width generalizing n with
  | zero => simp [Digit.value, tenTo, natPower, Nat.mod_one]
  | succ w ih =>
    rw [lastDigits_succ, Digit.value_append, ih, tenTo_succ, Nat.mod_mul]
    simp [Digit.value, tenTo, natPower]
    omega

theorem magnitude_toNumeral (d : Decimal) : d.toNumeral.magnitude = d.coefficient.natAbs := by
  rw [toNumeral, Numeral.magnitude, length_lastDigits, value_lastDigits]
  exact Nat.div_add_mod' _ _

theorem coefficient_toNumeral (d : Decimal) : d.toNumeral.coefficient = d.coefficient := by
  rw [Numeral.coefficient, magnitude_toNumeral]
  simp only [toNumeral, decide_eq_true_eq]
  split <;> omega

theorem mk?_self (d : Decimal) : mk? d.coefficient d.scale = some d :=
  dif_pos ⟨d.natAbs_lt, d.scale_le⟩

theorem ofNumeral?_toNumeral (d : Decimal) : ofNumeral? d.toNumeral = some d := by
  have hf : d.toNumeral.fraction.length = d.scale := length_lastDigits _ _
  rw [ofNumeral?, coefficient_toNumeral, hf, mk?_self]
  rfl

theorem ofInt64_of_toInt64? {d : Decimal} {i : Int64} (h : d.toNumeral.toInt64? = some i) :
    ofInt64 i = d := by
  unfold Numeral.toInt64? at h
  split at h
  · cases h
  · rename_i hf
    have hs : d.scale = 0 := by
      have hl := length_lastDigits d.scale d.coefficient.natAbs
      simp only [Numeral.isFractional, toNumeral, Option.isSome_none, Bool.or_false,
        Bool.not_eq_true', List.isEmpty_eq_false_iff, ne_eq, Decidable.not_not] at hf
      rw [← hl, hf]
      rfl
    have hi := Int64.toInt_of_ofInt? h
    rw [coefficient_toNumeral] at hi
    obtain ⟨coefficient, scale, _, _⟩ := d
    simp_all [ofInt64]

end Decimal

end ShapeCodec
