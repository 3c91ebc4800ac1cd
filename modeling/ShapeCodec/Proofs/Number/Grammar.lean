import ShapeCodec.Proofs.Number.Numerals
import ShapeCodec.Proofs.Results

/-! # The grammar of numbers

A number is written with an optional minus sign, digits that do not start with a needless zero, and
optionally a fraction and an exponent. It is kept digit for digit, with a small exponent mark and a
sign behind it. The scanner of numerals reads these texts and no others.
-/

namespace ShapeCodec

namespace Grammar

/-- The whole part of a number: a zero, or digits that do not start with zero. -/
inductive WholeText : List Char → Prop
  | zero : WholeText ['0']
  | digits {d : Digit} (hd : d ≠ Digit.zero) (ds : List Digit) : WholeText (Digit.chars (d :: ds))

inductive FractionText : List Char → Prop
  | none : FractionText []
  | digits (d : Digit) (ds : List Digit) : FractionText ('.' :: Digit.chars (d :: ds))

/-- The sign of an exponent as it is written, and the one that is kept. -/
inductive SignText : List Char → Char → Prop
  | none : SignText [] '+'
  | plus : SignText ['+'] '+'
  | minus : SignText ['-'] '-'

inductive ExponentText : List Char → List Char → Prop
  | none : ExponentText [] []
  | digits {mark sign : Char} {signs : List Char} (hm : mark = 'e' ∨ mark = 'E')
    (hs : SignText signs sign) (d : Digit) (ds : List Digit) :
    ExponentText (mark :: (signs ++ Digit.chars (d :: ds))) ('e' :: sign :: Digit.chars (d :: ds))

/-- A number as it is written, and as it is kept. -/
inductive NumberText : List Char → List Char → Prop
  | mk {minus whole fraction exponent kept : List Char} (hm : minus = [] ∨ minus = ['-'])
    (hw : WholeText whole) (hf : FractionText fraction) (he : ExponentText exponent kept) :
    NumberText (minus ++ whole ++ fraction ++ exponent) (minus ++ whole ++ fraction ++ kept)

inductive IntegerText : List Char → Int → Prop
  | digits (ds : List Digit) : IntegerText (Digit.chars ds) (Digit.value ds)
  | minus (ds : List Digit) : IntegerText ('-' :: Digit.chars ds) (-Digit.value ds)

variable {t e w f kept cs rest : List Char}

/-! ## Parts of a number -/

theorem wholeText_iff : WholeText w ↔ ∃ n, w = Digit.natChars n := by
  have hzero : Digit.natChars 0 = ['0'] := by
    rw [Digit.natChars, Digit.ofNat_of_lt (by decide)]
    rfl
  constructor
  · rintro (_ | ⟨hd, ds⟩)
    · exact ⟨0, hzero.symm⟩
    · exact ⟨Digit.value (_ :: ds), by rw [Digit.natChars, Digit.ofNat_value hd]⟩
  · rintro ⟨n, rfl⟩
    rcases Nat.eq_zero_or_pos n with rfl | hn
    · rw [hzero]
      exact .zero
    · obtain ⟨d, ds, hd⟩ := List.exists_cons_of_ne_nil (Digit.ofNat_ne_nil n)
      rw [Digit.natChars, hd]
      exact .digits (Digit.head_ofNat_ne_zero hn hd) ds

theorem fractionText_iff : FractionText f ↔
    ∃ ds : List Digit, f = if ds.isEmpty then [] else '.' :: Digit.chars ds := by
  constructor
  · rintro (_ | ⟨d, ds⟩)
    · exact ⟨[], rfl⟩
    · exact ⟨d :: ds, rfl⟩
  · rintro ⟨_ | ⟨d, ds⟩, rfl⟩
    · exact .none
    · exact .digits d ds

theorem scanSign_digit (d : Digit) (cs : List Char) :
    Numeral.scanSign (d.char :: cs) = (false, d.char :: cs) := by
  have hd : ∀ d : Digit, d.char ≠ '-' ∧ d.char ≠ '+' := by decide
  unfold Numeral.scanSign
  split
  · rename_i he
    exact ((hd d).1 (List.cons.inj he).1).elim
  · rename_i he
    exact ((hd d).2 (List.cons.inj he).1).elim
  · rfl

theorem SignText.scan {signs : List Char} {sign : Char} (h : SignText signs sign) (d : Digit)
    (cs : List Char) : ∃ negative : Bool, sign = (if negative then '-' else '+') ∧
      Numeral.scanSign (signs ++ d.char :: cs) = (negative, d.char :: cs) := by
  cases h with
  | none => exact ⟨false, rfl, scanSign_digit d cs⟩
  | plus => exact ⟨false, rfl, rfl⟩
  | minus => exact ⟨true, rfl, rfl⟩

theorem signText_of_scan (cs : List Char) : ∃ signs sign, SignText signs sign ∧
    cs = signs ++ (Numeral.scanSign cs).2 ∧
      sign = if (Numeral.scanSign cs).1 then '-' else '+' := by
  unfold Numeral.scanSign
  split
  · exact ⟨_, _, .minus, rfl, rfl⟩
  · exact ⟨_, _, .plus, rfl, rfl⟩
  · exact ⟨_, _, .none, rfl, rfl⟩

theorem ExponentText.scan (h : ExponentText e kept) : ∃ x : Option Exponent,
    kept = x.elim [] Exponent.chars ∧
      ∀ rest, Numeral.Ends rest → Numeral.scanExponent (e ++ rest) = .ok (x, rest) := by
  cases h with
  | none => exact ⟨.none, rfl, fun rest hr => Numeral.scanExponent_of_ends hr⟩
  | @digits mark sign signs hm hs d ds =>
    obtain ⟨negative, rfl, -⟩ := hs.scan d []
    refine ⟨some ⟨negative, d, ds⟩, rfl, fun rest hr => ?_⟩
    obtain ⟨negative', hn, hscan⟩ := hs.scan d (Digit.chars ds ++ rest)
    obtain rfl : negative' = negative := by
      revert hn
      cases negative <;> cases negative' <;> decide
    have hspan := Digit.span_chars_append (d :: ds) hr.stops
    rw [List.cons_append, List.append_assoc, Numeral.scanExponent, if_pos hm]
    change Numeral.scanSign (signs ++ (Digit.chars (d :: ds) ++ rest)) = _ at hscan
    rw [hscan]
    dsimp only
    rw [show d.char :: (Digit.chars ds ++ rest) = Digit.chars (d :: ds) ++ rest from rfl, hspan]

theorem exponentText_of_scan {x : Option Exponent}
    (h : Numeral.scanExponent cs = .ok (x, rest)) :
    ∃ e, cs = e ++ rest ∧ ExponentText e (x.elim [] Exponent.chars) := by
  unfold Numeral.scanExponent at h
  split at h
  · cases h
    exact ⟨[], rfl, .none⟩
  · rename_i c cs
    split at h
    · rename_i hm
      obtain ⟨signs, sign, hs, hcs, rfl⟩ := signText_of_scan cs
      dsimp only at h
      split at h
      · cases h
      · rename_i d ds r hd
        cases h
        refine ⟨_, ?_, .digits hm hs d ds⟩
        rw [List.cons_append, List.append_assoc, ← Digit.eq_of_span hd, ← hcs]
    · cases h
      exact ⟨[], rfl, .none⟩

/-! ## Numerals -/

theorem chars_eq (n : Numeral) :
    n.chars = n.mantissaChars ++ n.exponent.elim [] Exponent.chars := by
  unfold Numeral.chars
  cases n.exponent <;> rfl

/-- What is kept of a number is a numeral, and the number is written so but for its exponent. -/
theorem NumberText.exists_numeral (h : NumberText t kept) : ∃ (n : Numeral) (e : List Char),
    kept = n.chars ∧ t = n.mantissaChars ++ e ∧
      ExponentText e (n.exponent.elim [] Exponent.chars) ∧
      ∀ rest, Numeral.Ends rest → Numeral.scanExponent (e ++ rest) = .ok (n.exponent, rest) := by
  obtain ⟨hm, hw, hf, he⟩ := h
  obtain ⟨whole, rfl⟩ := wholeText_iff.mp hw
  obtain ⟨fraction, rfl⟩ := fractionText_iff.mp hf
  obtain ⟨exponent, rfl, hscan⟩ := he.scan
  rcases hm with rfl | rfl
  · refine ⟨⟨false, whole, fraction, exponent⟩, _, ?_, rfl, he, hscan⟩
    rw [chars_eq]
    rfl
  · refine ⟨⟨true, whole, fraction, exponent⟩, _, ?_, rfl, he, hscan⟩
    rw [chars_eq]
    rfl

theorem NumberText.exists_exponent {n : Numeral} (h : NumberText t n.chars) :
    ∃ e, t = n.mantissaChars ++ e ∧ ExponentText e (n.exponent.elim [] Exponent.chars) ∧
      ∀ rest, Numeral.Ends rest → Numeral.scanExponent (e ++ rest) = .ok (n.exponent, rest) := by
  obtain ⟨m, e, hm, h⟩ := h.exists_numeral
  obtain rfl := Numeral.chars_injective hm
  exact ⟨e, h⟩

theorem NumberText.scan {n : Numeral} (h : NumberText t n.chars) (hr : Numeral.Ends rest) :
    Numeral.scan (t ++ rest) = .ok (n, rest) := by
  obtain ⟨e, rfl, he, hscan⟩ := h.exists_exponent
  rw [List.append_assoc]
  apply Numeral.scan_mantissaChars n (hscan rest hr)
  all_goals
    generalize n.exponent.elim [] Exponent.chars = kept at he
    rcases he with _ | ⟨rfl | rfl, -, d, ds⟩
  · exact hr.stops
  · rintro c ⟨⟩
    decide
  · rintro c ⟨⟩
    decide
  · exact fun c hc => (hr c hc).2.1
  · rintro c ⟨⟩
    decide
  · rintro c ⟨⟩
    decide

theorem eq_of_scanMinus {negative : Bool} (h : Numeral.scanMinus cs = (negative, rest)) :
    cs = (if negative then ['-'] else []) ++ rest := by
  unfold Numeral.scanMinus at h
  split at h <;> cases h <;> rfl

theorem eq_of_scanWhole {n : Nat} (h : Numeral.scanWhole cs = .ok (n, rest)) :
    cs = Digit.natChars n ++ rest := by
  unfold Numeral.scanWhole at h
  split at h
  · cases h
  · rename_i d r hd
    cases h
    rw [Digit.eq_of_span hd, Digit.natChars, Digit.ofNat_of_lt d.isLt]
  · rename_i d ds r _ hd
    split at h
    · cases h
    · rename_i hz
      cases h
      rw [Digit.eq_of_span hd, Digit.natChars, Digit.ofNat_value hz]

theorem eq_of_scanFraction {ds : List Digit} (h : Numeral.scanFraction cs = .ok (ds, rest)) :
    cs = (if ds.isEmpty then [] else '.' :: Digit.chars ds) ++ rest := by
  unfold Numeral.scanFraction at h
  split at h
  · split at h
    · cases h
    · rename_i ds' r hne hd
      cases h
      obtain ⟨d, es, rfl⟩ := List.exists_cons_of_ne_nil hne
      rw [Digit.eq_of_span hd]
      rfl
  · cases h
    rfl

theorem numberText_of_exponentText {n : Numeral}
    (he : ExponentText e (n.exponent.elim [] Exponent.chars)) :
    NumberText (n.mantissaChars ++ e) n.chars := by
  rw [chars_eq]
  refine .mk ?_ (wholeText_iff.mpr ⟨n.whole, rfl⟩) (fractionText_iff.mpr ⟨n.fraction, rfl⟩) he
  cases n.negative
  · exact .inl rfl
  · exact .inr rfl

theorem numberText_iff {n : Numeral} : NumberText t n.chars ↔
    ∃ e, t = n.mantissaChars ++ e ∧ ExponentText e (n.exponent.elim [] Exponent.chars) := by
  constructor
  · intro h
    obtain ⟨e, rfl, he, -⟩ := h.exists_exponent
    exact ⟨e, rfl, he⟩
  · rintro ⟨e, rfl, he⟩
    exact numberText_of_exponentText he

theorem exponentText_chars (x : Option Exponent) :
    ExponentText (x.elim [] Exponent.chars) (x.elim [] Exponent.chars) := by
  cases x with
  | none => exact .none
  | some x =>
    obtain ⟨negative, d, ds⟩ := x
    cases negative
    · exact .digits (.inl rfl) .plus d ds
    · exact .digits (.inl rfl) .minus d ds

theorem numberText_chars (n : Numeral) : NumberText n.chars n.chars :=
  numberText_iff.mpr ⟨_, chars_eq n, exponentText_chars n.exponent⟩

theorem numberText_of_scan {n : Numeral} (h : Numeral.scan cs = .ok (n, rest)) :
    ∃ t, cs = t ++ rest ∧ NumberText t n.chars := by
  unfold Numeral.scan at h
  obtain ⟨⟨negative, cs₁⟩, hm⟩ : ∃ p, Numeral.scanMinus cs = p := ⟨_, rfl⟩
  rw [hm] at h
  obtain ⟨⟨whole, cs₂⟩, hw, h⟩ := bind_eq_ok_iff.mp h
  obtain ⟨⟨fraction, cs₃⟩, hf, h⟩ := bind_eq_ok_iff.mp h
  obtain ⟨⟨exponent, cs₄⟩, hx, h⟩ := bind_eq_ok_iff.mp h
  cases h
  obtain ⟨e, rfl, he⟩ := exponentText_of_scan hx
  have hn := numberText_of_exponentText (n := ⟨negative, whole, fraction, exponent⟩) he
  refine ⟨_, ?_, hn⟩
  rw [eq_of_scanMinus hm, eq_of_scanWhole hw, eq_of_scanFraction hf, Numeral.mantissaChars]
  simp only [List.append_assoc]

/-! ## Integers -/

theorem IntegerText.mem {z : Int} (h : IntegerText t z) {c : Char} (hc : c ∈ t) :
    c = '-' ∨ ∃ d : Digit, c = d.char := by
  cases h with
  | digits ds =>
    obtain ⟨d, -, rfl⟩ := List.mem_map.mp hc
    exact .inr ⟨d, rfl⟩
  | minus ds =>
    rcases List.mem_cons.mp hc with rfl | hc
    · exact .inl rfl
    · obtain ⟨d, -, rfl⟩ := List.mem_map.mp hc
      exact .inr ⟨d, rfl⟩

theorem IntegerText.unique {z z' : Int} (h : IntegerText t z) (h' : IntegerText t z') :
    z = z' := by
  have apart : ∀ ds es : List Digit, Digit.chars ds ≠ '-' :: Digit.chars es := by
    rintro (_ | ⟨d, ds⟩) es he
    · cases he
    · exact Numeral.char_ne_minus d (List.cons.inj he).1
  generalize ht : t = t' at h'
  cases h <;> cases h'
  case digits.digits => rw [Digit.chars_injective ht]
  case digits.minus => exact (apart _ _ ht).elim
  case minus.digits => exact (apart _ _ ht.symm).elim
  case minus.minus => rw [Digit.chars_injective (List.cons.inj ht).2]

theorem ExponentText.exists_mark (h : ExponentText e kept) (hk : kept ≠ []) :
    ∃ c ∈ e, c = 'e' ∨ c = 'E' := by
  cases h with
  | none => exact (hk rfl).elim
  | digits hm => exact ⟨_, List.mem_cons_self, hm⟩

theorem isFractional_eq_false {n : Numeral} {z : Int} (h : NumberText t n.chars)
    (hz : IntegerText t z) : n.isFractional = false := by
  have hd : ∀ d : Digit, d.char ≠ '.' ∧ d.char ≠ 'e' ∧ d.char ≠ 'E' := by decide
  have mark : ∀ c ∈ t, c ≠ '.' ∧ c ≠ 'e' ∧ c ≠ 'E' := by
    intro c hc
    rcases hz.mem hc with rfl | ⟨d, rfl⟩
    · decide
    · exact hd d
  obtain ⟨e, rfl, he, -⟩ := h.exists_exponent
  have hf : n.fraction = [] := by
    by_contra hf
    refine (mark '.' ?_).1 rfl
    simp [Numeral.mantissaChars, hf]
  have hx : n.exponent = none := by
    by_contra hx
    obtain ⟨x, hx⟩ := Option.ne_none_iff_exists'.mp hx
    obtain ⟨c, hc, hce⟩ := he.exists_mark (by simp [hx, Exponent.chars])
    have hm := mark c (List.mem_append_right _ hc)
    exact hce.elim hm.2.1 hm.2.2
  simp [Numeral.isFractional, hf, hx]

theorem integerText_coefficient {n : Numeral} (h : NumberText t n.chars)
    (hn : n.isFractional = false) : IntegerText t n.coefficient := by
  obtain ⟨e, rfl, he, -⟩ := h.exists_exponent
  obtain ⟨negative, whole, fraction, exponent⟩ := n
  simp only [Numeral.isFractional, Bool.or_eq_false_iff, Bool.not_eq_false',
    List.isEmpty_iff, Option.isSome_eq_false_iff, Option.isNone_iff_eq_none] at hn
  obtain ⟨rfl, rfl⟩ := hn
  cases he
  have hmagnitude : (⟨negative, whole, [], none⟩ : Numeral).magnitude =
      Digit.value (Digit.ofNat whole) := by
    rw [Digit.value_ofNat]
    exact Nat.mul_one whole
  rw [Numeral.coefficient, hmagnitude, List.append_nil, Numeral.mantissaChars]
  simp only [List.isEmpty_nil, if_true, List.append_nil]
  cases negative
  · exact .digits (Digit.ofNat whole)
  · exact .minus (Digit.ofNat whole)

/-- The 64-bit integer of a number is the one that its digits stand for. -/
theorem toInt64?_eq_some_iff {n : Numeral} {i : Int64} (h : NumberText t n.chars) :
    n.toInt64? = some i ↔ IntegerText t i.toInt := by
  unfold Numeral.toInt64?
  constructor
  · intro hi
    split at hi
    · cases hi
    · rename_i hn
      rw [Int64.toInt_of_ofInt? hi]
      exact integerText_coefficient h (Bool.eq_false_iff.mpr hn)
  · intro hz
    have hn := isFractional_eq_false h hz
    rw [if_neg (Bool.eq_false_iff.mp hn), (integerText_coefficient h hn).unique hz]
    exact Int64.ofInt?_toInt i

end Grammar

end ShapeCodec
