import Mathlib
import ShapeCodec.Proofs.Number.Grammar

/-! # The number that a text is written for

A number is taken apart into its sign, its digits before and behind the point, and its exponent.
What it stands for is said of these parts, whatever is kept of the text when it is read.
-/

namespace ShapeCodec

namespace Grammar

/-- The exponent part of a number, which may be left out, and the power of ten it stands for. -/
inductive ExponentValue : List Char → Int → Prop
  | none : ExponentValue [] 0
  | digits {mark : Char} (hm : mark = 'e' ∨ mark = 'E') (d : Digit) (ds : List Digit) :
    ExponentValue (mark :: Digit.chars (d :: ds)) (Digit.value (d :: ds))
  | plus {mark : Char} (hm : mark = 'e' ∨ mark = 'E') (d : Digit) (ds : List Digit) :
    ExponentValue (mark :: '+' :: Digit.chars (d :: ds)) (Digit.value (d :: ds))
  | minus {mark : Char} (hm : mark = 'e' ∨ mark = 'E') (d : Digit) (ds : List Digit) :
    ExponentValue (mark :: '-' :: Digit.chars (d :: ds)) (-Digit.value (d :: ds))

structure Written where
  negative : Bool
  whole : List Digit
  fraction : List Digit
  exponent : Int

namespace Written

/-- The text is written for the number: a sign, digits without a needless zero, and where there are
any, a point with the digits behind it and an exponent. -/
def SpelledBy (w : Written) (t : List Char) : Prop :=
  WholeText (Digit.chars w.whole) ∧ ∃ e, ExponentValue e w.exponent ∧
    t = (if w.negative then ['-'] else []) ++ Digit.chars w.whole ++
      (if w.fraction.isEmpty then [] else '.' :: Digit.chars w.fraction) ++ e

def digits (w : Written) : Nat := Digit.value (w.whole ++ w.fraction)

/-- How many digits stand behind the point once the exponent has moved it. -/
def places (w : Written) : Int := w.fraction.length - w.exponent

def toRat (w : Written) : ℚ := (if w.negative then -(w.digits : ℚ) else w.digits) / 10 ^ w.places

end Written

end Grammar

open Grammar

def Numeral.written (n : Numeral) : Written :=
  ⟨n.negative, Digit.ofNat n.whole, n.fraction, n.exponent.elim 0 Exponent.value⟩

namespace Numeral

theorem digits_written (n : Numeral) : n.written.digits = n.magnitude := by
  rw [Written.digits, written, Digit.value_append, Digit.value_ofNat, magnitude]

theorem places_written (n : Numeral) : n.written.places = -n.power := by
  unfold Written.places written power
  cases n.exponent <;> simp

theorem toRat_written (n : Numeral) : n.written.toRat = n.coefficient * 10 ^ n.power := by
  have hc : (if n.negative then -(n.magnitude : ℚ) else n.magnitude) = n.coefficient := by
    rw [coefficient]
    split <;> simp
  rw [Written.toRat, digits_written, places_written, zpow_neg, div_inv_eq_mul, ← hc]
  rfl

end Numeral

namespace Grammar

variable {t e : List Char} {w : Written} {n : Numeral}

theorem ExponentValue.exists_exponent {x : Int} (h : ExponentValue e x) :
    ∃ o : Option Exponent, ExponentText e (o.elim [] Exponent.chars) ∧
      o.elim 0 Exponent.value = x := by
  cases h with
  | none => exact ⟨.none, .none, rfl⟩
  | digits hm d ds => exact ⟨some ⟨false, d, ds⟩, .digits hm .none d ds, rfl⟩
  | plus hm d ds => exact ⟨some ⟨false, d, ds⟩, .digits hm .plus d ds, rfl⟩
  | minus hm d ds => exact ⟨some ⟨true, d, ds⟩, .digits hm .minus d ds, rfl⟩

theorem exponentValue_of_text {o : Option Exponent}
    (h : ExponentText e (o.elim [] Exponent.chars)) :
    ExponentValue e (o.elim 0 Exponent.value) := by
  generalize hk : o.elim [] Exponent.chars = kept at h
  cases h with
  | none =>
    cases o with
    | none => exact .none
    | some x => cases hk
  | digits hm hs d ds =>
    cases o with
    | none => cases hk
    | some x =>
      obtain ⟨negative, d', ds'⟩ := x
      obtain ⟨hsign, hds⟩ := List.cons.inj (List.cons.inj hk).2
      obtain ⟨rfl, rfl⟩ := List.cons.inj (Digit.chars_injective hds)
      cases negative <;> cases hs <;> cases hsign
      · exact .digits hm d' ds'
      · exact .plus hm d' ds'
      · exact .minus hm d' ds'

theorem digits_ofNat_value {ds : List Digit} (h : WholeText (Digit.chars ds)) :
    Digit.ofNat (Digit.value ds) = ds := by
  obtain ⟨n, hn⟩ := wholeText_iff.mp h
  rw [Digit.chars_injective hn, Digit.value_ofNat]

/-- Every number of the grammar can be taken apart. -/
theorem NumberText.spelledBy (h : NumberText t n.chars) : n.written.SpelledBy t := by
  obtain ⟨e, rfl, he, -⟩ := h.exists_exponent
  exact ⟨wholeText_iff.mpr ⟨n.whole, rfl⟩, e, exponentValue_of_text he, rfl⟩

theorem Written.SpelledBy.exists_numeral (h : w.SpelledBy t) :
    ∃ n : Numeral, NumberText t n.chars ∧ n.written = w := by
  obtain ⟨hw, e, he, rfl⟩ := h
  obtain ⟨negative, whole, fraction, exponent⟩ := w
  obtain ⟨o, ho, rfl⟩ := he.exists_exponent
  have hds : Digit.ofNat (Digit.value whole) = whole := digits_ofNat_value hw
  refine ⟨⟨negative, Digit.value whole, fraction, o⟩, ?_, ?_⟩
  · have h := numberText_of_exponentText (n := ⟨negative, Digit.value whole, fraction, o⟩) ho
    rwa [Numeral.mantissaChars, Digit.natChars, hds] at h
  · rw [Numeral.written, hds]

theorem NumberText.ofChars? (h : NumberText t n.chars) : Numeral.ofChars? t = some n := by
  have hs : Numeral.scan (t ++ []) = .ok (n, []) := h.scan nofun
  rw [List.append_nil] at hs
  rw [Numeral.ofChars?, hs]

theorem Written.SpelledBy.eq_written (h : w.SpelledBy t) (hn : NumberText t n.chars) :
    w = n.written := by
  obtain ⟨m, hm, rfl⟩ := h.exists_numeral
  have he := hm.ofChars?
  rw [hn.ofChars?] at he
  rw [Option.some.inj he]

end Grammar

end ShapeCodec
