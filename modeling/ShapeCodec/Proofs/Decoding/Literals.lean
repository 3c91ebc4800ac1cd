import Mathlib
import ShapeCodec.Proofs.Decoding.Integers
import ShapeCodec.Proofs.Number.Nearest

/-! # What decodes as a literal

Nothing decodes as a literal of another kind, and for all kinds but floats nothing but the literal
itself does. A number is rounded before it is compared with a float, so that every number that has
the float nearest to it is taken for the literal, and the number that the float stands for among
them.
-/

namespace ShapeCodec

/-- A JSON value is of the kind of a literal and equal to it, where a number and a float are
compared as `compare` says of the number that is written. -/
inductive Literal.Meets (compare : Binary64 → ℚ → Prop) : Literal → Json → Prop
  | none : Meets compare .none .null
  | bool (b : Bool) : Meets compare (.bool b) (.bool b)
  | int (i : Int64) : Meets compare (.int i) (.int i)
  | str (s : String) : Meets compare (.str s) (.str s)
  | float {x : Binary64} {n : Numeral} {q : ℚ} :
    (Json.number n).Denotes q → compare x q → Meets compare (.float x) (.number n)

namespace Binary64

variable {x y : Binary64} {q : ℚ}

theorem Denotes.of_same (hx : x.Denotes q) (h : x.same y = true) : y.Denotes q := by
  obtain ⟨s, units, hr⟩ := hx
  cases y with
  | finite t other hr' =>
    simp only [same, Bool.and_eq_true, Bool.or_eq_true, beq_iff_eq] at h
    obtain ⟨rfl, rfl | rfl⟩ := h
    · exact .finite s units hr
    · have hzero : ∀ s, signed s (((0 : Nat) : ℚ) / (twoTo 1074 : Nat)) = 0 := fun s => by
        rw [Nat.cast_zero, zero_div, signed_zero]
      rw [hzero s, ← hzero t]
      exact .finite t 0 hr'
  | _ => cases h

theorem Nearest.of_same (hx : x.Nearest q) (h : x.same y = true) : y.Nearest q := by
  obtain ⟨r, hr, hn⟩ := hx
  exact ⟨r, hr.of_same h, hn⟩

end Binary64

namespace Literal

variable {l : Literal} {j : Json}

theorem meets_of_accepts (h : l.accepts j = true) : l.Meets Binary64.Nearest j := by
  unfold accepts at h
  split at h
  · exact .none
  · exact beq_iff_eq.mp h ▸ .bool _
  · exact beq_iff_eq.mp h ▸ .int _
  · rename_i a n
    obtain ⟨x, hx, ha⟩ := (Option.any_eq_true _ _).mp h
    exact .float (Json.denotes_number_iff.mpr rfl)
      ((Numeral.nearest_of_toBinary64? hx).of_same ha)
  · exact beq_iff_eq.mp h ▸ .str _
  · cases h

theorem accepts_of_meets (h : l.Meets Binary64.Denotes j) : l.accepts j = true := by
  cases h with
  | none => rfl
  | bool b => exact beq_self_eq_true b
  | int i => exact beq_self_eq_true i
  | str s => exact beq_self_eq_true s
  | float hq hx =>
    obtain rfl := Json.denotes_number_iff.mp hq
    obtain ⟨y, hy, hs⟩ := Numeral.exists_toBinary64?_of_denotes hx
    exact (Option.any_eq_true _ _).mpr ⟨y, hy, hs⟩

theorem Meets.exact {l' : Literal} (h : l.Meets Binary64.Nearest j)
    (h' : l'.Meets Binary64.Denotes j) : l.Meets Binary64.Denotes j := by
  cases h with
  | none => exact .none
  | bool b => exact .bool b
  | int i => exact .int i
  | str s => exact .str s
  | float hq hx =>
    cases h' with
    | float hq' hx' =>
      obtain rfl := (Json.denotes_number_iff.mp hq).trans (Json.denotes_number_iff.mp hq').symm
      exact .float hq (hx.denotes hx')

end Literal

/-- What decodes as a literal is of its kind and equal to it, except that a number is only known to
have no float nearer than that of the literal. What equals one of the literals decodes, and as a
literal that it equals. -/
theorem decode_literal_up_to_rounding (o : Settings) (ls : List Literal) (j : Json) :
    (∀ v, decode o (.literal ls) j = .ok v →
      ∃ l ∈ ls, v = l.toValue ∧ l.Meets Binary64.Nearest j) ∧
    ((Shape.literal ls).satisfies .encodable = true →
      (∃ l ∈ ls, l.Meets Binary64.Denotes j) →
        ∃ l ∈ ls, decode o (.literal ls) j = .ok l.toValue ∧ l.Meets Binary64.Denotes j) := by
  constructor
  · intro v hv
    obtain ⟨l, hl, rfl⟩ := Shape.decodeJson_literal_eq_ok_iff.mp (decode_eq_ok_iff.mp hv).2
    have ha : l.accepts j = true := List.find?_some (p := (Literal.accepts · j)) hl
    exact ⟨l, List.mem_of_find?_eq_some hl, rfl, Literal.meets_of_accepts ha⟩
  · rintro hs ⟨l', hl', hm⟩
    obtain ⟨l, hl⟩ : ∃ l, ls.find? (·.accepts j) = some l := Option.isSome_iff_exists.mp
      (List.find?_isSome.mpr ⟨l', hl', Literal.accepts_of_meets hm⟩)
    have ha : l.accepts j = true := List.find?_some (p := (Literal.accepts · j)) hl
    exact ⟨l, List.mem_of_find?_eq_some hl,
      decode_eq_ok_iff.mpr ⟨hs, Shape.decodeJson_literal_eq_ok_iff.mpr ⟨l, hl, rfl⟩⟩,
      (Literal.meets_of_accepts ha).exact hm⟩

def fiveHalves : Binary64 := .finite false (5 * twoTo 1073) (by decide +kernel)

theorem denotes_fiveHalves : fiveHalves.Denotes (5 / 2) := by
  have hq : Binary64.signed false (((5 * twoTo 1073 : Nat) : ℚ) / (twoTo 1074 : Nat)) = 5 / 2 := by
    have hpos : ((twoTo 1073 : Nat) : ℚ) ≠ 0 := Nat.cast_ne_zero.mpr (twoTo_pos 1073).ne'
    rw [twoTo_add 1073 1, Nat.cast_mul, Nat.cast_mul]
    generalize ((twoTo 1073 : Nat) : ℚ) = half at *
    simp only [Binary64.signed]
    field_simp
    norm_num
  exact hq ▸ .finite false (5 * twoTo 1073) (by decide +kernel)

theorem decode_literal_up_to_rounding_five_halves :
    let ls : List Literal := [.int 2, .float fiveHalves]
    let plain : Numeral := ⟨false, 2, [5], none⟩
    let above : Numeral := ⟨false, 2, [5] ++ List.replicate 18 0 ++ [1], none⟩
    (∃ l ∈ ls, Value.float fiveHalves = l.toValue ∧ l.Meets Binary64.Nearest (.number above)) ∧
      ∃ l ∈ ls, decode .standard (.literal ls) (.number plain) = .ok l.toValue ∧
        l.Meets Binary64.Denotes (.number plain) := by
  intro ls plain above
  have hs : (Shape.literal ls).satisfies .encodable = true := by decide
  have ha : (Literal.float fiveHalves).accepts (.number above) = true := by decide +kernel
  have hv : decode .standard (.literal ls) (.number above) = .ok (.float fiveHalves) :=
    decode_eq_ok_iff.mpr ⟨hs, Shape.decodeJson_literal_eq_ok_iff.mpr
      ⟨_, (List.find?_cons_of_neg Bool.false_ne_true).trans (List.find?_cons_of_pos ha), rfl⟩⟩
  have hc : plain.coefficient = 25 := by decide
  have hp : plain.power = -1 := by decide
  have hq : plain.written.toRat = 5 / 2 := by
    rw [Numeral.toRat_written, hc, hp]
    norm_num
  have hm : (Literal.float fiveHalves).Meets Binary64.Denotes (.number plain) :=
    .float (Json.denotes_number_iff.mpr hq.symm) denotes_fiveHalves
  exact ⟨(decode_literal_up_to_rounding _ _ _).1 _ hv,
    (decode_literal_up_to_rounding _ _ _).2 hs ⟨_, by simp [ls], hm⟩⟩

/-- A number that is not quite two and a half decodes as a literal that is. -/
theorem decode_literal_of_another_number :
    let other : Numeral := ⟨false, 2, [5] ++ List.replicate 18 0 ++ [1], none⟩
    decode .standard (.literal [.float fiveHalves]) (.number other) = .ok (.float fiveHalves) ∧
      fiveHalves.Denotes (5 / 2) ∧ ¬ (Json.number other).Denotes (5 / 2) := by
  intro other
  have ha : (Literal.float fiveHalves).accepts (.number other) = true := by decide +kernel
  refine ⟨decode_eq_ok_iff.mpr ⟨by decide, Shape.decodeJson_literal_eq_ok_iff.mpr
    ⟨_, List.find?_cons_of_pos ha, rfl⟩⟩, denotes_fiveHalves, fun h => ?_⟩
  have hc : other.coefficient = 250000000000000000001 := by decide
  have hp : other.power = -20 := by decide
  have hq := Json.denotes_number_iff.mp h
  rw [Numeral.toRat_written, hc, hp] at hq
  norm_num at hq

end ShapeCodec
