import ShapeCodec.Proofs.Decoding.WellFormed
import ShapeCodec.Proofs.Encoding.Failure
import ShapeCodec.Proofs.Json.Writing
import ShapeCodec.Proofs.Number.Shortest
import ShapeCodec.Proofs.RoundTrip.Exact

/-! # There and back

An encoding comes back as it is or through its text. A value makes the round trip when its encoding
decodes on both ways to the same value, which is encoded alike. For scalars this is what is known of
numerals.
-/

namespace ShapeCodec

/-- The way on which an encoding comes back. -/
inductive Passage
  | memory
  | text
deriving DecidableEq

namespace Passage

def apply : Passage → Json → Json
  | memory, j => j
  | text, j => j.withIntegers

def Fits : Passage → Json → Prop
  | memory, _ => True
  | text, j => j.Readable

variable {p : Passage}

@[simp] theorem apply_list (xs : List Json) : p.apply (.list xs) = .list (xs.map p.apply) := by
  cases p
  · exact congrArg Json.list (List.map_id' xs).symm
  · exact Json.withIntegers_list xs

@[simp] theorem apply_map (es : List (String × Json)) :
    p.apply (.map es) = .map (es.map fun e => (e.1, p.apply e.2)) := by
  cases p
  · exact congrArg Json.map (List.map_id' es).symm
  · exact Json.withIntegers_map es

theorem Fits.item {xs : List Json} (h : p.Fits (.list xs)) {x : Json} (hx : x ∈ xs) :
    p.Fits x := by
  cases p
  · trivial
  · exact Json.Readable.part h hx

theorem Fits.entry {es : List (String × Json)} (h : p.Fits (.map es)) {e : String × Json}
    (he : e ∈ es) : p.Fits e.2 := by
  cases p
  · trivial
  · exact Json.Readable.part h (Json.mem_parts_map he)

theorem apply_number (n : Numeral) : p.apply (.number n) = .number n ∨
    ∃ i, n.toInt64? = some i ∧ p.apply (.number n) = .int i := by
  cases p
  · exact .inl rfl
  · simp only [apply, Json.withIntegers, Json.ofNumeral]
    cases hn : n.toInt64? with
    | none => exact .inl rfl
    | some i => exact .inr ⟨i, rfl, rfl⟩

theorem apply_fractional {n : Numeral} (h : n.isFractional = true) :
    p.apply (.number n) = .number n := by
  rcases p.apply_number n with hp | ⟨i, hi, _⟩
  · exact hp
  · rw [Numeral.toInt64?, if_pos h] at hi
    cases hi

end Passage

namespace Shape

variable {o : Settings} {s : Shape} {v w : Value} {j c : Json}

/-- A value that a tree decodes to is as good as the one that was encoded. -/
structure Returns (o : Settings) (s : Shape) (v : Value) (c j : Json) (w : Value) : Prop where
  decode : decodeJson o s j = .ok w
  same : w.same v = true
  exact : s.Exact w
  wellFormed : w.WellFormed
  encode : encodeValue o s w = .ok c

/-- A value is encoded, and comes back from its encoding on all ways that this can go. -/
def RoundTrips (o : Settings) (s : Shape) (v : Value) : Prop :=
  ∃ c, encodeValue o s v = .ok c ∧ c.UniqueKeys ∧
    ∀ p : Passage, p.Fits c → ∃ w, Returns o s v c (p.apply c) w

theorem RoundTrips.returns {p : Passage} (h : RoundTrips o s v) (hc : encodeValue o s v = .ok c)
    (hp : p.Fits c) : ∃ w, Returns o s v c (p.apply c) w := by
  obtain ⟨d, hd, -, hr⟩ := h
  obtain rfl := Except.ok.inj (hc.symm.trans hd)
  exact hr p hp

theorem roundTrips_of_scalar (he : encodeValue o s v = .ok c) (hc : c.parts = [])
    (hd : ∀ p : Passage, decodeJson o s (p.apply c) = .ok v) (hx : s.Exact v)
    (hv : v.parts = []) : RoundTrips o s v :=
  ⟨c, he, Json.uniqueKeys_of_parts_eq_nil hc, fun p _ => ⟨v, hd p, Value.same_refl v, hx,
    Value.wellFormed_of_parts_eq_nil hv, he⟩⟩

attribute [local simp] encodeValue

theorem roundTrips_bool (b : Bool) : RoundTrips o bool (.bool b) := by
  refine roundTrips_of_scalar (c := .bool b) (by simp) rfl (fun p => ?_) (.bool b) rfl
  cases p <;> exact decodeJson_bool_eq_ok_iff.mpr ⟨b, rfl, rfl⟩

theorem roundTrips_int (i : Int64) : RoundTrips o int (.int i) := by
  refine roundTrips_of_scalar (c := .int i) (by simp) rfl (fun p => ?_) (.int i) rfl
  cases p <;> exact decodeJson_int_eq_ok_iff.mpr ⟨i, rfl, rfl⟩

theorem roundTrips_str (t : String) : RoundTrips o str (.str t) := by
  refine roundTrips_of_scalar (c := .str t) (by simp) rfl (fun p => ?_) (.str t) rfl
  cases p <;> exact decodeJson_str_eq_ok_iff.mpr ⟨t, rfl, rfl⟩

theorem roundTrips_none : RoundTrips o none .none := by
  refine roundTrips_of_scalar (c := .null) (by simp) rfl (fun p => ?_) .none rfl
  cases p <;> exact decodeJson_none_eq_ok_iff.mpr ⟨rfl, rfl⟩

theorem roundTrips_ellipsis : RoundTrips o ellipsis .ellipsis := by
  refine roundTrips_of_scalar (c := .null) (by simp) rfl (fun p => ?_) .ellipsis rfl
  cases p <;> exact decodeJson_ellipsis_eq_ok_iff.mpr ⟨rfl, rfl⟩

theorem roundTrips_enum {name m : String} {ms : List EnumMember}
    (hm : ms.any (·.name == m) = true) : RoundTrips o (enum name ms) (.member name m) := by
  refine roundTrips_of_scalar (c := .str m) (by simp) rfl (fun p => ?_) (.enum hm) rfl
  cases p <;> exact decodeJson_enum_eq_ok_iff.mpr ⟨m, rfl, hm, rfl⟩

theorem exists_toNumeral? {x : Binary64} (hx : x.isFinite = true) :
    ∃ n, x.toNumeral? = some n := by
  cases hn : x.toNumeral? with
  | some n => exact ⟨n, rfl⟩
  | none =>
    rw [toNumeral?_eq_none_iff.mp hn] at hx
    cases hx

theorem exists_of_encodeFloat {x : Binary64} (h : encodeFloat x = .ok c) :
    ∃ n, c = .number n ∧ n.isFractional = true ∧ n.toBinary64? = some x := by
  unfold encodeFloat at h
  split at h <;> cases h
  rename_i n hn
  exact ⟨n, rfl, Binary64.toBinary64?_of_toNumeral? hn⟩

theorem roundTrips_float (ho : o.castDecimal = true) {x : Binary64} (hx : x.isFinite = true) :
    RoundTrips o float (.float x) := by
  obtain ⟨n, hn⟩ := exists_toNumeral? hx
  obtain ⟨hf, hb⟩ := Binary64.toBinary64?_of_toNumeral? hn
  refine roundTrips_of_scalar (c := .number n) (by simp [encodeFloat, hn]) rfl (fun p => ?_)
    (.float hx) rfl
  rw [Passage.apply_fractional hf]
  exact decodeJson_float_eq_ok_iff.mpr ⟨x, by simp [Json.toBinary64, ho, hb], rfl⟩

theorem toDecimal_of_encodeValue {d : Decimal} (h : encodeValue o decimal (.decimal d) = .ok c)
    (p : Passage) : (p.apply c).toDecimal = .ok d := by
  rw [encodeValue] at h
  obtain rfl := Except.ok.inj h
  split
  · rcases p.apply_number d.toNumeral with hp | ⟨i, hi, hp⟩
    · rw [hp, Json.toDecimal, Decimal.ofNumeral?_toNumeral]
    · rw [hp, Json.toDecimal, Decimal.ofInt64_of_toInt64? hi]
  · have hp : p.apply (.str d.text) = .str d.text := by cases p <;> rfl
    rw [hp, Json.toDecimal, Decimal.text, Numeral.text, String.toList_ofList,
      Numeral.ofChars?_chars]
    simp [Decimal.ofNumeral?_toNumeral]

theorem roundTrips_decimal (d : Decimal) : RoundTrips o decimal (.decimal d) := by
  have he : encodeValue o decimal (.decimal d) =
      .ok (if o.decimalsAsNumbers then .number d.toNumeral else .str d.text) := by simp
  exact roundTrips_of_scalar he (by split <;> rfl)
    (fun p => decodeJson_decimal_eq_ok_iff.mpr ⟨d, toDecimal_of_encodeValue he p, rfl⟩)
    (.decimal d) rfl

end Shape

end ShapeCodec
