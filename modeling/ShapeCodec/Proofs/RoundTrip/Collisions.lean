import Mathlib
import ShapeCodec.Proofs.Decoding.Soundness
import ShapeCodec.Proofs.RoundTrip.Depth
import ShapeCodec.Proofs.RoundTrip.Descent

/-! # Keys that come back as one

The encoder tells the keys of a map apart by their texts, the decoder by the keys that the texts
stand for. With decimal casting nothing but two keys that come back as one keeps an encoding from
being decoded. An integer and the float nearest to it are such keys: their texts differ, but as
float keys both stand for that float.
-/

namespace ShapeCodec

namespace Shape

variable {o : Settings} {s t key value : Shape} {v w : Value}

theorem ComesBack.keysApart {kind : MappingKind} {l : MapKind} {es : List (Value × Value)}
    (h : ComesBack o (mapping kind key value) (.map l es)) :
    es.Pairwise fun a b => ∀ x y, KeyBecomes o key a.1 x → KeyBecomes o key b.1 y →
      y.same x = false := by
  obtain ⟨c, p, w, he, hd⟩ := h
  obtain ⟨_, _, ps, ⟨⟩, rfl, hp, -⟩ := encodeValue_mapping_eq_ok_iff.mp he
  rw [Passage.apply_map] at hd
  obtain ⟨_, qs, ⟨⟩, hq, hdistinct, -⟩ := decodeJson_mapping_eq_ok_iff.mp hd
  rw [List.forall₂_map_left_iff] at hq
  have hps : ps.Pairwise fun a b => ∀ x y, decodeKeyText key (decodeJson o key) a.1 = .ok x →
      decodeKeyText key (decodeJson o key) b.1 = .ok y → y.same x = false := by
    refine hq.pairwise hdistinct fun a b c d hac hbd hcd x y hx hy => ?_
    obtain rfl := Except.ok.inj (hx.symm.trans hac.1)
    obtain rfl := Except.ok.inj (hy.symm.trans hbd.1)
    exact hcd
  refine hp.pairwise hps ?_
  rintro a b c d hac hbd hcd x y ⟨t, ht, hx⟩ ⟨u, hu, hy⟩
  obtain rfl := Except.ok.inj (ht.symm.trans hac.1)
  obtain rfl := Except.ok.inj (hu.symm.trans hbd.1)
  exact hcd x y hx hy

/-! ## Integers and floats -/

/-- The texts of an integer and of the float nearest to it, as float keys: they differ, and that
float comes back from both. -/
theorem exists_texts_of_int (ho : o.castDecimal = true) (i : Int64) :
    ∃ t u, keyTextOf o float (.int i) = .ok t ∧
      keyTextOf o float (.float (.ofInt i.toInt)) = .ok u ∧ t ≠ u ∧
      KeyBecomes o float (.int i) (.float (.ofInt i.toInt)) ∧
      KeyBecomes o float (.float (.ofInt i.toInt)) (.float (.ofInt i.toInt)) := by
  obtain ⟨n, hn⟩ := exists_toNumeral? (Binary64.isFinite_ofInt i)
  obtain ⟨hf, hb⟩ := Binary64.toBinary64?_of_toNumeral? hn
  have htext : ∀ {x j}, encodeValue o float x = .ok j → j.scalarText?.isSome = true →
      (∀ t, j ≠ .str t) → keyTextOf o float x = .ok j.write := by
    intro x j hx hs hstr
    refine bind_eq_ok_iff.mpr ⟨j, hx, ?_⟩
    rw [keyText, show float.keyForm = .direct from rfl]
    simp only [(Json.scalarText?_eq_write hs hstr).1]
  have hi : keyTextOf o float (.int i) = .ok (Json.int i).write :=
    htext (by simp [encodeValue]) rfl (by simp)
  have hx : keyTextOf o float (.float (.ofInt i.toInt)) = .ok (Json.number n).write :=
    htext (by simp [encodeValue, encodeFloat, hn]) rfl (by simp)
  have hri : Json.read (Json.int i).write = .ok (.int i) := Json.read_write_of_scalarText? rfl
  have hrx : Json.read (Json.number n).write = .ok (.number n) := by
    rw [Json.read_write_of_scalarText? rfl]
    exact congrArg Except.ok (Passage.apply_fractional (p := .text) hf)
  refine ⟨_, _, hi, hx, fun he => ?_, ⟨_, hi, ?_⟩, ⟨_, hx, ?_⟩⟩
  · rw [he, hrx] at hri
    cases hri
  · exact decodeKeyText_of_read rfl (by simp) (by simp) hri rfl
      (decodeJson_float_eq_ok_iff.mpr ⟨_, rfl, rfl⟩)
  · exact decodeKeyText_of_read rfl (by simp) (by simp) hrx rfl
      (decodeJson_float_eq_ok_iff.mpr ⟨_, by simp [Json.toBinary64, ho, hb], rfl⟩)

end Shape

/-- A dict with float keys that holds an integer and the float nearest to it is encoded to a tree
that does not decode. -/
theorem exists_encode_not_decode {o : Settings} (ho : o.castDecimal = true) (i : Int64) :
    ∃ j, encode o (.mapping .dict .float .int)
        (.map .dict [(.int i, .int 0), (.float (.ofInt i.toInt), .int 0)]) = .ok j ∧
      ∀ w, decode o (.mapping .dict .float .int) j ≠ .ok w := by
  obtain ⟨t, u, ht, hu, hne, hi, hx⟩ := Shape.exists_texts_of_int ho i
  have hint : (Shape.int).encodeValue o (.int 0) = .ok (.int 0) := by simp [Shape.encodeValue]
  have hj : (Shape.mapping .dict .float .int).encodeValue o
      (.map .dict [(.int i, .int 0), (.float (.ofInt i.toInt), .int 0)]) =
        .ok (.map [(t, .int 0), (u, .int 0)]) :=
    Shape.encodeValue_mapping_eq_ok_iff.mpr ⟨_, _, _, rfl, rfl,
      .cons ⟨ht, hint⟩ (.cons ⟨hu, hint⟩ .nil), List.pairwise_pair.mpr hne⟩
  refine ⟨_, encode_eq_ok_iff.mpr ⟨rfl, rfl, hj⟩, fun w hw => ?_⟩
  have hback : Shape.ComesBack o (.mapping .dict .float .int)
      (.map .dict [(.int i, .int 0), (.float (.ofInt i.toInt), .int 0)]) :=
    ⟨_, .memory, w, hj, (decode_eq_ok_iff.mp hw).2⟩
  have hapart := List.pairwise_pair.mp hback.keysApart _ _ hi hx
  rw [Value.same_refl] at hapart
  cases hapart

/-- What is encoded with decimal casting decodes to an instance when its keys come back apart, and
without unions only then. -/
theorem exists_decode_of_keysApart (o : Settings) (s : Shape) (v : Value) (j : Json)
    (ho : o.castDecimal = true) (h : encode o s v = .ok j) (hk : s.KeysReadable o v) :
    (s.KeysApart o v → ∃ w, decode o s j = .ok w ∧
      ∃ verdict, isInstance o s w = .ok verdict ∧ verdict.holds = true) ∧
    (s.Unionless → (∃ w, decode o s j = .ok w) → s.KeysApart o v) := by
  obtain ⟨hs, hv, hj⟩ := encode_eq_ok_iff.mp h
  have hc := (Shape.satisfies_encodable_iff.mp hs).1
  constructor
  · intro ha
    obtain ⟨w, hw⟩ := Shape.decodes_encodeValue ho hc hv hk ha hj .memory trivial
    exact ⟨w, decode_eq_ok_iff.mpr ⟨hs, hw⟩, _, isInstance_of_checkable hc,
      Shape.conforms_of_decodeJson hc hw⟩
  · rintro hu ⟨w, hw⟩ kind key value l es hm
    exact (hm.comesBack hu hc hv hk ⟨j, .memory, w, hj, (decode_eq_ok_iff.mp hw).2⟩).keysApart

theorem Shape.keysReadable_float_int {o : Settings} {l : MapKind} {es : List (Value × Value)} :
    (Shape.mapping .dict .float .int).KeysReadable o (.map l es) :=
  keysAll_mapping (mapless_of_parts_eq_nil rfl rfl) (mapless_of_parts_eq_nil rfl rfl) nofun

theorem exists_decode_of_keysApart_decimal :
    ∃ j w, encode .standard (.mapping .dict .float .int)
        (.map .dict [(.decimal (.ofInt64 7), .int 0)]) = .ok j ∧
      decode .standard (.mapping .dict .float .int) j = .ok w ∧
      ∃ verdict, isInstance .standard (.mapping .dict .float .int) w = .ok verdict ∧
        verdict.holds = true := by
  have h : encode .standard (.mapping .dict .float .int)
      (.map .dict [(.decimal (.ofInt64 7), .int 0)]) = .ok (.map [("7", .int 0)]) := by
    have hkey : Shape.encodeValue .standard .float (.decimal (.ofInt64 7)) =
        .ok (.number (.ofInt 7)) := by
      rw [Shape.encodeValue, Decimal.toNumeral_ofInt64]
      rfl
    have htext : Shape.keyTextOf .standard .float (.decimal (.ofInt64 7)) = .ok "7" :=
      bind_eq_ok_iff.mpr ⟨_, hkey, by cbv⟩
    refine encode_eq_ok_iff.mpr ⟨rfl, by cbv, Shape.encodeValue_mapping_eq_ok_iff.mpr ?_⟩
    exact ⟨_, _, _, rfl, rfl, .cons ⟨htext, by simp [Shape.encodeValue]⟩ .nil,
      List.pairwise_singleton _ _⟩
  have hk := exists_decode_of_keysApart _ _ _ _ rfl h Shape.keysReadable_float_int
  have ha : (Shape.mapping .dict .float .int).KeysApart .standard
      (.map .dict [(.decimal (.ofInt64 7), .int 0)]) := by
    intro kind key value l es hm
    cases hm with
    | here => exact List.pairwise_singleton _ _
    | step hst hm =>
      cases hst with
      | branch hb => cases hb
      | _ => cases (hm.eq_of_parts_eq_nil rfl rfl).1
  obtain ⟨w, hw, hi⟩ := hk.1 ha
  exact ⟨_, w, h, hw, hi⟩

/-- Two different keys of a dict, an integer and a float, with different texts: the encoding does
not decode, although nothing is nested. -/
theorem not_decode_one_twice :
    (Value.map .dict [(.int 1, .int 0), (.float (.ofInt 1), .int 0)]).WellFormed ∧
    (Shape.mapping .dict .float .int).KeysReadable .standard
      (.map .dict [(.int 1, .int 0), (.float (.ofInt 1), .int 0)]) ∧
    ∃ j, encode .standard (.mapping .dict .float .int)
        (.map .dict [(.int 1, .int 0), (.float (.ofInt 1), .int 0)]) = .ok j ∧
      ∀ w, decode .standard (.mapping .dict .float .int) j ≠ .ok w := by
  refine ⟨?_, Shape.keysReadable_float_int, exists_encode_not_decode rfl 1⟩
  have hi : ∀ i, (Value.int i).WellFormed := fun _ => Value.wellFormed_of_parts_eq_nil rfl
  have hx : ∀ x, (Value.float x).WellFormed := fun _ => Value.wellFormed_of_parts_eq_nil rfl
  simp [Value.same, hi, hx]

end ShapeCodec
