import Mathlib
import ShapeCodec.Proofs.Conformance.Cases
import ShapeCodec.Proofs.Decoding.Cases
import ShapeCodec.Proofs.Gates
import ShapeCodec.Proofs.Value.Equivalence

/-! # Decoding is sound

What decodes under a shape is an instance of it, whatever the switches of the two calls. Defaults
are looked at by the classification, everything else by the decoder itself.
-/

namespace ShapeCodec

theorem Literal.fits_toValue (l : Literal) : l.fits l.toValue = true := Value.same_refl _

namespace Shape

theorem conforms_of_decodeJson {o o' : Settings} {s : Shape} {j : Json} {v : Value}
    (hs : checkable s = true) (h : decodeJson o s j = .ok v) : conforms o' s v = true := by
  induction s using inductionParts generalizing j v with
  | step s ih =>
  have ih : ∀ p ∈ s.parts, ∀ j v, decodeJson o p j = .ok v → conforms o' p v = true :=
    fun p hp j v => ih p hp (checkable_of_mem_parts hs hp)
  cases s with
  | any => exact (decodeJson_any_ne_ok h).elim
  | bool =>
    obtain ⟨b, -, rfl⟩ := decodeJson_bool_eq_ok_iff.mp h
    exact conforms_bool_iff.mpr ⟨b, rfl⟩
  | int =>
    obtain ⟨i, -, rfl⟩ := decodeJson_int_eq_ok_iff.mp h
    exact conforms_int_iff.mpr (.inl ⟨i, rfl⟩)
  | float =>
    obtain ⟨x, -, rfl⟩ := decodeJson_float_eq_ok_iff.mp h
    exact conforms_float_iff.mpr (.inr (.inl ⟨x, rfl⟩))
  | str =>
    obtain ⟨t, -, rfl⟩ := decodeJson_str_eq_ok_iff.mp h
    exact conforms_str_iff.mpr ⟨t, rfl⟩
  | none => exact conforms_none_iff.mpr (decodeJson_none_eq_ok_iff.mp h).2
  | ellipsis => exact conforms_ellipsis_iff.mpr (decodeJson_ellipsis_eq_ok_iff.mp h).2
  | decimal =>
    obtain ⟨d, -, rfl⟩ := decodeJson_decimal_eq_ok_iff.mp h
    exact conforms_decimal_iff.mpr ⟨d, rfl⟩
  | sequence k s =>
    obtain ⟨xs, vs, -, hv, rfl⟩ := decodeJson_sequence_eq_ok_iff.mp h
    refine conforms_sequence_iff.mpr ⟨_, rfl, fun w hw => ?_⟩
    obtain ⟨x, -, hx⟩ := hv.exists_of_mem_right (Value.mem_of_mem_items hw)
    exact ih s (by simp) x w hx
  | tuple ss =>
    obtain ⟨xs, vs, -, hl, hv, rfl⟩ := decodeJson_tuple_eq_ok_iff.mp h
    exact conforms_tuple_iff.mpr ⟨vs, rfl, hv.of_zip hl.symm fun s x w hm hx =>
      ih s (List.of_mem_zip hm).1 x w hx⟩
  | mapping k key value =>
    obtain ⟨es, ps, -, hp, -, rfl⟩ := decodeJson_mapping_eq_ok_iff.mp h
    have hk : k.takes k.built = true := by cases k <;> rfl
    refine conforms_mapping_iff.mpr ⟨_, ps, rfl, hk, fun p hm => ?_⟩
    obtain ⟨e, -, he, hx⟩ := hp.exists_of_mem_right hm
    obtain ⟨c, -, hc⟩ := exists_of_decodeKeyText he
    exact ⟨ih key (by simp) c _ hc, ih value (by simp) _ _ hx⟩
  | optional s =>
    rw [conforms_optional_iff]
    exact (decodeJson_optional_eq_ok_iff.mp h).imp (ih s (by simp) _ _) (·.2.2)
  | union ss =>
    obtain ⟨pre, s, post, rfl, -, hv⟩ := decodeJson_union_eq_ok_iff.mp h
    have hm : s ∈ pre ++ s :: post := by simp
    exact conforms_union_iff.mpr ⟨s, hm, ih s hm _ _ hv⟩
  | literal ls =>
    obtain ⟨l, hl, rfl⟩ := decodeJson_literal_eq_ok_iff.mp h
    exact conforms_literal_iff.mpr ⟨l, List.mem_of_find?_eq_some hl, l.fits_toValue⟩
  | record name fs =>
    obtain ⟨given, vs, hg, hv, rfl⟩ := decodeJson_record_eq_ok_iff.mp h
    refine conforms_record_iff.mpr ⟨name, vs, rfl, hv.of_zip hg.length.symm ?_⟩
    rintro f given w hz ⟨hn, hf⟩
    have hm : f ∈ fs := (List.of_mem_zip hz).1
    refine ⟨hn.symm, ?_⟩
    rcases hf with ⟨x, -, hx⟩ | ⟨-, hd⟩
    · exact ih _ (mem_parts_record hm) _ _ hx
    · -- a strict instance is one under all switches
      simp only [checkable, Bool.and_eq_true, checkableFields_iff] at hs
      exact conforms_mono (by simp [Settings.strict]) ((hs.2 _ hm).2 _ hd)
  | enum name ms =>
    obtain ⟨m, -, hm, rfl⟩ := decodeJson_enum_eq_ok_iff.mp h
    exact conforms_enum_iff.mpr ⟨m, rfl, hm⟩
  | typedDict name ks =>
    obtain ⟨es, vs, -, hr, hv, rfl⟩ := decodeJson_typedDict_eq_ok_iff.mp h
    refine conforms_typedDict_iff.mpr ⟨_, vs, rfl, fun w hm => ?_, fun k hk hq => ?_⟩
    · obtain ⟨e, -, hn, k, hk, hx⟩ := hv.exists_of_mem_right hm
      exact ⟨e.1, k, hn, hk, ih _ (mem_parts_typedDict (List.mem_of_find?_eq_some hk)) _ _ hx⟩
    · obtain ⟨e, he, hn⟩ := hr k hk hq
      obtain ⟨w, hw, hw', -⟩ := hv.exists_of_mem_left he
      refine List.any_eq_true.mpr ⟨w, hw, ?_⟩
      rw [hw', hn]
      exact Value.same_refl _

end Shape

/-- What decodes under a shape is an instance of it under all switches, strict ones included. -/
theorem isInstance_of_decode (o o' : Settings) (s : Shape) (j : Json) (v : Value)
    (h : decode o s j = .ok v) :
    ∃ verdict, isInstance o' s v = .ok verdict ∧ verdict.holds = true := by
  obtain ⟨hs, hd⟩ := decode_eq_ok_iff.mp h
  have hc := (Shape.satisfies_encodable_iff.mp hs).1
  exact ⟨_, isInstance_of_checkable hc, Shape.conforms_of_decodeJson hc hd⟩

theorem isInstance_of_decode_record :
    decode Settings.standard
        (.record "Order" [⟨"id", .int, some (.int 3)⟩,
          ⟨"lines", .mapping .dict .int (.union [.decimal, .sequence .set .str]), none⟩])
        (.map [("lines", .map [("7", .list [.str "a", .str "a"]), ("8", .int 2)])]) =
      .ok (.record "Order" [("id", .int 3), ("lines", .map .dict
        [(.int 7, .sequence .set [.str "a"]), (.int 8, .decimal (.ofInt64 2))])]) ∧
    ∃ verdict, isInstance Settings.standard.strict
        (.record "Order" [⟨"id", .int, some (.int 3)⟩,
          ⟨"lines", .mapping .dict .int (.union [.decimal, .sequence .set .str]), none⟩])
        (.record "Order" [("id", .int 3), ("lines", .map .dict
          [(.int 7, .sequence .set [.str "a"]), (.int 8, .decimal (.ofInt64 2))])]) = .ok verdict ∧
      verdict.holds = true := by
  have h : decode Settings.standard
      (.record "Order" [⟨"id", .int, some (.int 3)⟩,
        ⟨"lines", .mapping .dict .int (.union [.decimal, .sequence .set .str]), none⟩])
      (.map [("lines", .map [("7", .list [.str "a", .str "a"]), ("8", .int 2)])]) =
    .ok (.record "Order" [("id", .int 3), ("lines", .map .dict
      [(.int 7, .sequence .set [.str "a"]), (.int 8, .decimal (.ofInt64 2))])]) := by cbv
  exact ⟨h, isInstance_of_decode _ _ _ _ _ h⟩

end ShapeCodec
