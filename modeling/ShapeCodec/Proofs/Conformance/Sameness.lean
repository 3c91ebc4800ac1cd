import ShapeCodec.Proofs.Conformance.Cases
import ShapeCodec.Proofs.Decoding.Integers
import ShapeCodec.Proofs.Decoding.WellFormed

/-! # Values that are the same conform alike

Sameness passes over the order of sets and maps, the scale of decimals and the sign of zero. A shape
asks for none of these: what it asks of one value it finds in every value that is the same.
-/

namespace ShapeCodec

theorem Decimal.same_iff_toRat_eq {a b : Decimal} : a.same b = true ↔ a.toRat = b.toRat := by
  have hpos : ∀ n, (10 : ℚ) ^ n ≠ 0 := fun n => pow_ne_zero n (by norm_num)
  have hten : ∀ n, (tenTo n : ℚ) = 10 ^ n := fun n => Nat.cast_pow 10 n
  rw [same, beq_iff_eq, toRat, toRat, div_eq_div_iff (hpos _) (hpos _), ← hten, ← hten]
  norm_cast

namespace Value

/-! ## The partners of parts -/

theorem exists_same_item {k : SequenceKind} {xs ys : List Value} (wx : (sequence k xs).WellFormed)
    (wy : (sequence k ys).WellFormed) (h : (sequence k xs).same (sequence k ys) = true) {y : Value}
    (hy : y ∈ ys) : ∃ x ∈ xs, x.same y = true := by
  cases hk : k.isSet with
  | true =>
    obtain ⟨_, ⟨⟩, hs⟩ := sequence_same_iff.mp (same_symm wx wy h)
    rw [if_pos hk] at hs
    obtain ⟨x, hx, hyx⟩ := hs.2 y hy
    exact ⟨x, hx, same_symm (wy.part hy) (wx.part hx) hyx⟩
  | false =>
    obtain ⟨_, ⟨⟩, hs⟩ := sequence_same_iff.mp h
    rw [hk, if_neg Bool.false_ne_true] at hs
    exact hs.exists_of_mem_right hy

theorem exists_same_entry {k : MapKind} {xs ys : List (Value × Value)}
    (wx : (map k xs).WellFormed) (wy : (map k ys).WellFormed)
    (h : (map k xs).same (map k ys) = true) {e : Value × Value} (he : e ∈ ys) :
    ∃ d ∈ xs, d.1.same e.1 = true ∧ d.2.same e.2 = true := by
  obtain ⟨_, ⟨⟩, -, hs⟩ := map_same_iff.mp (same_symm wx wy h)
  obtain ⟨d, hd, hk, hv⟩ := hs e he
  exact ⟨d, hd, same_symm (wy.key he) (wx.key hd) hk, same_symm (wy.value he) (wx.value hd) hv⟩

theorem hasKey_str_of_same {k : MapKind} {xs ys : List (Value × Value)} {name : String}
    (h : (map k xs).same (map k ys) = true) (hn : hasKey xs (str name) = true) :
    hasKey ys (str name) = true := by
  obtain ⟨_, ⟨⟩, -, hs⟩ := map_same_iff.mp h
  simp only [hasKey, List.any_eq_true, str_same_iff] at hn ⊢
  obtain ⟨d, hd, hn⟩ := hn
  obtain ⟨e, he, hk, -⟩ := hs d hd
  rw [hn, str_same_iff] at hk
  exact ⟨e, he, hk⟩

end Value

namespace Shape

variable {o : Settings} {a b : Value}

theorem conforms_of_same {s : Shape} (wa : a.WellFormed) (wb : b.WellFormed)
    (h : a.same b = true) (ha : conforms o s a = true) : conforms o s b = true := by
  induction s using inductionParts generalizing a b with
  | step s ih =>
  cases s with
  | any => rfl
  | bool =>
    obtain ⟨x, rfl⟩ := conforms_bool_iff.mp ha
    exact conforms_bool_iff.mpr ⟨x, Value.bool_same_iff.mp h⟩
  | int =>
    rcases conforms_int_iff.mp ha with ⟨i, rfl⟩ | ⟨d, i, rfl, ho, hd⟩
    · exact conforms_int_iff.mpr (.inl ⟨i, Value.int_same_iff.mp h⟩)
    · obtain ⟨e, rfl, hde⟩ := Value.decimal_same_iff.mp h
      rw [Decimal.isWhole_and_toInt64?_iff, Decimal.same_iff_toRat_eq.mp hde] at hd
      exact conforms_int_iff.mpr (.inr ⟨e, i, rfl, ho, Decimal.isWhole_and_toInt64?_iff.mpr hd⟩)
  | float =>
    rcases conforms_float_iff.mp ha with ⟨i, rfl⟩ | ⟨x, rfl⟩ | ⟨d, rfl, ho⟩
    · exact conforms_float_iff.mpr (.inl ⟨i, Value.int_same_iff.mp h⟩)
    · obtain ⟨y, rfl, -⟩ := Value.float_same_iff.mp h
      exact conforms_float_iff.mpr (.inr (.inl ⟨y, rfl⟩))
    · obtain ⟨e, rfl, -⟩ := Value.decimal_same_iff.mp h
      exact conforms_float_iff.mpr (.inr (.inr ⟨e, rfl, ho⟩))
  | str =>
    obtain ⟨t, rfl⟩ := conforms_str_iff.mp ha
    exact conforms_str_iff.mpr ⟨t, Value.str_same_iff.mp h⟩
  | none =>
    obtain rfl := conforms_none_iff.mp ha
    exact conforms_none_iff.mpr (Value.none_same_iff.mp h)
  | ellipsis =>
    obtain rfl := conforms_ellipsis_iff.mp ha
    exact conforms_ellipsis_iff.mpr (Value.ellipsis_same_iff.mp h)
  | decimal =>
    obtain ⟨d, rfl⟩ := conforms_decimal_iff.mp ha
    obtain ⟨e, rfl, -⟩ := Value.decimal_same_iff.mp h
    exact conforms_decimal_iff.mpr ⟨e, rfl⟩
  | sequence k s =>
    obtain ⟨xs, rfl, hxs⟩ := conforms_sequence_iff.mp ha
    obtain ⟨ys, rfl, -⟩ := Value.sequence_same_iff.mp h
    refine conforms_sequence_iff.mpr ⟨ys, rfl, fun y hy => ?_⟩
    obtain ⟨x, hx, hxy⟩ := Value.exists_same_item wa wb h hy
    exact ih s (by simp) (wa.part hx) (wb.part hy) hxy (hxs x hx)
  | tuple ss =>
    obtain ⟨xs, rfl, hxs⟩ := conforms_tuple_iff.mp ha
    obtain ⟨ys, rfl, hs⟩ := Value.sequence_same_iff.mp h
    refine conforms_tuple_iff.mpr ⟨ys, rfl, ?_⟩
    apply hxs.comp_of_mem hs
    intro t ht x hx y hy hc hxy
    exact ih t ht (wa.part hx) (wb.part hy) hxy hc
  | mapping k key value =>
    obtain ⟨l, xs, rfl, hl, hxs⟩ := conforms_mapping_iff.mp ha
    obtain ⟨ys, rfl, -⟩ := Value.map_same_iff.mp h
    refine conforms_mapping_iff.mpr ⟨l, ys, rfl, hl, fun e he => ?_⟩
    obtain ⟨d, hd, hk, hv⟩ := Value.exists_same_entry wa wb h he
    obtain ⟨hdk, hdv⟩ := hxs d hd
    exact ⟨ih key (by simp) (wa.key hd) (wb.key he) hk hdk,
      ih value (by simp) (wa.value hd) (wb.value he) hv hdv⟩
  | optional s =>
    rw [conforms_optional_iff] at ha ⊢
    rcases ha with ha | rfl
    · exact .inl (ih s (by simp) wa wb h ha)
    · exact .inr (Value.none_same_iff.mp h)
  | union ss =>
    rw [conforms_union_iff] at ha ⊢
    obtain ⟨s, hs, ha⟩ := ha
    exact ⟨s, hs, ih s hs wa wb h ha⟩
  | literal ls =>
    rw [conforms_literal_iff] at ha ⊢
    obtain ⟨l, hl, ha⟩ := ha
    have wl : l.toValue.WellFormed := Value.wellFormed_of_parts_eq_nil (parts_toValue l)
    exact ⟨l, hl, Value.same_trans wl wa wb ha h⟩
  | record name fs =>
    obtain ⟨n, xs, rfl, hxs⟩ := conforms_record_iff.mp ha
    obtain ⟨ys, rfl, hs⟩ := Value.record_same_iff.mp h
    refine conforms_record_iff.mpr ⟨n, ys, rfl, ?_⟩
    apply hxs.comp_of_mem hs
    rintro f hf x hx y hy ⟨hn, hc⟩ ⟨hxy, hs⟩
    exact ⟨hn.trans hxy, ih _ (mem_parts_record hf) (wa.field hx) (wb.field hy) hs hc⟩
  | enum name ms =>
    obtain ⟨m, rfl, hm⟩ := conforms_enum_iff.mp ha
    exact conforms_enum_iff.mpr ⟨m, Value.member_same_iff.mp h, hm⟩
  | typedDict name ks =>
    obtain ⟨l, xs, rfl, hxs, hr⟩ := conforms_typedDict_iff.mp ha
    obtain ⟨ys, rfl, -⟩ := Value.map_same_iff.mp h
    refine conforms_typedDict_iff.mpr ⟨l, ys, rfl, fun e he => ?_, fun k hk hreq => ?_⟩
    · obtain ⟨d, hd, hk, hv⟩ := Value.exists_same_entry wa wb h he
      obtain ⟨n, key, hn, hf, hdv⟩ := hxs d hd
      rw [hn, Value.str_same_iff] at hk
      exact ⟨n, key, hk, hf, ih _ (mem_parts_typedDict (List.mem_of_find?_eq_some hf))
        (wa.value hd) (wb.value he) hv hdv⟩
    · exact Value.hasKey_str_of_same h (hr k hk hreq)

end Shape

/-- Of values that are the same, a shape that can be checked against takes both or neither. -/
theorem isInstance_holds_eq_of_same {a b : Value} (wa : a.WellFormed) (wb : b.WellFormed)
    (h : a.same b = true) {s : Shape} (hs : (s.judge .checkable).holds = true) (o : Settings) :
    ∃ va vb, isInstance o s a = .ok va ∧ isInstance o s b = .ok vb ∧ va.holds = vb.holds := by
  refine ⟨_, _, isInstance_of_checkable hs, isInstance_of_checkable hs, ?_⟩
  apply Bool.eq_iff_iff.mpr
  constructor
  · exact Shape.conforms_of_same wa wb h
  · exact Shape.conforms_of_same wb wa (Value.same_symm wa wb h)

/-- Two sets of decimals, in different order and with different scales: one is a set of integers,
and so is the other. -/
theorem isInstance_holds_eq_of_same_decimals :
    let a : Value := .sequence .set
      [.decimal ⟨1, 0, by decide, by decide⟩, .decimal ⟨2, 0, by decide, by decide⟩]
    let b : Value := .sequence .set
      [.decimal ⟨200, 2, by decide, by decide⟩, .decimal ⟨10, 1, by decide, by decide⟩]
    a.WellFormed ∧ b.WellFormed ∧ a.same b = true ∧
      isInstance .standard (.sequence .set .int) a = .ok ⟨true, .empty⟩ ∧
      ∃ v, isInstance .standard (.sequence .set .int) b = .ok v ∧ v.holds = true := by
  intro a b
  have scalar : ∀ d, (Value.decimal d).WellFormed := fun d => Value.wellFormed_of_parts_eq_nil rfl
  have wa : a.WellFormed := Value.wellFormed_sequence_iff.mpr
    ⟨fun _ => List.pairwise_pair.mpr (by cbv), List.forall_mem_pair.mpr ⟨scalar _, scalar _⟩⟩
  have wb : b.WellFormed := Value.wellFormed_sequence_iff.mpr
    ⟨fun _ => List.pairwise_pair.mpr (by cbv), List.forall_mem_pair.mpr ⟨scalar _, scalar _⟩⟩
  have h : a.same b = true := by cbv
  have hs : ((Shape.sequence .set .int).judge .checkable).holds = true := rfl
  have ha : isInstance .standard (.sequence .set .int) a = .ok ⟨true, .empty⟩ := by cbv
  obtain ⟨va, vb, hva, hvb, hv⟩ := isInstance_holds_eq_of_same wa wb h hs .standard
  obtain rfl := Except.ok.inj (ha.symm.trans hva)
  exact ⟨wa, wb, h, ha, vb, hvb, hv.symm⟩

end ShapeCodec
