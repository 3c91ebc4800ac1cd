import ShapeCodec.Proofs.Shape.Parts

/-! # Conformance by cases

What conformance to a shape says of a value, constructor by constructor. Decimal casting only ever
adds instances.
-/

namespace ShapeCodec

namespace Shape

variable {o o' : Settings} {v : Value}
attribute [local simp] conforms conformsItems conformsAny conformsFields conformsKey

theorem conformsItems_iff {ss : List Shape} {xs : List Value} :
    conformsItems o ss xs = true ↔ List.Forall₂ (fun s x => conforms o s x = true) ss xs := by
  induction ss generalizing xs with
  | nil => cases xs <;> simp
  | cons s ss ih => cases xs <;> simp [ih]

theorem conformsAny_iff {ss : List Shape} :
    conformsAny o ss v = true ↔ ∃ s ∈ ss, conforms o s v = true := by
  induction ss with
  | nil => simp
  | cons s ss ih => simp [ih]

theorem conformsFields_iff {fs : List (Field Shape)} {vs : List (String × Value)} :
    conformsFields o fs vs = true ↔
      List.Forall₂ (fun f p => f.name = p.1 ∧ conforms o f.shape p.2 = true) fs vs := by
  induction fs generalizing vs with
  | nil => cases vs <;> simp
  | cons f fs ih =>
    cases vs with
    | nil => simp
    | cons p vs => simp [ih]

theorem conformsKey_iff {ks : List (Key Shape)} {name : String} :
    conformsKey o ks name v = true ↔
      ∃ k, ks.find? (·.name == name) = some k ∧ conforms o k.shape v = true := by
  induction ks with
  | nil => simp
  | cons k ks ih =>
    by_cases h : k.name = name
    · simp [h]
    · simp [h, ih]

@[simp] theorem conforms_bool_iff : conforms o bool v = true ↔ ∃ b, v = .bool b := by
  cases v <;> simp

@[simp] theorem conforms_int_iff : conforms o int v = true ↔ (∃ i, v = .int i) ∨
    ∃ d i, v = .decimal d ∧ o.castDecimal = true ∧ d.isWhole = true ∧ d.toInt64? = some i := by
  cases v <;> simp [and_assoc, Option.isSome_iff_exists]

@[simp] theorem conforms_float_iff : conforms o float v = true ↔ (∃ i, v = .int i) ∨
    (∃ x, v = .float x) ∨ ∃ d, v = .decimal d ∧ o.castDecimal = true := by
  cases v <;> simp

@[simp] theorem conforms_str_iff : conforms o str v = true ↔ ∃ s, v = .str s := by
  cases v <;> simp

@[simp] theorem conforms_none_iff : conforms o none v = true ↔ v = .none := by
  cases v <;> simp

@[simp] theorem conforms_ellipsis_iff : conforms o ellipsis v = true ↔ v = .ellipsis := by
  cases v <;> simp

@[simp] theorem conforms_decimal_iff : conforms o decimal v = true ↔ ∃ d, v = .decimal d := by
  cases v <;> simp

@[simp] theorem conforms_sequence_iff {k : SequenceKind} {s : Shape} :
    conforms o (sequence k s) v = true ↔
      ∃ xs, v = .sequence k xs ∧ ∀ x ∈ xs, conforms o s x = true := by
  cases v with
  | sequence l xs =>
    simp only [conforms, Bool.and_eq_true, beq_iff_eq, List.all_eq_true, Value.sequence.injEq]
    constructor
    · rintro ⟨rfl, h⟩
      exact ⟨xs, ⟨rfl, rfl⟩, h⟩
    · rintro ⟨ys, ⟨rfl, rfl⟩, h⟩
      exact ⟨rfl, h⟩
  | _ => simp

@[simp] theorem conforms_tuple_iff {ss : List Shape} :
    conforms o (tuple ss) v = true ↔ ∃ xs, v = .sequence .tuple xs ∧
      List.Forall₂ (fun s x => conforms o s x = true) ss xs := by
  cases v with
  | sequence l xs => cases l <;> simp [conformsItems_iff]
  | _ => simp

@[simp] theorem conforms_mapping_iff {k : MappingKind} {key value : Shape} :
    conforms o (mapping k key value) v = true ↔ ∃ l es, v = .map l es ∧ k.takes l = true ∧
      ∀ e ∈ es, conforms o key e.1 = true ∧ conforms o value e.2 = true := by
  cases v with
  | map l es =>
    simp only [conforms, Bool.and_eq_true, List.all_eq_true, Value.map.injEq]
    constructor
    · rintro ⟨hl, h⟩
      exact ⟨l, es, ⟨rfl, rfl⟩, hl, h⟩
    · rintro ⟨_, _, ⟨rfl, rfl⟩, hl, h⟩
      exact ⟨hl, h⟩
  | _ => simp

@[simp] theorem conforms_optional_iff {s : Shape} :
    conforms o (optional s) v = true ↔ conforms o s v = true ∨ v = .none := by
  cases v <;> simp

@[simp] theorem conforms_union_iff {ss : List Shape} :
    conforms o (union ss) v = true ↔ ∃ s ∈ ss, conforms o s v = true := by
  rw [conforms, conformsAny_iff]

@[simp] theorem conforms_literal_iff {ls : List Literal} :
    conforms o (literal ls) v = true ↔ ∃ l ∈ ls, l.fits v = true := by
  simp

@[simp] theorem conforms_record_iff {name : String} {fs : List (Field Shape)} :
    conforms o (record name fs) v = true ↔ ∃ n vs, v = .record n vs ∧
      List.Forall₂ (fun f p => f.name = p.1 ∧ conforms o f.shape p.2 = true) fs vs := by
  cases v with
  | record n vs =>
    rw [conforms, conformsFields_iff]
    exact ⟨fun h => ⟨n, vs, rfl, h⟩, by rintro ⟨_, _, ⟨⟩, h⟩; exact h⟩
  | _ => simp

@[simp] theorem conforms_enum_iff {name : String} {ms : List EnumMember} :
    conforms o (enum name ms) v = true ↔
      ∃ m, v = .member name m ∧ ms.any (·.name == m) = true := by
  cases v with
  | member e m =>
    simp only [conforms, Bool.and_eq_true, beq_iff_eq, Value.member.injEq]
    constructor
    · rintro ⟨rfl, h⟩
      exact ⟨m, ⟨rfl, rfl⟩, h⟩
    · rintro ⟨_, ⟨rfl, rfl⟩, h⟩
      exact ⟨rfl, h⟩
  | _ => simp

@[simp] theorem conforms_typedDict_iff {name : String} {ks : List (Key Shape)} :
    conforms o (typedDict name ks) v = true ↔ ∃ l es, v = .map l es ∧
      (∀ e ∈ es, ∃ n k, e.1 = .str n ∧ ks.find? (·.name == n) = some k ∧
        conforms o k.shape e.2 = true) ∧
      ∀ k ∈ ks, k.required = true → Value.hasKey es (.str k.name) = true := by
  cases v with
  | map l es =>
    have hkey : ∀ k : Key Shape, (!k.required || Value.hasKey es (.str k.name)) = true ↔
        (k.required = true → Value.hasKey es (.str k.name) = true) := by
      intro k
      cases k.required <;> simp
    simp only [conforms, Bool.and_eq_true, List.all_eq_true, Value.map.injEq, hkey]
    constructor
    · rintro ⟨he, hk⟩
      refine ⟨l, es, ⟨rfl, rfl⟩, fun e hm => ?_, hk⟩
      have h := he e hm
      split at h
      · rename_i n hn
        obtain ⟨k, hf, hc⟩ := conformsKey_iff.mp h
        exact ⟨n, k, hn, hf, hc⟩
      · cases h
    · rintro ⟨_, _, ⟨rfl, rfl⟩, he, hk⟩
      refine ⟨fun e hm => ?_, hk⟩
      obtain ⟨n, k, hn, hf, hc⟩ := he e hm
      rw [hn]
      exact conformsKey_iff.mpr ⟨k, hf, hc⟩
  | _ => simp

/-- Decimal casting only adds instances, and no other switch has a say. -/
theorem conforms_mono (h : o.castDecimal = true → o'.castDecimal = true) {s : Shape}
    (hv : conforms o s v = true) : conforms o' s v = true := by
  induction s using inductionParts generalizing v with
  | step s ih =>
  cases s with
  | int =>
    rw [conforms_int_iff] at hv ⊢
    exact hv.imp_right fun ⟨d, i, hd, hc, hr⟩ => ⟨d, i, hd, h hc, hr⟩
  | float =>
    rw [conforms_float_iff] at hv ⊢
    exact hv.imp_right (Or.imp_right fun ⟨d, hd, hc⟩ => ⟨d, hd, h hc⟩)
  | sequence k s =>
    rw [conforms_sequence_iff] at hv ⊢
    obtain ⟨xs, rfl, hx⟩ := hv
    exact ⟨xs, rfl, fun x hm => ih s (by simp) (hx x hm)⟩
  | tuple ss =>
    rw [conforms_tuple_iff] at hv ⊢
    obtain ⟨xs, rfl, hx⟩ := hv
    refine ⟨xs, rfl, ?_⟩
    rw [List.forall₂_iff_zip] at hx ⊢
    exact ⟨hx.1, fun hm => ih _ (List.of_mem_zip hm).1 (hx.2 hm)⟩
  | mapping k key value =>
    rw [conforms_mapping_iff] at hv ⊢
    obtain ⟨l, es, rfl, hl, he⟩ := hv
    exact ⟨l, es, rfl, hl, fun e hm =>
      ⟨ih key (by simp) (he e hm).1, ih value (by simp) (he e hm).2⟩⟩
  | optional s =>
    rw [conforms_optional_iff] at hv ⊢
    exact hv.imp_left (ih s (by simp))
  | union ss =>
    rw [conforms_union_iff] at hv ⊢
    obtain ⟨s, hs, hv⟩ := hv
    exact ⟨s, hs, ih s hs hv⟩
  | record name fs =>
    rw [conforms_record_iff] at hv ⊢
    obtain ⟨n, vs, rfl, hx⟩ := hv
    refine ⟨n, vs, rfl, ?_⟩
    rw [List.forall₂_iff_zip] at hx ⊢
    exact ⟨hx.1, fun hm =>
      ⟨(hx.2 hm).1, ih _ (mem_parts_record (List.of_mem_zip hm).1) (hx.2 hm).2⟩⟩
  | typedDict name ks =>
    rw [conforms_typedDict_iff] at hv ⊢
    obtain ⟨l, es, rfl, he, hr⟩ := hv
    refine ⟨l, es, rfl, fun e hm => ?_, hr⟩
    obtain ⟨n, k, hn, hk, hc⟩ := he e hm
    exact ⟨n, k, hn, hk, ih _ (mem_parts_typedDict (List.mem_of_find?_eq_some hk)) hc⟩
  | _ => exact hv

end Shape

end ShapeCodec
