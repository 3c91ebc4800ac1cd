import ShapeCodec.Proofs.Decoding.Cases
import ShapeCodec.Proofs.Json.Passes
import ShapeCodec.Proofs.Shape.Parts
import ShapeCodec.Proofs.Value.Equivalence

/-! # What decodes is well formed

Sets drop the members that are there already and maps refuse equal keys, so a value that decodes
repeats nothing. Its defaults come from the shape and are well formed when they are so there.
-/

namespace ShapeCodec

namespace Shape

variable {o : Settings} {s : Shape} {j : Json} {v : Value}

theorem parts_toValue (l : Literal) : l.toValue.parts = [] := by
  cases l <;> rfl

/-- The defaults of records in a shape, at any depth, repeat nothing in their sets and maps. -/
def DefaultsWellFormed (s : Shape) : Prop :=
  ∀ t, Within t s → ∀ name fs, t = record name fs → ∀ f ∈ fs, ∀ v, f.default? = some v →
    v.WellFormed

theorem defaultsWellFormed_iff : s.DefaultsWellFormed ↔
    (∀ name fs, s = record name fs → ∀ f ∈ fs, ∀ v, f.default? = some v → v.WellFormed) ∧
      ∀ p ∈ s.parts, p.DefaultsWellFormed := forall_within_iff

theorem defaultsWellFormed_of_parts_eq_nil (h : s.parts = []) : s.DefaultsWellFormed := by
  refine defaultsWellFormed_iff.mpr ⟨?_, by simp [h]⟩
  rintro name fs rfl f hf
  obtain rfl : fs = [] := List.map_eq_nil_iff.mp h
  cases hf

theorem DefaultsWellFormed.sequence {k : SequenceKind} (h : s.DefaultsWellFormed) :
    (Shape.sequence k s).DefaultsWellFormed := by
  apply defaultsWellFormed_iff.mpr
  constructor
  · intro name fs hs
    cases hs
  · simpa using h

theorem DefaultsWellFormed.mapping {k : MappingKind} {key : Shape} (hk : key.DefaultsWellFormed)
    (h : s.DefaultsWellFormed) : (Shape.mapping k key s).DefaultsWellFormed := by
  apply defaultsWellFormed_iff.mpr
  constructor
  · intro name fs hs
    cases hs
  · simpa using ⟨hk, h⟩

/-- The texts of map keys are read on their own, and repeat no key either. -/
theorem uniqueKeys_of_decodeKeyText {key : Shape} {text : String} {k : Value}
    (h : decodeKeyText key (decodeJson o key) text = .ok k) :
    ∃ c : Json, c.UniqueKeys ∧ decodeJson o key c = .ok k := by
  obtain ⟨c, hc, hk⟩ := exists_of_decodeKeyText h
  refine ⟨c, ?_, hk⟩
  rcases hc with rfl | hc
  · exact Json.uniqueKeys_of_parts_eq_nil rfl
  · exact Json.uniqueKeys_of_read hc

def YieldsWellFormed (o : Settings) (s : Shape) : Prop :=
  ∀ {j : Json} {v : Value}, j.UniqueKeys → decodeJson o s j = .ok v → v.WellFormed

theorem yieldsWellFormed_sequence {k : SequenceKind} (hs : YieldsWellFormed o s) :
    YieldsWellFormed o (.sequence k s) := by
  intro j v hj h
  obtain ⟨xs, vs, rfl, hv, rfl⟩ := decodeJson_sequence_eq_ok_iff.mp h
  have hvs : ∀ w ∈ vs, w.WellFormed := by
    intro w hw
    obtain ⟨x, hx, hw⟩ := hv.exists_of_mem_right hw
    exact hs (hj.part hx) hw
  apply Value.wellFormed_sequence_iff.mpr
  split
  · exact ⟨fun _ => (Value.distinct_spec vs).2, fun w hw => hvs w (Value.mem_of_mem_distinct hw)⟩
  · rename_i hk
    exact ⟨fun hk' => (hk hk').elim, hvs⟩

theorem yieldsWellFormed_tuple {ss : List Shape} (hs : ∀ s ∈ ss, YieldsWellFormed o s) :
    YieldsWellFormed o (.tuple ss) := by
  intro j v hj h
  obtain ⟨xs, vs, rfl, -, hv, rfl⟩ := decodeJson_tuple_eq_ok_iff.mp h
  apply Value.wellFormed_sequence_iff.mpr
  constructor
  · intro hk
    cases hk
  · intro w hw
    obtain ⟨⟨s, x⟩, hm, hx⟩ := hv.exists_of_mem_right hw
    obtain ⟨hss, hxs⟩ := List.of_mem_zip hm
    exact hs s hss (hj.part hxs) hx

theorem yieldsWellFormed_mapping {k : MappingKind} {key value : Shape}
    (hkey : YieldsWellFormed o key) (hvalue : YieldsWellFormed o value) :
    YieldsWellFormed o (.mapping k key value) := by
  intro j v hj h
  obtain ⟨es, ps, rfl, hp, hn, rfl⟩ := decodeJson_mapping_eq_ok_iff.mp h
  apply Value.wellFormed_map_iff.mpr
  refine ⟨hn, fun p hm => ?_⟩
  obtain ⟨e, he, hk, hx⟩ := hp.exists_of_mem_right hm
  obtain ⟨c, hc, hk⟩ := uniqueKeys_of_decodeKeyText hk
  exact ⟨hkey hc hk, hvalue (hj.part (Json.mem_parts_map he)) hx⟩

theorem yieldsWellFormed_record {name : String} {fs : List (Field Shape)}
    (hdefault : ∀ f ∈ fs, ∀ v, f.default? = some v → v.WellFormed)
    (hfields : ∀ f ∈ fs, YieldsWellFormed o f.shape) : YieldsWellFormed o (.record name fs) := by
  intro j v hj h
  obtain ⟨given, vs, hg, hv, rfl⟩ := decodeJson_record_eq_ok_iff.mp h
  apply Value.wellFormed_record_iff.mpr
  intro w hw
  obtain ⟨⟨f, g⟩, hm, -, hf⟩ := hv.exists_of_mem_right hw
  obtain ⟨hfs, hgiven⟩ := List.of_mem_zip hm
  rcases hf with ⟨x, rfl, hx⟩ | ⟨-, hv⟩
  · refine hfields f hfs ?_ hx
    rcases hg.mem hgiven with ⟨es, rfl, e, he, rfl⟩ | ⟨xs, rfl, hm⟩
    · exact hj.part (Json.mem_parts_map he)
    · exact hj.part hm
  · exact hdefault f hfs w.2 hv

theorem yieldsWellFormed_typedDict {name : String} {ks : List (Key Shape)}
    (hkeys : ∀ k ∈ ks, YieldsWellFormed o k.shape) : YieldsWellFormed o (.typedDict name ks) := by
  intro j v hj h
  obtain ⟨es, vs, rfl, -, hv, rfl⟩ := decodeJson_typedDict_eq_ok_iff.mp h
  apply Value.wellFormed_map_iff.mpr
  constructor
  · have hes : es.Pairwise fun a b => a.1 ≠ b.1 :=
      List.pairwise_map.mp (Json.uniqueKeys_map_iff.mp hj).1
    refine hv.flip.pairwise hes ?_
    rintro a b c d ⟨hac, -⟩ ⟨hbd, -⟩ hne
    rw [hac, hbd]
    exact Bool.eq_false_iff.mpr fun hs => hne (Value.str.inj (Value.str_same_iff.mp hs))
  · intro w hw
    obtain ⟨e, he, hn, k, hk, hx⟩ := hv.exists_of_mem_right hw
    rw [hn]
    exact ⟨Value.wellFormed_of_parts_eq_nil rfl,
      hkeys k (List.mem_of_find?_eq_some hk) (hj.part (Json.mem_parts_map he)) hx⟩

theorem wellFormed_of_decodeJson (hd : s.DefaultsWellFormed) (hj : j.UniqueKeys)
    (h : decodeJson o s j = .ok v) : v.WellFormed := by
  induction s using inductionParts generalizing j v with
  | step s ih =>
  obtain ⟨hdefault, hd⟩ := defaultsWellFormed_iff.mp hd
  have part : ∀ p ∈ s.parts, YieldsWellFormed o p := fun p hp _ _ => ih p hp (hd p hp)
  have scalar : ∀ {w : Value}, w.parts = [] → v = w → v.WellFormed := by
    rintro w hw rfl
    exact Value.wellFormed_of_parts_eq_nil hw
  cases s with
  | any => exact (decodeJson_any_ne_ok h).elim
  | bool =>
    obtain ⟨b, -, hv⟩ := decodeJson_bool_eq_ok_iff.mp h
    exact scalar rfl hv
  | int =>
    obtain ⟨i, -, hv⟩ := decodeJson_int_eq_ok_iff.mp h
    exact scalar rfl hv
  | float =>
    obtain ⟨x, -, hv⟩ := decodeJson_float_eq_ok_iff.mp h
    exact scalar rfl hv
  | str =>
    obtain ⟨t, -, hv⟩ := decodeJson_str_eq_ok_iff.mp h
    exact scalar rfl hv
  | none => exact scalar rfl (decodeJson_none_eq_ok_iff.mp h).2
  | ellipsis => exact scalar rfl (decodeJson_ellipsis_eq_ok_iff.mp h).2
  | decimal =>
    obtain ⟨d, -, hv⟩ := decodeJson_decimal_eq_ok_iff.mp h
    exact scalar rfl hv
  | literal ls =>
    obtain ⟨l, -, hv⟩ := decodeJson_literal_eq_ok_iff.mp h
    exact scalar (parts_toValue l) hv
  | enum name ms =>
    obtain ⟨m, -, -, hv⟩ := decodeJson_enum_eq_ok_iff.mp h
    exact scalar rfl hv
  | sequence k s => exact yieldsWellFormed_sequence (part s (by simp)) hj h
  | tuple ss => exact yieldsWellFormed_tuple part hj h
  | mapping k key value =>
    exact yieldsWellFormed_mapping (part key (by simp)) (part value (by simp)) hj h
  | optional s =>
    rcases decodeJson_optional_eq_ok_iff.mp h with h | ⟨-, -, hv⟩
    · exact part s (by simp) hj h
    · exact scalar rfl hv
  | union ss =>
    obtain ⟨pre, s, post, rfl, -, hv⟩ := decodeJson_union_eq_ok_iff.mp h
    exact part s (by simp) hj hv
  | record name fs =>
    exact yieldsWellFormed_record (hdefault name fs rfl)
      (fun f hf => part _ (mem_parts_record hf)) hj h
  | typedDict name ks =>
    exact yieldsWellFormed_typedDict (fun k hk => part _ (mem_parts_typedDict hk)) hj h

end Shape

end ShapeCodec
