import ShapeCodec.Document.Outline
import ShapeCodec.Proofs.Gates
import ShapeCodec.Proofs.Results

/-! # The shapes of outlines

When an outline has a shape and which one, constructor by constructor. The parts of the shape are
those of the parts of the outline, one by one, and only literals and defaults can stand in the way.
-/

namespace ShapeCodec

theorem Field.readDefault_eq_ok_iff {record field : String} {s : Shape} {given : Option Json}
    {default? : Option Value} :
    Field.readDefault record field s given = .ok default? ↔
      given = none ∧ default? = none ∨ ∃ j v, given = some j ∧ default? = some v ∧
        decode Settings.standard s j.merged.withIntegers = .ok v := by
  cases given with
  | none => simp [Field.readDefault, eq_comm]
  | some j =>
    rw [Field.readDefault]
    cases hd : decode Settings.standard s j.merged.withIntegers with
    | ok v => simp [hd, eq_comm]
    | error f => simp [hd]

structure MemberOutline.LeadsTo (m : MemberOutline) (n : EnumMember) : Prop where
  name : m.name = n.name
  value : Literal.ofJson m.value = .ok n.value

theorem EnumMember.ofOutlines_eq_ok_iff {ms : List MemberOutline} {ns : List EnumMember} :
    EnumMember.ofOutlines ms = .ok ns ↔ List.Forall₂ MemberOutline.LeadsTo ms ns := by
  rw [EnumMember.ofOutlines, mapM_eq_ok_iff]
  apply List.forall₂_congr_of_mem
  rintro m - ⟨name, value⟩
  rw [map_eq_ok_iff]
  simp only [EnumMember.mk.injEq]
  constructor
  · rintro ⟨l, hl, rfl, rfl⟩
    exact ⟨rfl, hl⟩
  · rintro ⟨hn, hl⟩
    exact ⟨value, hl, hn, rfl⟩

namespace Outline

variable {s : Shape} {inner key value : Outline} {parts : List Outline} {name : String}

/-! ## Lists of parts -/

theorem toShapes_eq_ok_iff {ss : List Shape} :
    toShapes parts = .ok ss ↔ List.Forall₂ (fun p s => toShape p = .ok s) parts ss := by
  induction parts generalizing ss with
  | nil => rw [toShapes, List.forall₂_nil_left_iff, Except.ok.injEq, eq_comm]
  | cons p parts ih =>
    simp only [toShapes, bind_eq_ok_iff, pure_eq_ok_iff, ih, List.forall₂_cons_left_iff]
    constructor
    · rintro ⟨s, hs, ss, hss, rfl⟩
      exact ⟨s, ss, hs, hss, rfl⟩
    · rintro ⟨s, ss, hs, hss, rfl⟩
      exact ⟨s, hs, ss, hss, rfl⟩

structure LeadsTo (record : String) (f : FieldOutline Outline) (g : Field Shape) : Prop where
  name : f.name = g.name
  shape : toShape f.shape = .ok g.shape
  default : Field.readDefault record f.name g.shape f.default? = .ok g.default?

theorem toFields_eq_ok_iff {fs : List (FieldOutline Outline)} {gs : List (Field Shape)} :
    toFields name fs = .ok gs ↔ List.Forall₂ (LeadsTo name) fs gs := by
  induction fs generalizing gs with
  | nil => rw [toFields, List.forall₂_nil_left_iff, Except.ok.injEq, eq_comm]
  | cons f fs ih =>
    simp only [toFields, bind_eq_ok_iff, pure_eq_ok_iff, ih, List.forall₂_cons_left_iff]
    constructor
    · rintro ⟨s, hs, d, hd, gs, hgs, rfl⟩
      exact ⟨⟨f.name, s, d⟩, gs, ⟨rfl, hs, hd⟩, hgs, rfl⟩
    · rintro ⟨⟨n, s, d⟩, gs, ⟨hn, hs, hd⟩, hgs, rfl⟩
      exact ⟨s, hs, d, hd, gs, hgs, by rw [hn]⟩

structure KeyLeadsTo (k : Key Outline) (l : Key Shape) : Prop where
  name : k.name = l.name
  required : k.required = l.required
  shape : toShape k.shape = .ok l.shape

theorem toKeys_eq_ok_iff {ks : List (Key Outline)} {ls : List (Key Shape)} :
    toKeys ks = .ok ls ↔ List.Forall₂ KeyLeadsTo ks ls := by
  induction ks generalizing ls with
  | nil => rw [toKeys, List.forall₂_nil_left_iff, Except.ok.injEq, eq_comm]
  | cons k ks ih =>
    simp only [toKeys, bind_eq_ok_iff, pure_eq_ok_iff, ih, List.forall₂_cons_left_iff]
    constructor
    · rintro ⟨s, hs, ls, hls, rfl⟩
      exact ⟨⟨k.name, s, k.required⟩, ls, ⟨rfl, rfl, hs⟩, hls, rfl⟩
    · rintro ⟨⟨n, s, r⟩, ls, ⟨hn, hr, hs⟩, hls, rfl⟩
      exact ⟨s, hs, ls, hls, by rw [hn, hr]⟩

/-! ## Constructors -/

theorem toShape_plain_eq_ok_iff {t : Shape} : toShape (plain t) = .ok s ↔ t = s :=
  iff_of_eq (Except.ok.injEq t s)

theorem toShape_sequence_eq_ok_iff {k : SequenceKind} :
    toShape (sequence k inner) = .ok s ↔ ∃ t, toShape inner = .ok t ∧ .sequence k t = s :=
  map_eq_ok_iff

theorem toShape_tuple_eq_ok_iff :
    toShape (tuple parts) = .ok s ↔
      ∃ ss, List.Forall₂ (fun p s => toShape p = .ok s) parts ss ∧ .tuple ss = s :=
  map_eq_ok_iff.trans (exists_congr fun _ => and_congr_left' toShapes_eq_ok_iff)

theorem toShape_mapping_eq_ok_iff {k : MappingKind} :
    toShape (mapping k key value) = .ok s ↔
      ∃ a b, toShape key = .ok a ∧ toShape value = .ok b ∧ .mapping k a b = s := by
  apply bind_eq_ok_iff.trans
  constructor
  · rintro ⟨a, ha, h⟩
    obtain ⟨b, hb, h⟩ := bind_eq_ok_iff.mp h
    exact ⟨a, b, ha, hb, pure_eq_ok_iff.mp h⟩
  · rintro ⟨a, b, ha, hb, h⟩
    exact ⟨a, ha, bind_eq_ok_iff.mpr ⟨b, hb, pure_eq_ok_iff.mpr h⟩⟩

theorem toShape_optional_eq_ok_iff :
    toShape (optional inner) = .ok s ↔ ∃ t, toShape inner = .ok t ∧ .optional t = s :=
  map_eq_ok_iff

theorem toShape_union_eq_ok_iff :
    toShape (union parts) = .ok s ↔
      ∃ ss, List.Forall₂ (fun p s => toShape p = .ok s) parts ss ∧ .union ss = s :=
  map_eq_ok_iff.trans (exists_congr fun _ => and_congr_left' toShapes_eq_ok_iff)

theorem toShape_literal_eq_ok_iff {js : List Json} :
    toShape (literal js) = .ok s ↔
      ∃ ls, List.Forall₂ (fun j l => Literal.ofJson j = .ok l) js ls ∧ .literal ls = s :=
  map_eq_ok_iff.trans (exists_congr fun _ => and_congr_left' mapM_eq_ok_iff)

theorem toShape_record_eq_ok_iff {fs : List (FieldOutline Outline)} :
    toShape (record name fs) = .ok s ↔
      ∃ gs, List.Forall₂ (LeadsTo name) fs gs ∧ .record name gs = s :=
  map_eq_ok_iff.trans (exists_congr fun _ => and_congr_left' toFields_eq_ok_iff)

theorem toShape_enum_eq_ok_iff {ms : List MemberOutline} :
    toShape (enum name ms) = .ok s ↔
      ∃ ns, List.Forall₂ MemberOutline.LeadsTo ms ns ∧ .enum name ns = s :=
  map_eq_ok_iff.trans (exists_congr fun _ => and_congr_left' EnumMember.ofOutlines_eq_ok_iff)

theorem toShape_typedDict_eq_ok_iff {ks : List (Key Outline)} :
    toShape (typedDict name ks) = .ok s ↔
      ∃ ls, List.Forall₂ KeyLeadsTo ks ls ∧ .typedDict name ls = s :=
  map_eq_ok_iff.trans (exists_congr fun _ => and_congr_left' toKeys_eq_ok_iff)

end Outline

end ShapeCodec
