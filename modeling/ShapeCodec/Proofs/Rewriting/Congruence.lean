import ShapeCodec.Proofs.Decoding.Cases
import ShapeCodec.Proofs.Encoding.Failure

/-! # Shapes that do the same

One shape can take the place of another when it passes the same judgments, takes the same values,
encodes them to the same trees and decodes the same trees to the same values. Shapes that are made
alike of parts that can take each other's place can do so too.
-/

namespace ShapeCodec

namespace Shape

/-- The second shape does whatever the first one does. -/
structure ReplaceableBy (s t : Shape) : Prop where
  checkable : s.checkable = true → t.checkable = true
  hashable : s.hashable = t.hashable
  encodable : s.encodable = t.encodable
  keyForm : s.keyForm = t.keyForm
  keyCandidates : ∀ text, keyCandidates s text = keyCandidates t text
  conforms : ∀ o v, conforms o s v = conforms o t v
  encodes : ∀ o v j, encodeValue o s v = .ok j ↔ encodeValue o t v = .ok j
  decodes : ∀ o j v, decodeJson o s j = .ok v ↔ decodeJson o t j = .ok v

structure FieldAlike (R : Shape → Shape → Prop) (f g : Field Shape) : Prop where
  name : f.name = g.name
  default? : f.default? = g.default?
  shape : R f.shape g.shape

structure KeyAlike (R : Shape → Shape → Prop) (k l : Key Shape) : Prop where
  name : k.name = l.name
  required : k.required = l.required
  shape : R k.shape l.shape

/-- Two shapes with the same kinds, names and defaults whose parts are related one by one. -/
inductive MadeAlike (R : Shape → Shape → Prop) : Shape → Shape → Prop
  | plain {s : Shape} : s.parts = [] → MadeAlike R s s
  | sequence {k : SequenceKind} {s t : Shape} : R s t →
    MadeAlike R (sequence k s) (sequence k t)
  | tuple {ss ts : List Shape} : List.Forall₂ R ss ts → MadeAlike R (tuple ss) (tuple ts)
  | mapping {k : MappingKind} {key key' value value' : Shape} : R key key' → R value value' →
    MadeAlike R (mapping k key value) (mapping k key' value')
  | optional {s t : Shape} : R s t → MadeAlike R (optional s) (optional t)
  | union {ss ts : List Shape} : List.Forall₂ R ss ts → MadeAlike R (union ss) (union ts)
  | record {name : String} {fs gs : List (Field Shape)} :
    List.Forall₂ (FieldAlike R) fs gs → MadeAlike R (record name fs) (record name gs)
  | typedDict {name : String} {ks ls : List (Key Shape)} :
    List.Forall₂ (KeyAlike R) ks ls → MadeAlike R (typedDict name ks) (typedDict name ls)

variable {R : Shape → Shape → Prop} {o : Settings} {s t u : Shape} {ss ts : List Shape}
  {fs gs : List (Field Shape)} {ks ls : List (Key Shape)} {v : Value} {j : Json}

theorem ReplaceableBy.refl (s : Shape) : ReplaceableBy s s :=
  ⟨id, rfl, rfl, rfl, fun _ => rfl, fun _ _ => rfl, fun _ _ _ => .rfl, fun _ _ _ => .rfl⟩

theorem ReplaceableBy.trans (h : ReplaceableBy s t) (h' : ReplaceableBy t u) :
    ReplaceableBy s u where
  checkable := h'.checkable ∘ h.checkable
  hashable := h.hashable.trans h'.hashable
  encodable := h.encodable.trans h'.encodable
  keyForm := h.keyForm.trans h'.keyForm
  keyCandidates text := (h.keyCandidates text).trans (h'.keyCandidates text)
  conforms o v := (h.conforms o v).trans (h'.conforms o v)
  encodes o v j := (h.encodes o v j).trans (h'.encodes o v j)
  decodes o j v := (h.decodes o j v).trans (h'.decodes o j v)

/-! ## Judgments -/

theorem MadeAlike.parts (h : MadeAlike R s t) : List.Forall₂ R s.parts t.parts := by
  cases h with
  | plain hs => rw [hs]; exact .nil
  | sequence h => exact .cons h .nil
  | tuple h => exact h
  | mapping hk hv => exact .cons hk (.cons hv .nil)
  | optional h => exact .cons h .nil
  | union h => exact h
  | record h =>
    rw [Shape.parts, Shape.parts, List.forall₂_map_left_iff, List.forall₂_map_right_iff]
    exact h.imp fun _ _ h => h.shape
  | typedDict h =>
    rw [Shape.parts, Shape.parts, List.forall₂_map_left_iff, List.forall₂_map_right_iff]
    exact h.imp fun _ _ h => h.shape

/-- A judgment that goes down to the parts is passed on when what it asks of the shape itself is. -/
theorem MadeAlike.judgment {holds : Shape → Bool} {asks : Shape → Prop} (h : MadeAlike R s t)
    (hj : ∀ s, holds s = true ↔ asks s ∧ ∀ p ∈ s.parts, holds p = true)
    (hr : ∀ p q, R p q → holds p = holds q) (ha : asks s ↔ asks t) : holds s = holds t := by
  rw [Bool.eq_iff_iff, hj s, hj t, ha]
  refine and_congr_right fun _ => ⟨fun hs q hq => ?_, fun ht p hp => ?_⟩
  · obtain ⟨p, hp, hpq⟩ := h.parts.exists_of_mem_right hq
    exact hr p q hpq ▸ hs p hp
  · obtain ⟨q, hq, hpq⟩ := h.parts.exists_of_mem_left hp
    exact (hr p q hpq).trans (ht q hq)

theorem MadeAlike.hashable (h : MadeAlike ReplaceableBy s t) : s.hashable = t.hashable := by
  refine h.judgment (fun _ => hashable_iff) (fun _ _ => ReplaceableBy.hashable) ?_
  cases h <;> rfl

theorem MadeAlike.encodable (h : MadeAlike ReplaceableBy s t) : s.encodable = t.encodable := by
  refine h.judgment (fun _ => encodable_iff) (fun _ _ => ReplaceableBy.encodable) ?_
  cases h with
  | mapping hk _ => simp only [Writable, hk.hashable]
  | _ => rfl

theorem map_name_eq (h : List.Forall₂ (FieldAlike R) fs gs) :
    fs.map (·.name) = gs.map (·.name) := by
  induction h with
  | nil => rfl
  | cons hf _ ih => rw [List.map_cons, List.map_cons, hf.name, ih]

theorem map_keyName_eq (h : List.Forall₂ (KeyAlike R) ks ls) :
    ks.map (·.name) = ls.map (·.name) := by
  induction h with
  | nil => rfl
  | cons hk _ ih => rw [List.map_cons, List.map_cons, hk.name, ih]

theorem MadeAlike.checkable (h : MadeAlike ReplaceableBy s t) (hs : s.checkable = true) :
    t.checkable = true := by
  obtain ⟨hw, hp⟩ := checkable_iff.mp hs
  refine checkable_iff.mpr ⟨?_, fun q hq => ?_⟩
  · cases h with
    | plain => exact hw
    | union h =>
      rw [WellMade] at hw ⊢
      exact h.length_eq ▸ hw
    | record h =>
      refine ⟨map_name_eq h ▸ hw.1, fun g hg v hv => ?_⟩
      obtain ⟨f, hf, hfg⟩ := h.exists_of_mem_right hg
      rw [← hfg.shape.conforms]
      exact hw.2 f hf v (hfg.default?.trans hv)
    | typedDict h =>
      rw [WellMade] at hw ⊢
      exact map_keyName_eq h ▸ hw
    | _ => trivial
  · obtain ⟨p, hm, hpq⟩ := h.parts.exists_of_mem_right hq
    exact hpq.checkable (hp p hm)

theorem MadeAlike.keyForm (h : MadeAlike R s t) : s.keyForm = t.keyForm := by
  cases h <;> rfl

theorem MadeAlike.keyCandidates (h : MadeAlike R s t) (text : String) :
    Shape.keyCandidates s text = Shape.keyCandidates t text := by
  cases h <;> rfl

/-! ## Instances -/

theorem forall_required_iff (h : List.Forall₂ (KeyAlike R) ks ls) (P : String → Prop) :
    (∀ k ∈ ks, k.required = true → P k.name) ↔ ∀ l ∈ ls, l.required = true → P l.name := by
  constructor
  · intro hk l hl hr
    obtain ⟨k, hm, hkl⟩ := h.exists_of_mem_right hl
    exact hkl.name ▸ hk k hm (hkl.required.trans hr)
  · intro hl k hk hr
    obtain ⟨l, hm, hkl⟩ := h.exists_of_mem_left hk
    exact hkl.name ▸ hl l hm (hkl.required ▸ hr)

theorem MadeAlike.conforms (h : MadeAlike ReplaceableBy s t) (o : Settings) (v : Value) :
    Shape.conforms o s v = Shape.conforms o t v := by
  rw [Bool.eq_iff_iff]
  cases h with
  | plain => rfl
  | sequence h => simp only [conforms_sequence_iff, h.conforms]
  | tuple h =>
    simp only [conforms_tuple_iff]
    refine exists_congr fun xs => and_congr_right fun _ => h.forall₂_iff fun p q hpq x => ?_
    rw [hpq.conforms]
  | mapping hk hv => simp only [conforms_mapping_iff, hk.conforms, hv.conforms]
  | optional h => simp only [conforms_optional_iff, h.conforms]
  | union h =>
    simp only [conforms_union_iff]
    constructor
    · rintro ⟨p, hp, hv⟩
      obtain ⟨q, hq, hpq⟩ := h.exists_of_mem_left hp
      exact ⟨q, hq, hpq.conforms o v ▸ hv⟩
    · rintro ⟨q, hq, hv⟩
      obtain ⟨p, hp, hpq⟩ := h.exists_of_mem_right hq
      exact ⟨p, hp, (hpq.conforms o v).trans hv⟩
  | record h =>
    simp only [conforms_record_iff]
    refine exists_congr fun n => exists_congr fun vs => and_congr_right fun _ =>
      h.forall₂_iff fun f g hfg x => ?_
    rw [hfg.name, hfg.shape.conforms]
  | @typedDict name ks ls h =>
    simp only [conforms_typedDict_iff]
    have entry : ∀ n x, (∃ k, ks.find? (·.name == n) = some k ∧
        Shape.conforms o k.shape x = true) ↔
          ∃ k, ls.find? (·.name == n) = some k ∧ Shape.conforms o k.shape x = true := fun n x =>
      h.exists_find?_iff (fun k l hkl => by rw [hkl.name]) fun k l hkl => by rw [hkl.shape.conforms]
    simp only [exists_and_left, entry,
      fun es => forall_required_iff h fun n => Value.hasKey es (.str n) = true]

/-! ## Encoding -/

theorem ReplaceableBy.keyTextOf {key key' : Shape} (h : ReplaceableBy key key') {x : Value}
    {text : String} : keyTextOf o key x = .ok text ↔ keyTextOf o key' x = .ok text := by
  simp only [keyTextOf_eq_ok_iff, h.keyForm, h.encodes]

theorem forall₂_declared (h : List.Forall₂ (KeyAlike R) ks ls) (es : List (Value × Value)) :
    List.Forall₂ (fun p q => p.1.name = q.1.name ∧ R p.1.shape q.1.shape ∧ p.2 = q.2)
      (declared ks es) (declared ls es) := by
  induction h with
  | nil => exact .nil
  | @cons k l ks ls hkl _ ih =>
    simp only [declared, List.filterMap_cons, hkl.name] at ih ⊢
    cases Value.lookup? es (.str l.name) with
    | none => exact ih
    | some x => exact .cons ⟨hkl.name, hkl.shape, rfl⟩ ih

theorem MadeAlike.encodes (h : MadeAlike ReplaceableBy s t) (o : Settings) (v : Value) (j : Json) :
    encodeValue o s v = .ok j ↔ encodeValue o t v = .ok j := by
  cases h with
  | plain => rfl
  | sequence h => simp only [encodeValue_sequence_eq_ok_iff, h.encodes]
  | tuple h =>
    simp only [encodeValue_tuple_eq_ok_iff, h.length_eq]
    refine exists₂_congr fun xs js => and_congr_right fun _ => and_congr_right fun _ =>
      and_congr_right fun _ => (h.zip_right xs).forall₂_iff fun p q hpq y => ?_
    rw [hpq.1.encodes, hpq.2]
  | mapping hk hv => simp only [encodeValue_mapping_eq_ok_iff, hk.keyTextOf, hv.encodes]
  | @optional s t h =>
    have hb : ∀ u : Shape, (Shape.optional u).branches? = some [u, none] := fun _ => rfl
    rw [encodeValue_branches?_eq_ok_iff (hb s), encodeValue_branches?_eq_ok_iff (hb t)]
    exact List.Forall₂.exists_find?_iff (.cons h (.cons (.refl none) .nil))
      (fun p q hpq => hpq.conforms o v) fun p q hpq => hpq.encodes o v j
  | union h =>
    rw [encodeValue_branches?_eq_ok_iff rfl, encodeValue_branches?_eq_ok_iff rfl]
    exact h.exists_find?_iff (fun p q hpq => hpq.conforms o v) fun p q hpq => hpq.encodes o v j
  | record h =>
    simp only [encodeValue_record_eq_ok_iff]
    refine exists_congr fun n => exists₂_congr fun vs ps => and_congr_right fun _ =>
      and_congr_right fun _ => (h.zip_right vs).forall₂_iff fun p q hpq y => ?_
    rw [hpq.1.shape.encodes, hpq.2]
  | typedDict h =>
    simp only [encodeValue_typedDict_eq_ok_iff]
    refine exists_congr fun l => exists₂_congr fun es ps => and_congr_right fun _ =>
      and_congr_right fun _ => (forall₂_declared h es).forall₂_iff fun p q hpq y => ?_
    rw [hpq.1, hpq.2.1.encodes, hpq.2.2]

/-! ## Decoding -/

theorem ReplaceableBy.decodeKeyText {key key' : Shape} (h : ReplaceableBy key key')
    {text : String} :
    decodeKeyText key (decodeJson o key) text = .ok v ↔
      decodeKeyText key' (decodeJson o key') text = .ok v := by
  rw [Shape.decodeKeyText, Shape.decodeKeyText, h.keyForm]
  cases key'.keyForm with
  | direct =>
    simp only [firstDecoded_eq_ok_iff, h.keyCandidates,
      fun c => toOption_eq_of_ok_iff fun v => h.decodes o c v]
  | stringified =>
    cases Json.read text with
    | ok c => exact h.decodes o c v
    | error fault => simp

theorem leastFields_eq (h : List.Forall₂ (FieldAlike R) fs gs) :
    leastFields fs = leastFields gs := by
  have hd : fs.map (·.default?.isSome) = gs.map (·.default?.isSome) := by
    induction h with
    | nil => rfl
    | cons hf _ ih => rw [List.map_cons, List.map_cons, hf.default?, ih]
  have count : ∀ fs : List (Field Shape), leastFields fs =
      ((fs.map (·.default?.isSome)).reverse.dropWhile id).length := fun fs => by
    rw [leastFields, ← List.map_reverse, List.dropWhile_map, List.length_map]
    rfl
  rw [count, count, hd]

theorem lays_iff (h : List.Forall₂ (FieldAlike R) fs gs) {given : List (Option Json)} :
    Lays fs j given ↔ Lays gs j given := by
  have hn := map_name_eq h
  have hmap : ∀ es, fieldsOfMap fs es = fieldsOfMap gs es := fun es => by
    have names : ∀ fs : List (Field Shape), fieldsOfMap fs es =
        (fs.map (·.name)).map fun n => (es.find? (·.1 == n)).map (·.2) := fun fs => by
      rw [fieldsOfMap, List.map_map]
      rfl
    rw [names, names, hn]
  have hlist : ∀ xs, fieldsOfList fs xs = fieldsOfList gs xs := fun xs => by
    rw [fieldsOfList, fieldsOfList, h.length_eq]
  have hmem : ∀ n, (∃ f ∈ fs, f.name = n) ↔ ∃ g ∈ gs, g.name = n := fun n => by
    simpa using congrArg (n ∈ ·) hn
  simp only [Lays, hmap, hlist, hmem, leastFields_eq h, h.length_eq]

theorem MadeAlike.decodes (h : MadeAlike ReplaceableBy s t) (o : Settings) (j : Json) (v : Value) :
    decodeJson o s j = .ok v ↔ decodeJson o t j = .ok v := by
  have branches : ∀ {ss ts : List Shape}, s.branches? = some ss → t.branches? = some ts →
      List.Forall₂ ReplaceableBy ss ts → (decodeJson o s j = .ok v ↔ decodeJson o t j = .ok v) := by
    intro ss ts hs ht h
    rw [decodeJson_branches?_eq_ok_iff_findSome? hs, decodeJson_branches?_eq_ok_iff_findSome? ht,
      h.findSome?_eq fun p q hpq => toOption_eq_of_ok_iff fun w => hpq.decodes o j w]
  cases h with
  | plain => rfl
  | sequence h => simp only [decodeJson_sequence_eq_ok_iff, h.decodes]
  | tuple h =>
    simp only [decodeJson_tuple_eq_ok_iff, h.length_eq]
    refine exists₂_congr fun xs vs => and_congr_right fun _ => and_congr_right fun _ =>
      and_congr_left fun _ => (h.zip_right xs).forall₂_iff fun p q hpq y => ?_
    rw [hpq.1.decodes, hpq.2]
  | mapping hk hv => simp only [decodeJson_mapping_eq_ok_iff, hk.decodeKeyText, hv.decodes]
  | optional h => exact branches rfl rfl (.cons h (.cons (.refl none) .nil))
  | union h => exact branches rfl rfl h
  | record h =>
    simp only [decodeJson_record_eq_ok_iff, lays_iff h]
    refine exists₂_congr fun given vs => and_congr_right fun _ => and_congr_left fun _ =>
      (h.zip_right given).forall₂_iff fun p q hpq y => ?_
    obtain ⟨hfg, hg⟩ := hpq
    simp only [Fills, hfg.name, hfg.default?, hg, hfg.shape.decodes]
  | @typedDict name ks ls h =>
    have entry : ∀ n x w, (∃ k, ks.find? (·.name == n) = some k ∧
        decodeJson o k.shape x = .ok w) ↔
          ∃ k, ls.find? (·.name == n) = some k ∧ decodeJson o k.shape x = .ok w := fun n x w =>
      h.exists_find?_iff (fun k l hkl => by rw [hkl.name]) fun k l hkl => by rw [hkl.shape.decodes]
    simp only [decodeJson_typedDict_eq_ok_iff, entry,
      fun es : List (String × Json) => forall_required_iff h fun n => ∃ e ∈ es, e.1 = n]

/-- Shapes made alike of parts that can take each other's place can do so too. -/
theorem MadeAlike.replaceableBy (h : MadeAlike ReplaceableBy s t) : ReplaceableBy s t :=
  ⟨h.checkable, h.hashable, h.encodable, h.keyForm, h.keyCandidates, h.conforms, h.encodes,
    h.decodes⟩

end Shape

end ShapeCodec
