import ShapeCodec.Proofs.Rewriting.Congruence

/-! # Unions without optional shapes and inner unions

An optional shape is the union of its inner shape and the empty one, and the branches of an inner
union can stand in its place among those of the outer one. Both laws can be applied throughout: the
shape does what it did before, and all that is left of its choices are unions that hold no others.
-/

namespace ShapeCodec

namespace Shape

/-- The branches that a shape stands for in a union: its own if it is a union, or else itself. -/
def spliced : Shape → List Shape
  | union ss => ss
  | s => [s]

mutual

/-- The shape with all optional parts turned into unions and the branches of inner unions put in
their places. -/
def flattened : Shape → Shape
  | sequence k s => sequence k (flattened s)
  | tuple ss => tuple (flattenedAll ss)
  | mapping k key value => mapping k (flattened key) (flattened value)
  | optional s => union ((flattened s).spliced ++ [none])
  | union ss => union ((flattenedAll ss).flatMap spliced)
  | record name fs => record name (flattenedFields fs)
  | typedDict name ks => typedDict name (flattenedKeys ks)
  | s => s

def flattenedAll : List Shape → List Shape
  | [] => []
  | s :: ss => flattened s :: flattenedAll ss

def flattenedFields : List (Field Shape) → List (Field Shape)
  | [] => []
  | f :: fs => { f with shape := flattened f.shape } :: flattenedFields fs

def flattenedKeys : List (Key Shape) → List (Key Shape)
  | [] => []
  | k :: ks => { k with shape := flattened k.shape } :: flattenedKeys ks

end

variable {s t : Shape} {ss : List Shape} {o : Settings} {v : Value} {j : Json}

theorem flattenedAll_eq (ss : List Shape) : flattenedAll ss = ss.map flattened := by
  induction ss with
  | nil => rfl
  | cons s ss ih => rw [flattenedAll, ih, List.map_cons]

theorem flattenedFields_eq (fs : List (Field Shape)) :
    flattenedFields fs = fs.map fun f => { f with shape := f.shape.flattened } := by
  induction fs with
  | nil => rfl
  | cons f fs ih => rw [flattenedFields, ih, List.map_cons]

theorem flattenedKeys_eq (ks : List (Key Shape)) :
    flattenedKeys ks = ks.map fun k => { k with shape := k.shape.flattened } := by
  induction ks with
  | nil => rfl
  | cons k ks ih => rw [flattenedKeys, ih, List.map_cons]

/-! ## The two laws -/

/-- An optional shape is the union of its inner shape and the empty one. -/
theorem optional_replaceableBy (s : Shape) : ReplaceableBy (optional s) (union [s, none]) where
  checkable h := by simpa [Shape.checkable, checkableAll] using h
  hashable := by simp [Shape.hashable, hashableAll]
  encodable := by simp [Shape.encodable, encodableAll]
  keyForm := rfl
  keyCandidates _ := rfl
  conforms o v := by
    rw [Bool.eq_iff_iff, conforms_optional_iff, conforms_union_iff]
    simp
  encodes o v j := by
    rw [encodeValue_branches?_eq_ok_iff (s := optional s) rfl,
      encodeValue_branches?_eq_ok_iff (s := union [s, none]) rfl]
  decodes o j v := by
    rw [decodeJson_branches?_eq_ok_iff (s := optional s) rfl,
      decodeJson_branches?_eq_ok_iff (s := union [s, none]) rfl]

theorem forall_mem_spliced_iff (holds : Shape → Bool)
    (h : ∀ ss, holds (union ss) = true ↔ ∀ s ∈ ss, holds s = true) :
    (∀ t ∈ s.spliced, holds t = true) ↔ holds s = true := by
  cases s with
  | union ss => exact (h ss).symm
  | _ => exact List.forall_mem_singleton

theorem any_spliced : s.spliced.any (conforms o · v) = conforms o s v := by
  cases s with
  | union ss =>
    rw [Bool.eq_iff_iff, conforms_union_iff, spliced, List.any_eq_true]
  | _ => simp [spliced]

theorem findSome?_spliced :
    s.spliced.findSome? (fun t => (decodeJson o t j).toOption) = (decodeJson o s j).toOption := by
  cases s with
  | union ss =>
    refine Option.ext fun v => ?_
    rw [spliced, ← decodeJson_branches?_eq_ok_iff_findSome? (s := union ss) rfl]
    cases decodeJson o (union ss) j <;> simp [Except.toOption]
  | _ => simp [spliced]

theorem length_le_flatMap_spliced (h : ∀ s ∈ ss, s.checkable = true) :
    ss.length ≤ (ss.flatMap spliced).length := by
  induction ss with
  | nil => exact le_rfl
  | cons s ss ih =>
    obtain ⟨hs, hss⟩ := List.forall_mem_cons.mp h
    have hpos : 1 ≤ s.spliced.length := by
      cases s with
      | union ts =>
        have : 2 ≤ ts.length := (checkable_iff.mp hs).1
        rw [spliced]
        omega
      | _ => exact le_rfl
    have := ih hss
    rw [List.flatMap_cons, List.length_append, List.length_cons]
    omega

/-- The branches of inner unions can stand in the places of these. -/
theorem union_replaceableBy (ss : List Shape) :
    ReplaceableBy (union ss) (union (ss.flatMap spliced)) where
  checkable h := by
    obtain ⟨hl, hp⟩ := checkable_iff.mp h
    refine checkable_iff.mpr ⟨le_trans hl (length_le_flatMap_spliced hp), fun t ht => ?_⟩
    obtain ⟨s, hs, ht⟩ := List.mem_flatMap.mp ht
    cases s with
    | union ts => exact checkable_of_mem_parts (hp _ hs) ht
    | _ => exact List.mem_singleton.mp ht ▸ hp _ hs
  hashable := by
    rw [Bool.eq_iff_iff, Shape.hashable, Shape.hashable, hashableAll_iff, hashableAll_iff,
      List.forall_mem_flatMap]
    refine forall₂_congr fun s _ => (forall_mem_spliced_iff Shape.hashable fun ts => ?_).symm
    rw [Shape.hashable, hashableAll_iff]
  encodable := by
    rw [Bool.eq_iff_iff, Shape.encodable, Shape.encodable, encodableAll_iff, encodableAll_iff,
      List.forall_mem_flatMap]
    refine forall₂_congr fun s _ => (forall_mem_spliced_iff Shape.encodable fun ts => ?_).symm
    rw [Shape.encodable, encodableAll_iff]
  keyForm := rfl
  keyCandidates _ := rfl
  conforms o v := by
    rw [← any_spliced, ← any_spliced (s := union _), spliced, spliced, List.any_flatMap]
    simp only [any_spliced]
  encodes o v j := by
    rw [encodeValue_branches?_eq_ok_iff (s := union ss) rfl,
      encodeValue_branches?_eq_ok_iff (s := union _) rfl]
    refine List.exists_find?_flatMap_iff (fun _ => any_spliced.symm) fun s hs => ?_
    cases s with
    | union ts => exact encodeValue_branches?_eq_ok_iff rfl
    | _ => simp [spliced, hs]
  decodes o j v := by
    rw [decodeJson_branches?_eq_ok_iff_findSome? (s := union ss) rfl,
      decodeJson_branches?_eq_ok_iff_findSome? (s := union _) rfl, List.findSome?_flatMap]
    simp only [findSome?_spliced]

/-! ## The laws throughout -/

/-- A flattened shape does what the shape does: made alike from the flattened parts it does, and
then by the two laws. -/
theorem flattened_replaceableBy (s : Shape) : ReplaceableBy s s.flattened := by
  induction s using inductionParts with
  | step s ih =>
  cases s with
  | sequence k s =>
    rw [flattened]
    exact (MadeAlike.sequence (ih s (by simp))).replaceableBy
  | tuple ss =>
    rw [flattened, flattenedAll_eq]
    refine (MadeAlike.tuple ?_).replaceableBy
    exact List.forall₂_map_right_iff.mpr (List.forall₂_same.mpr ih)
  | mapping k key value =>
    rw [flattened]
    exact (MadeAlike.mapping (ih key (by simp)) (ih value (by simp))).replaceableBy
  | optional s =>
    have inner := (MadeAlike.optional (ih s (by simp))).replaceableBy
    have outer := union_replaceableBy [s.flattened, none]
    rw [flattened]
    exact inner.trans ((optional_replaceableBy _).trans outer)
  | union ss =>
    have inner : ReplaceableBy (union ss) (union (ss.map flattened)) :=
      (MadeAlike.union (List.forall₂_map_right_iff.mpr (List.forall₂_same.mpr ih))).replaceableBy
    rw [flattened, flattenedAll_eq]
    exact inner.trans (union_replaceableBy _)
  | record name fs =>
    rw [flattened, flattenedFields_eq]
    refine (MadeAlike.record ?_).replaceableBy
    rw [List.forall₂_map_right_iff, List.forall₂_same]
    exact fun f hf => ⟨rfl, rfl, ih f.shape (mem_parts_record hf)⟩
  | typedDict name ks =>
    rw [flattened, flattenedKeys_eq]
    refine (MadeAlike.typedDict ?_).replaceableBy
    rw [List.forall₂_map_right_iff, List.forall₂_same]
    exact fun k hk => ⟨rfl, rfl, ih k.shape (mem_parts_typedDict hk)⟩
  | _ => exact .refl _

/-- A shape with no optional part, whose unions have no unions among their branches. -/
def Flat (s : Shape) : Prop :=
  ∀ t, Within t s → (∀ u, t ≠ optional u) ∧ ∀ ss, t = union ss → ∀ u ∈ ss, ∀ us, u ≠ union us

theorem flat_iff : s.Flat ↔ ((∀ u, s ≠ optional u) ∧
    ∀ ss, s = union ss → ∀ u ∈ ss, ∀ us, u ≠ union us) ∧ ∀ p ∈ s.parts, p.Flat :=
  forall_within_iff

theorem flat_of_branches?_eq_none (hb : s.branches? = Option.none)
    (hp : ∀ p ∈ s.parts, p.Flat) : s.Flat := by
  refine flat_iff.mpr ⟨⟨?_, ?_⟩, hp⟩
  · rintro u rfl
    cases hb
  · rintro ss rfl
    cases hb

theorem Flat.of_mem_spliced (h : s.Flat) (ht : t ∈ s.spliced) :
    t.Flat ∧ ∀ us, t ≠ union us := by
  obtain ⟨⟨-, hu⟩, hp⟩ := flat_iff.mp h
  cases s with
  | union ss => exact ⟨hp t ht, hu ss rfl t ht⟩
  | _ =>
    obtain rfl := List.mem_singleton.mp ht
    exact ⟨h, by simp⟩

theorem flat_union (h : ∀ t ∈ ss, t.Flat ∧ ∀ us, t ≠ union us) : (union ss).Flat := by
  refine flat_iff.mpr ⟨⟨by simp, ?_⟩, fun t ht => (h t ht).1⟩
  rintro _ ⟨⟩ t ht
  exact (h t ht).2

theorem flat_flattened (s : Shape) : s.flattened.Flat := by
  induction s using inductionParts with
  | step s ih =>
  cases s with
  | sequence k s =>
    exact flat_of_branches?_eq_none rfl (List.forall_mem_singleton.mpr (ih s (by simp)))
  | tuple ss =>
    rw [flattened, flattenedAll_eq]
    exact flat_of_branches?_eq_none rfl (List.forall_mem_map.mpr ih)
  | mapping k key value =>
    refine flat_of_branches?_eq_none rfl (List.forall_mem_pair.mpr ⟨?_, ?_⟩)
    · exact ih key (by simp)
    · exact ih value (by simp)
  | optional s =>
    refine flat_union fun t ht => ?_
    rcases List.mem_append.mp ht with ht | ht
    · exact (ih s (by simp)).of_mem_spliced ht
    · obtain rfl := List.mem_singleton.mp ht
      exact ⟨flat_of_branches?_eq_none rfl (List.forall_mem_nil _), by simp⟩
  | union ss =>
    rw [flattened, flattenedAll_eq]
    refine flat_union fun t ht => ?_
    obtain ⟨u, hu, ht⟩ := List.mem_flatMap.mp ht
    obtain ⟨r, hr, rfl⟩ := List.mem_map.mp hu
    exact (ih r hr).of_mem_spliced ht
  | record name fs =>
    rw [flattened, flattenedFields_eq]
    refine flat_of_branches?_eq_none rfl ?_
    rw [parts, List.map_map, List.forall_mem_map]
    exact fun f hf => ih f.shape (mem_parts_record hf)
  | typedDict name ks =>
    rw [flattened, flattenedKeys_eq]
    refine flat_of_branches?_eq_none rfl ?_
    rw [parts, List.map_map, List.forall_mem_map]
    exact fun k hk => ih k.shape (mem_parts_typedDict hk)
  | _ => exact flat_of_branches?_eq_none rfl (List.forall_mem_nil _)

end Shape

/-- A checkable shape and its flattened form, which has no optional parts and no unions among the
branches of unions, cannot be told apart: both pass the same judgments, have the same instances,
encode the same values to the same trees and decode the same trees to the same values. -/
theorem flattened_preserves_meaning (s : Shape) (hs : (s.judge .checkable).holds = true) :
    s.flattened.Flat ∧
    (∀ judgment, (s.flattened.judge judgment).holds = (s.judge judgment).holds) ∧
    ∀ o, (∀ v, ∃ holds log log', isInstance o s v = .ok ⟨holds, log⟩ ∧
        isInstance o s.flattened v = .ok ⟨holds, log'⟩) ∧
      (∀ v, (encode o s.flattened v).toOption = (encode o s v).toOption) ∧
      ∀ j, (decode o s.flattened j).toOption = (decode o s j).toOption := by
  have h := s.flattened_replaceableBy
  have hc : s.checkable = true := hs
  have hf : s.flattened.checkable = true := h.checkable hc
  have satisfies : ∀ judgment, s.flattened.satisfies judgment = s.satisfies judgment := by
    intro judgment
    cases judgment <;> simp [Shape.satisfies, hc, hf, h.hashable, h.encodable]
  refine ⟨s.flat_flattened, satisfies, fun o => ⟨fun v => ?_, fun v => ?_, fun j => ?_⟩⟩
  · refine ⟨s.conforms o v, _, ⟨s.flattened.complaints o v⟩, isInstance_of_checkable hc, ?_⟩
    rw [h.conforms, isInstance_of_checkable hf]
  · refine toOption_eq_of_ok_iff fun j => ?_
    rw [encode_eq_ok_iff, encode_eq_ok_iff, satisfies, h.conforms, h.encodes]
  · refine toOption_eq_of_ok_iff fun v => ?_
    rw [decode_eq_ok_iff, decode_eq_ok_iff, satisfies, h.decodes]

def nestedChoices : Shape :=
  .record "Choice" [
    ⟨"by", .mapping .dict (.optional (.union [.int, .optional (.union [.str, .bool])])) .int,
      none⟩,
    ⟨"first", .union [.optional .str, .union [.int, .union [.bool, .float]]], some .none⟩]

theorem flattened_preserves_meaning_nestedChoices :
    nestedChoices.flattened = .record "Choice" [
      ⟨"by", .mapping .dict (.union [.int, .str, .bool, .none, .none]) .int, none⟩,
      ⟨"first", .union [.str, .none, .int, .bool, .float], some .none⟩] ∧
    (nestedChoices.judge .checkable).holds = true ∧
    (nestedChoices.flattened.judge .encodable).holds = (nestedChoices.judge .encodable).holds ∧
    ∀ o j, (decode o nestedChoices.flattened j).toOption = (decode o nestedChoices j).toOption := by
  have hs : (nestedChoices.judge .checkable).holds = true := by decide
  obtain ⟨-, judgments, engines⟩ := flattened_preserves_meaning nestedChoices hs
  exact ⟨rfl, hs, judgments .encodable, fun o => (engines o).2.2⟩

end ShapeCodec
