import ShapeCodec.Classification
import ShapeCodec.Proofs.Lists

/-! # Parts of a shape

The shapes that a shape is made of, the induction over them, and what the judgments say about
them. Occurrences are the reflexive and transitive closure of being a part.
-/

namespace ShapeCodec

namespace Shape

def parts : Shape → List Shape
  | sequence _ s => [s]
  | tuple ss => ss
  | mapping _ key value => [key, value]
  | optional s => [s]
  | union ss => ss
  | record _ fs => fs.map (·.shape)
  | typedDict _ ks => ks.map (·.shape)
  | _ => []

@[simp] theorem parts_sequence (kind : SequenceKind) (s : Shape) : (sequence kind s).parts = [s] :=
  rfl

@[simp] theorem parts_tuple (ss : List Shape) : (tuple ss).parts = ss := rfl

@[simp] theorem parts_mapping (kind : MappingKind) (key value : Shape) :
    (mapping kind key value).parts = [key, value] := rfl

@[simp] theorem parts_optional (s : Shape) : (optional s).parts = [s] := rfl

@[simp] theorem parts_union (ss : List Shape) : (union ss).parts = ss := rfl

@[simp] theorem parts_record (name : String) (fs : List (Field Shape)) :
    (record name fs).parts = fs.map (·.shape) := rfl

@[simp] theorem parts_typedDict (name : String) (ks : List (Key Shape)) :
    (typedDict name ks).parts = ks.map (·.shape) := rfl

inductive Within (t : Shape) : Shape → Prop
  | here : Within t t
  | part {s p : Shape} : p ∈ s.parts → Within t p → Within t s

theorem sizeOf_lt_of_mem_parts {s p : Shape} (h : p ∈ s.parts) : sizeOf p < sizeOf s := by
  cases s <;> simp only [parts, List.mem_cons, List.not_mem_nil, or_false, List.mem_map] at h
  case sequence => subst h; simp only [sequence.sizeOf_spec]; omega
  case optional => subst h; simp only [optional.sizeOf_spec]; omega
  case mapping => rcases h with rfl | rfl <;> simp only [mapping.sizeOf_spec] <;> omega
  case tuple =>
    have := List.sizeOf_lt_of_mem h
    simp only [tuple.sizeOf_spec]; omega
  case union =>
    have := List.sizeOf_lt_of_mem h
    simp only [union.sizeOf_spec]; omega
  case record name fs =>
    obtain ⟨f, hf, rfl⟩ := h
    have := List.sizeOf_lt_of_mem hf
    cases f
    simp only [record.sizeOf_spec, Field.mk.sizeOf_spec] at this ⊢; omega
  case typedDict name ks =>
    obtain ⟨k, hk, rfl⟩ := h
    have := List.sizeOf_lt_of_mem hk
    cases k
    simp only [typedDict.sizeOf_spec, Key.mk.sizeOf_spec] at this ⊢; omega

@[elab_as_elim]
theorem inductionParts {motive : Shape → Prop}
    (step : ∀ s, (∀ p ∈ s.parts, motive p) → motive s) (s : Shape) : motive s :=
  step s fun p _ => inductionParts step p
termination_by sizeOf s
decreasing_by exact sizeOf_lt_of_mem_parts ‹_›

theorem mem_parts_record {name : String} {fs : List (Field Shape)} {f : Field Shape}
    (h : f ∈ fs) : f.shape ∈ (record name fs).parts := List.mem_map.mpr ⟨f, h, rfl⟩

theorem mem_parts_typedDict {name : String} {ks : List (Key Shape)} {k : Key Shape}
    (h : k ∈ ks) : k.shape ∈ (typedDict name ks).parts := List.mem_map.mpr ⟨k, h, rfl⟩

theorem Within.eq_of_parts_eq_nil {s t : Shape} (h : Within t s) (hs : s.parts = []) : t = s := by
  rcases h with _ | ⟨hp, _⟩
  · rfl
  · rw [hs] at hp
    cases hp

theorem Within.trans {r s t : Shape} (h : Within r s) (h' : Within s t) : Within r t := by
  induction h' with
  | here => exact h
  | part hp _ ih => exact .part hp ih

theorem mem_parts_of_branches? {s t : Shape} {ss : List Shape} (hb : s.branches? = some ss)
    (ht : t ∈ ss) : t ∈ s.parts ∨ t = none := by
  cases s <;> cases hb
  · simpa using ht
  · exact .inl ht

theorem forall_within_iff {motive : Shape → Prop} {s : Shape} :
    (∀ t, Within t s → motive t) ↔ motive s ∧ ∀ p ∈ s.parts, ∀ t, Within t p → motive t := by
  constructor
  · exact fun h => ⟨h s .here, fun p hp t ht => h t (.part hp ht)⟩
  · rintro ⟨hs, hp⟩ t (_ | ⟨hm, ht⟩)
    · exact hs
    · exact hp _ hm t ht

/-! ## Height -/

mutual

def height : Shape → Nat
  | sequence _ s => height s + 1
  | tuple ss => heightAll ss
  | mapping _ key value => max (height key + 1) (height value + 1)
  | optional s => height s + 1
  | union ss => heightAll ss
  | record _ fs => heightFields fs
  | typedDict _ ks => heightKeys ks
  | _ => 0

def heightAll : List Shape → Nat
  | [] => 0
  | s :: ss => max (height s + 1) (heightAll ss)

def heightFields : List (Field Shape) → Nat
  | [] => 0
  | f :: fs => max (height f.shape + 1) (heightFields fs)

def heightKeys : List (Key Shape) → Nat
  | [] => 0
  | k :: ks => max (height k.shape + 1) (heightKeys ks)

end

theorem heightFields_eq (fs : List (Field Shape)) :
    heightFields fs = heightAll (fs.map (·.shape)) := by
  induction fs with
  | nil => rfl
  | cons f fs ih => simp only [heightFields, heightAll, List.map_cons, ih]

theorem heightKeys_eq (ks : List (Key Shape)) :
    heightKeys ks = heightAll (ks.map (·.shape)) := by
  induction ks with
  | nil => rfl
  | cons k ks ih => simp only [heightKeys, heightAll, List.map_cons, ih]

theorem height_lt_heightAll {ss : List Shape} {s : Shape} (h : s ∈ ss) :
    height s < heightAll ss := by
  induction ss with
  | nil => cases h
  | cons t ss ih =>
    rcases List.mem_cons.mp h with rfl | h
    · simp only [heightAll]; omega
    · have := ih h
      simp only [heightAll]; omega

theorem height_lt_of_mem_parts {s p : Shape} (h : p ∈ s.parts) : height p < height s := by
  have key : ∀ s : Shape, s.height = heightAll s.parts := by
    intro s
    cases s <;> simp [height, parts, heightAll, heightFields_eq, heightKeys_eq]
  rw [key s]
  exact height_lt_heightAll h

/-! ## Judgments and parts -/

theorem checkableAll_iff {ss : List Shape} :
    checkableAll ss = true ↔ ∀ s ∈ ss, checkable s = true := by
  induction ss with
  | nil => simp [checkableAll]
  | cons s ss ih => simp [checkableAll, ih]

theorem checkableFields_iff {fs : List (Field Shape)} :
    checkableFields fs = true ↔ ∀ f ∈ fs, checkable f.shape = true ∧
      ∀ v, f.default? = some v → conforms Settings.standard.strict f.shape v = true := by
  induction fs with
  | nil => simp [checkableFields]
  | cons f fs ih => simp [checkableFields, ih, Option.all_eq_true]

theorem checkableKeys_iff {ks : List (Key Shape)} :
    checkableKeys ks = true ↔ ∀ k ∈ ks, checkable k.shape = true := by
  induction ks with
  | nil => simp [checkableKeys]
  | cons k ks ih => simp [checkableKeys, ih]

/-- What is asked of a shape itself, its parts aside, to be checked against. -/
def WellMade : Shape → Prop
  | union ss => 2 ≤ ss.length
  | literal ls => ls ≠ []
  | record _ fs => (fs.map (·.name)).Nodup ∧ ∀ f ∈ fs, ∀ v, f.default? = some v →
      conforms Settings.standard.strict f.shape v = true
  | enum _ ms => (ms.map (·.name)).Nodup
  | typedDict _ ks => (ks.map (·.name)).Nodup
  | _ => True

theorem checkable_iff {s : Shape} :
    checkable s = true ↔ s.WellMade ∧ ∀ p ∈ s.parts, checkable p = true := by
  cases s with
  | record name fs =>
    simp only [checkable, checkableFields_iff, WellMade, parts, Bool.and_eq_true,
      decide_eq_true_eq, List.forall_mem_map]
    constructor
    · rintro ⟨hn, hf⟩
      exact ⟨⟨hn, fun f hm => (hf f hm).2⟩, fun f hm => (hf f hm).1⟩
    · rintro ⟨⟨hn, hd⟩, hc⟩
      exact ⟨hn, fun f hm => ⟨hc f hm, hd f hm⟩⟩
  | _ => simp [checkable, checkableAll_iff, checkableKeys_iff, WellMade, parts]

theorem checkable_of_mem_parts {s p : Shape} (hs : checkable s = true) (h : p ∈ s.parts) :
    checkable p = true := (checkable_iff.mp hs).2 p h

theorem nodup_of_checkable_record {name : String} {fs : List (Field Shape)}
    (h : (record name fs).checkable = true) : (fs.map (·.name)).Nodup := by
  simp only [checkable, Bool.and_eq_true, decide_eq_true_eq] at h
  exact h.1

theorem nodup_of_checkable_typedDict {name : String} {ks : List (Key Shape)}
    (h : (typedDict name ks).checkable = true) : (ks.map (·.name)).Nodup := by
  simp only [checkable, Bool.and_eq_true, decide_eq_true_eq] at h
  exact h.1

theorem encodableAll_iff {ss : List Shape} :
    encodableAll ss = true ↔ ∀ s ∈ ss, encodable s = true := by
  induction ss with
  | nil => simp [encodableAll]
  | cons s ss ih => simp [encodableAll, ih]

theorem encodableFields_iff {fs : List (Field Shape)} :
    encodableFields fs = true ↔ ∀ f ∈ fs, encodable f.shape = true := by
  induction fs with
  | nil => simp [encodableFields]
  | cons f fs ih => simp [encodableFields, ih]

theorem encodableKeys_iff {ks : List (Key Shape)} :
    encodableKeys ks = true ↔ ∀ k ∈ ks, encodable k.shape = true := by
  induction ks with
  | nil => simp [encodableKeys]
  | cons k ks ih => simp [encodableKeys, ih]

/-- A shape whose instances can change, or are not known. -/
def Mutable : Shape → Prop
  | any => True
  | sequence k _ => k = .list ∨ k = .deque ∨ k = .set
  | mapping _ _ _ => True
  | typedDict _ _ => True
  | _ => False

theorem hashableAll_iff {ss : List Shape} :
    hashableAll ss = true ↔ ∀ s ∈ ss, hashable s = true := by
  induction ss with
  | nil => simp [hashableAll]
  | cons s ss ih => simp [hashableAll, ih]

theorem hashableFields_iff {fs : List (Field Shape)} :
    hashableFields fs = true ↔ ∀ f ∈ fs, hashable f.shape = true := by
  induction fs with
  | nil => simp [hashableFields]
  | cons f fs ih => simp [hashableFields, ih]

theorem hashable_iff {s : Shape} :
    hashable s = true ↔ ¬ s.Mutable ∧ ∀ p ∈ s.parts, hashable p = true := by
  cases s with
  | sequence k s => cases k <;> simp [hashable, Mutable, parts]
  | _ => simp [hashable, hashableAll_iff, hashableFields_iff, Mutable, parts]

/-- What is asked of a shape itself, its parts aside, for its instances to have a JSON form. -/
def Writable : Shape → Prop
  | any => False
  | mapping _ key _ => hashable key = true
  | literal ls => ∀ x, Literal.float x ∈ ls → x.isFinite = true
  | _ => True

theorem all_isEncodable_iff {ls : List Literal} :
    ls.all (·.isEncodable) = true ↔ ∀ x, Literal.float x ∈ ls → x.isFinite = true := by
  rw [List.all_eq_true]
  constructor
  · intro h x hx
    exact h _ hx
  · intro h l hl
    cases l with
    | float x => exact h x hl
    | _ => rfl

theorem encodable_iff {s : Shape} :
    encodable s = true ↔ s.Writable ∧ ∀ p ∈ s.parts, encodable p = true := by
  cases s with
  | mapping k key value =>
    simp only [encodable, Writable, parts, Bool.and_eq_true, List.forall_mem_pair]
    tauto
  | literal ls => simp [encodable, Writable, parts, ← all_isEncodable_iff]
  | _ =>
    simp [encodable, encodableAll_iff, encodableFields_iff, encodableKeys_iff, Writable, parts]

theorem encodable_of_mem_parts {s p : Shape} (hs : encodable s = true) (h : p ∈ s.parts) :
    encodable p = true := (encodable_iff.mp hs).2 p h

end Shape

end ShapeCodec
