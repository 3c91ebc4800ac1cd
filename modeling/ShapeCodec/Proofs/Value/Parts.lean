import ShapeCodec.Value.Sameness
import ShapeCodec.Proofs.Lists

/-! # Parts of a value

The values that a value holds and the induction over them. A value is well formed when its sets and
maps, at any depth, hold pairwise different members and keys, as they do when they are built by
`insert` and `put`.
-/

namespace ShapeCodec

namespace Value

def parts : Value → List Value
  | sequence _ xs => xs
  | map _ es => es.map (·.1) ++ es.map (·.2)
  | record _ fs => fs.map (·.2)
  | _ => []

@[simp] theorem parts_sequence (kind : SequenceKind) (xs : List Value) :
    (sequence kind xs).parts = xs := rfl

@[simp] theorem parts_map (kind : MapKind) (es : List (Value × Value)) :
    (map kind es).parts = es.map (·.1) ++ es.map (·.2) := rfl

@[simp] theorem parts_record (name : String) (fs : List (String × Value)) :
    (record name fs).parts = fs.map (·.2) := rfl

inductive Within (w : Value) : Value → Prop
  | here : Within w w
  | part {v p : Value} : p ∈ v.parts → Within w p → Within w v

theorem mem_parts_map {kind : MapKind} {es : List (Value × Value)} {e : Value × Value}
    (h : e ∈ es) : e.1 ∈ (map kind es).parts ∧ e.2 ∈ (map kind es).parts :=
  ⟨List.mem_append_left _ (List.mem_map.mpr ⟨e, h, rfl⟩),
    List.mem_append_right _ (List.mem_map.mpr ⟨e, h, rfl⟩)⟩

theorem mem_parts_record {name : String} {fs : List (String × Value)} {p : String × Value}
    (h : p ∈ fs) : p.2 ∈ (record name fs).parts := List.mem_map.mpr ⟨p, h, rfl⟩

theorem sizeOf_lt_of_mem_parts {v p : Value} (h : p ∈ v.parts) : sizeOf p < sizeOf v := by
  cases v <;> simp only [parts, List.not_mem_nil, List.mem_append, List.mem_map] at h
  case sequence =>
    have := List.sizeOf_lt_of_mem h
    simp only [sequence.sizeOf_spec]; omega
  case map =>
    rcases h with ⟨⟨x, y⟩, he, rfl⟩ | ⟨⟨x, y⟩, he, rfl⟩
    all_goals
      have := List.sizeOf_lt_of_mem he
      simp only [map.sizeOf_spec, Prod.mk.sizeOf_spec] at this ⊢; omega
  case record =>
    obtain ⟨⟨n, x⟩, he, rfl⟩ := h
    have := List.sizeOf_lt_of_mem he
    simp only [record.sizeOf_spec, Prod.mk.sizeOf_spec] at this ⊢; omega

/-- Induction over a value from its parts. -/
@[elab_as_elim]
theorem inductionParts {motive : Value → Prop}
    (step : ∀ v, (∀ p ∈ v.parts, motive p) → motive v) (v : Value) : motive v :=
  step v fun p _ => inductionParts step p
termination_by sizeOf v
decreasing_by exact sizeOf_lt_of_mem_parts ‹_›

theorem within_iff {w v : Value} : Within w v ↔ w = v ∨ ∃ p ∈ v.parts, Within w p := by
  constructor
  · rintro (_ | ⟨hp, h⟩)
    · exact .inl rfl
    · exact .inr ⟨_, hp, h⟩
  · rintro (rfl | ⟨p, hp, h⟩)
    · exact .here
    · exact .part hp h

/-- No member of a set and no key of a map is the same as one that came in before. -/
def Distinct : Value → Prop
  | sequence k xs => k.isSet = true → xs.Pairwise fun a b => b.same a = false
  | map _ es => es.Pairwise fun a b => b.1.same a.1 = false
  | _ => True

/-- Sets and maps at any depth hold pairwise different members and keys. -/
def WellFormed (v : Value) : Prop := ∀ w, Within w v → w.Distinct

theorem wellFormed_iff {v : Value} :
    v.WellFormed ↔ v.Distinct ∧ ∀ p ∈ v.parts, p.WellFormed := by
  constructor
  · exact fun h => ⟨h v .here, fun p hp w hw => h w (.part hp hw)⟩
  · rintro ⟨hd, hp⟩ w (_ | ⟨hm, hw⟩)
    · exact hd
    · exact hp _ hm w hw

theorem WellFormed.part {v p : Value} (h : v.WellFormed) (hp : p ∈ v.parts) : p.WellFormed :=
  (wellFormed_iff.mp h).2 p hp

theorem WellFormed.distinct {v : Value} (h : v.WellFormed) : v.Distinct := h v .here

theorem WellFormed.key {kind : MapKind} {es : List (Value × Value)} {e : Value × Value}
    (h : (map kind es).WellFormed) (he : e ∈ es) : e.1.WellFormed :=
  h.part (mem_parts_map he).1

theorem WellFormed.value {kind : MapKind} {es : List (Value × Value)} {e : Value × Value}
    (h : (map kind es).WellFormed) (he : e ∈ es) : e.2.WellFormed :=
  h.part (mem_parts_map he).2

theorem WellFormed.field {name : String} {fs : List (String × Value)} {p : String × Value}
    (h : (record name fs).WellFormed) (hp : p ∈ fs) : p.2.WellFormed :=
  h.part (mem_parts_record hp)

theorem wellFormed_of_parts_eq_nil {v : Value} (h : v.parts = []) : v.WellFormed := by
  refine wellFormed_iff.mpr ⟨?_, by simp [h]⟩
  cases v with
  | sequence k xs =>
    obtain rfl : xs = [] := h
    exact fun _ => .nil
  | map k es =>
    obtain rfl : es = [] := by simpa using h
    exact .nil
  | _ => trivial

@[simp] theorem wellFormed_sequence_iff {k : SequenceKind} {xs : List Value} :
    (sequence k xs).WellFormed ↔
      (k.isSet = true → xs.Pairwise fun a b => b.same a = false) ∧ ∀ x ∈ xs, x.WellFormed :=
  wellFormed_iff

@[simp] theorem wellFormed_map_iff {k : MapKind} {es : List (Value × Value)} :
    (map k es).WellFormed ↔ (es.Pairwise fun a b => b.1.same a.1 = false) ∧
      ∀ e ∈ es, e.1.WellFormed ∧ e.2.WellFormed := by
  rw [wellFormed_iff]
  refine and_congr_right fun _ => ⟨fun h e he => ⟨h _ (mem_parts_map he).1,
    h _ (mem_parts_map he).2⟩, fun h p hp => ?_⟩
  rcases List.mem_append.mp hp with hp | hp
  · obtain ⟨e, he, rfl⟩ := List.mem_map.mp hp
    exact (h e he).1
  · obtain ⟨e, he, rfl⟩ := List.mem_map.mp hp
    exact (h e he).2

theorem wellFormed_record_iff {n : String} {fs : List (String × Value)} :
    (record n fs).WellFormed ↔ ∀ p ∈ fs, p.2.WellFormed := by
  rw [wellFormed_iff]
  exact (and_iff_right trivial).trans List.forall_mem_map

/-- The members of a set that is built from items are pairwise different, and no others. -/
theorem distinct_spec (xs : List Value) :
    (∀ x ∈ distinct xs, x ∈ xs) ∧ (distinct xs).Pairwise fun a b => b.same a = false := by
  have key : ∀ (xs members : List Value), members.Pairwise (fun a b => b.same a = false) →
      (∀ x ∈ xs.foldl insert members, x ∈ members ∨ x ∈ xs) ∧
        (xs.foldl insert members).Pairwise fun a b => b.same a = false := by
    intro xs
    induction xs with
    | nil => exact fun members h => ⟨fun x hx => .inl hx, h⟩
    | cons y xs ih =>
      intro members h
      rw [List.foldl_cons, insert]
      split
      · obtain ⟨hm, hp⟩ := ih members h
        exact ⟨fun x hx => (hm x hx).imp_right (List.mem_cons_of_mem _), hp⟩
      · rename_i hy
        have hy : ∀ m ∈ members, y.same m = false := by simpa using hy
        obtain ⟨hm, hp⟩ := ih (members ++ [y])
          (List.pairwise_append.mpr ⟨h, List.pairwise_singleton _ _, by simpa using hy⟩)
        refine ⟨fun x hx => ?_, hp⟩
        rcases hm x hx with h' | h'
        · rcases List.mem_append.mp h' with h' | h'
          · exact .inl h'
          · exact .inr (List.mem_singleton.mp h' ▸ List.mem_cons_self)
        · exact .inr (List.mem_cons_of_mem _ h')
  have h := key xs [] .nil
  simpa [distinct] using h

theorem mem_of_mem_distinct {xs : List Value} {x : Value} (h : x ∈ distinct xs) : x ∈ xs :=
  (distinct_spec xs).1 x h

/-- A sequence that is built from items holds nothing else, whether it is a set or not. -/
theorem mem_of_mem_items {c : Prop} [Decidable c] {xs : List Value} {x : Value}
    (h : x ∈ if c then distinct xs else xs) : x ∈ xs := by
  split at h
  · exact mem_of_mem_distinct h
  · exact h

theorem distinct_eq_self {xs : List Value} (h : xs.Pairwise fun a b => b.same a = false) :
    distinct xs = xs := by
  have key : ∀ (xs members : List Value),
      (members ++ xs).Pairwise (fun a b => b.same a = false) →
        xs.foldl insert members = members ++ xs := by
    intro xs
    induction xs with
    | nil => simp
    | cons y xs ih =>
      intro members h
      have hy : ∀ m ∈ members, y.same m = false := fun m hm =>
        (List.pairwise_append.mp h).2.2 m hm y List.mem_cons_self
      rw [List.foldl_cons, insert, if_neg (by simpa using hy), ih _ (by simpa using h)]
      simp
  exact key xs [] h

end Value

end ShapeCodec
