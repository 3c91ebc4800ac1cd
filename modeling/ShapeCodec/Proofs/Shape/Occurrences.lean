import Mathlib.Data.List.Basic
import ShapeCodec.Proofs.Shape.Parts

/-! # Occurrences in a shape

One shape may occur at many places of another. A place says which part to go to, from the outside
in. The occurrences are listed with the parts from left to right and each shape after its parts.
-/

namespace ShapeCodec

namespace Shape

def at? (s : Shape) : List Nat → Option Shape
  | [] => some s
  | i :: place => s.parts[i]?.bind (·.at? place)

theorem checkable_of_at? {s t : Shape} {place : List Nat} (hs : checkable s = true)
    (h : s.at? place = some t) : checkable t = true := by
  induction place generalizing s with
  | nil =>
    obtain rfl : s = t := Option.some.inj h
    exact hs
  | cons i place ih =>
    obtain ⟨p, hp, ht⟩ := Option.bind_eq_some_iff.mp h
    exact ih (checkable_of_mem_parts hs (List.mem_of_getElem? hp)) ht

/-- True of the place of the key among the parts of a mapping. -/
def holdsKeyAt : Shape → Nat → Bool
  | mapping _ _ _, 0 => true
  | _, _ => false

/-- A shape at a place, which may be that of the key of a mapping. -/
structure Occurrence where
  place : List Nat
  shape : Shape
  isKey : Bool

def Occurrence.under (i : Nat) (o : Occurrence) : Occurrence := { o with place := i :: o.place }

def occurrencesAs (isKey : Bool) (s : Shape) : List Occurrence :=
  (s.parts.attach.zipIdx.flatMap fun q =>
    (occurrencesAs (s.holdsKeyAt q.2) q.1.1).map (.under q.2)) ++ [⟨[], s, isKey⟩]
termination_by sizeOf s
decreasing_by exact sizeOf_lt_of_mem_parts q.1.2

def occurrences (s : Shape) : List Occurrence := s.occurrencesAs false

theorem occurrencesAs_eq (isKey : Bool) (s : Shape) :
    s.occurrencesAs isKey = (s.parts.zipIdx.flatMap fun q =>
      (q.1.occurrencesAs (s.holdsKeyAt q.2)).map (.under q.2)) ++ [⟨[], s, isKey⟩] := by
  have hp : s.parts.zipIdx = s.parts.attach.zipIdx.map (Prod.map (·.1) id) := by
    rw [← List.zipIdx_map, List.attach_map_subtype_val]
  rw [occurrencesAs, hp, List.flatMap_map]
  rfl

theorem under_mem_occurrencesAs {isKey : Bool} {s t : Shape} {i : Nat} (hi : s.parts[i]? = some t)
    {o : Occurrence} (ho : o ∈ t.occurrencesAs (s.holdsKeyAt i)) :
    o.under i ∈ s.occurrencesAs isKey := by
  rw [occurrencesAs_eq]
  apply List.mem_append_left
  apply List.mem_flatMap.mpr
  exact ⟨(t, i), List.mem_zipIdx_iff_getElem?.mpr hi, List.mem_map_of_mem ho⟩

theorem self_mem_occurrencesAs (isKey : Bool) (s : Shape) :
    ⟨[], s, isKey⟩ ∈ s.occurrencesAs isKey := by
  rw [occurrencesAs_eq]
  exact List.mem_append_right _ (List.mem_singleton_self _)

theorem exists_mem_occurrencesAs {s t : Shape} {place : List Nat} (h : s.at? place = some t)
    (isKey : Bool) : ∃ key, ⟨place, t, key⟩ ∈ s.occurrencesAs isKey := by
  induction place generalizing s isKey with
  | nil =>
    obtain rfl : s = t := Option.some.inj h
    exact ⟨isKey, self_mem_occurrencesAs isKey s⟩
  | cons i place ih =>
    obtain ⟨p, hp, ht⟩ := Option.bind_eq_some_iff.mp h
    obtain ⟨key, hk⟩ := ih ht (s.holdsKeyAt i)
    exact ⟨key, under_mem_occurrencesAs hp hk⟩

theorem key_mem_occurrencesAs {s : Shape} {place : List Nat} {kind : MappingKind}
    {key value : Shape} (h : s.at? place = some (mapping kind key value)) (isKey : Bool) :
    ⟨place ++ [0], key, true⟩ ∈ s.occurrencesAs isKey := by
  induction place generalizing s isKey with
  | nil =>
    obtain rfl : s = mapping kind key value := Option.some.inj h
    have hkey : (mapping kind key value).parts[0]? = some key := rfl
    exact under_mem_occurrencesAs hkey (self_mem_occurrencesAs true key)
  | cons i place ih =>
    obtain ⟨p, hp, ht⟩ := Option.bind_eq_some_iff.mp h
    exact under_mem_occurrencesAs hp (ih ht (s.holdsKeyAt i))

theorem at?_of_mem_occurrencesAs {isKey : Bool} {s : Shape} {o : Occurrence}
    (h : o ∈ s.occurrencesAs isKey) : s.at? o.place = some o.shape := by
  induction s using inductionParts generalizing isKey o with
  | step s ih =>
  rw [occurrencesAs_eq, List.mem_append] at h
  rcases h with h | h
  · obtain ⟨q, hq, ho⟩ := List.mem_flatMap.mp h
    obtain ⟨inner, hinner, rfl⟩ := List.mem_map.mp ho
    have hi : s.parts[q.2]? = some q.1 := List.mem_zipIdx_iff_getElem?.mp hq
    exact Option.bind_eq_some_iff.mpr ⟨q.1, hi, ih q.1 (List.fst_mem_of_mem_zipIdx hq) hinner⟩
  · obtain rfl := List.mem_singleton.mp h
    rfl

/-! ## The order of places -/

/-- In post-order a place comes before those that enclose it, and of two places in different parts
of one shape that in the part further left comes first. -/
inductive PostOrder : List Nat → List Nat → Prop
  | enclosed (i : Nat) (place : List Nat) : PostOrder (i :: place) []
  | left {i j : Nat} (hij : i < j) (place place' : List Nat) :
    PostOrder (i :: place) (j :: place')
  | under (i : Nat) {place place' : List Nat} (h : PostOrder place place') :
    PostOrder (i :: place) (i :: place')

theorem PostOrder.not_isPrefix {place place' : List Nat} (h : PostOrder place place') :
    ¬ place <+: place' := by
  induction h with
  | enclosed i place => exact fun hp => nomatch List.prefix_nil.mp hp
  | left hij => exact fun hp => hij.ne (List.cons_prefix_cons.mp hp).1
  | under i _ ih => exact fun hp => ih (List.cons_prefix_cons.mp hp).2

theorem postOrder_occurrencesAs (isKey : Bool) (s : Shape) :
    (s.occurrencesAs isKey).Pairwise fun o o' => PostOrder o.place o'.place := by
  induction s using inductionParts generalizing isKey with
  | step s ih =>
  rw [occurrencesAs_eq, List.pairwise_append, List.pairwise_flatMap]
  refine ⟨⟨?parts, ?between⟩, List.pairwise_singleton _ _, ?whole⟩
  case parts =>
    intro q hq
    have hp : q.1 ∈ s.parts := List.fst_mem_of_mem_zipIdx hq
    exact List.pairwise_map.mpr ((ih q.1 hp (s.holdsKeyAt q.2)).imp (.under q.2))
  case between =>
    have hlt : s.parts.zipIdx.Pairwise fun q r => q.2 < r.2 := by
      rw [← List.pairwise_map, List.zipIdx_map_snd]
      exact List.pairwise_lt_range'
    apply hlt.imp
    intro q r hqr o ho o' ho'
    obtain ⟨o, -, rfl⟩ := List.mem_map.mp ho
    obtain ⟨o', -, rfl⟩ := List.mem_map.mp ho'
    exact .left hqr o.place o'.place
  case whole =>
    intro o ho o' ho'
    obtain ⟨q, -, ho⟩ := List.mem_flatMap.mp ho
    obtain ⟨o, -, rfl⟩ := List.mem_map.mp ho
    obtain rfl := List.mem_singleton.mp ho'
    exact .enclosed q.2 o.place

/-- An occurrence comes before those that enclose it, and no place comes twice. -/
theorem pairwise_occurrencesAs (isKey : Bool) (s : Shape) :
    (s.occurrencesAs isKey).Pairwise fun o o' => ¬ o.place <+: o'.place :=
  (postOrder_occurrencesAs isKey s).imp PostOrder.not_isPrefix

end Shape

end ShapeCodec
