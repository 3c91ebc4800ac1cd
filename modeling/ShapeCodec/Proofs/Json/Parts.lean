import ShapeCodec.Json.Basic
import ShapeCodec.Proofs.Lists

/-! # Parts of a JSON tree

The trees that a tree holds, the induction over them, how deep its brackets are nested, and trees
in which no map repeats a key, as a text that is read never does.
-/

namespace ShapeCodec

namespace Json

def parts : Json → List Json
  | list xs => xs
  | map es => es.map (·.2)
  | _ => []

@[simp] theorem parts_list (xs : List Json) : (list xs).parts = xs := rfl

@[simp] theorem parts_map (es : List (String × Json)) : (map es).parts = es.map (·.2) := rfl

theorem mem_parts_map {es : List (String × Json)} {e : String × Json} (h : e ∈ es) :
    e.2 ∈ (map es).parts := List.mem_map.mpr ⟨e, h, rfl⟩

theorem sizeOf_lt_of_mem_parts {j p : Json} (h : p ∈ j.parts) : sizeOf p < sizeOf j := by
  cases j <;> simp only [parts, List.not_mem_nil, List.mem_map] at h
  case list =>
    have := List.sizeOf_lt_of_mem h
    simp only [list.sizeOf_spec]; omega
  case map =>
    obtain ⟨⟨k, x⟩, he, rfl⟩ := h
    have := List.sizeOf_lt_of_mem he
    simp only [map.sizeOf_spec, Prod.mk.sizeOf_spec] at this ⊢; omega

@[elab_as_elim]
theorem inductionParts {motive : Json → Prop}
    (step : ∀ j, (∀ p ∈ j.parts, motive p) → motive j) (j : Json) : motive j :=
  step j fun p _ => inductionParts step p
termination_by sizeOf j
decreasing_by exact sizeOf_lt_of_mem_parts ‹_›

/-! ## Depth -/

mutual

/-- The number of brackets that are open at once in the text of a tree. -/
def depth : Json → Nat
  | list xs => depthItems xs + 1
  | map es => depthEntries es + 1
  | _ => 0

def depthItems : List Json → Nat
  | [] => 0
  | x :: xs => max (depth x) (depthItems xs)

def depthEntries : List (String × Json) → Nat
  | [] => 0
  | (_, x) :: es => max (depth x) (depthEntries es)

end

theorem depthItems_le_iff {xs : List Json} {n : Nat} :
    depthItems xs ≤ n ↔ ∀ x ∈ xs, x.depth ≤ n := by
  induction xs with
  | nil => simp [depthItems]
  | cons x xs ih => simp [depthItems, ih]

theorem depthEntries_le_iff {es : List (String × Json)} {n : Nat} :
    depthEntries es ≤ n ↔ ∀ e ∈ es, e.2.depth ≤ n := by
  induction es with
  | nil => simp [depthEntries]
  | cons e es ih => simp [depthEntries, ih]

theorem depth_list_le_iff {xs : List Json} {n : Nat} :
    (list xs).depth ≤ n + 1 ↔ ∀ x ∈ xs, x.depth ≤ n := by
  rw [depth, Nat.add_le_add_iff_right, depthItems_le_iff]

theorem depth_map_le_iff {es : List (String × Json)} {n : Nat} :
    (map es).depth ≤ n + 1 ↔ ∀ e ∈ es, e.2.depth ≤ n := by
  rw [depth, Nat.add_le_add_iff_right, depthEntries_le_iff]

theorem depth_list_congr {α : Type} {xs : List α} {c d : α → Json}
    (h : ∀ x ∈ xs, (c x).depth = (d x).depth) :
    (list (xs.map c)).depth = (list (xs.map d)).depth := by
  rw [depth, depth]
  refine congrArg (· + 1) (eq_of_forall_ge_iff fun n => ?_)
  rw [depthItems_le_iff, depthItems_le_iff, List.forall_mem_map, List.forall_mem_map]
  exact forall₂_congr fun x hx => by rw [h x hx]

theorem depth_map (es : List (String × Json)) :
    (map es).depth = (list (es.map (·.2))).depth := by
  rw [depth, depth]
  refine congrArg (· + 1) (eq_of_forall_ge_iff fun n => ?_)
  rw [depthItems_le_iff, depthEntries_le_iff, List.forall_mem_map]

@[simp] theorem parts_ofNumeral (n : Numeral) : (ofNumeral n).parts = [] := by
  unfold ofNumeral
  split <;> rfl

@[simp] theorem depth_ofNumeral (n : Numeral) : (ofNumeral n).depth = 0 := by
  unfold ofNumeral
  split <;> rfl

/-- There is room for one more bracket around members when there is for it and for each of them. -/
theorem add_succ_le_iff {α : Type} {xs : List α} {size : α → Nat} {d m n : Nat}
    (hd : ∀ k, d ≤ k ↔ ∀ x ∈ xs, size x ≤ k) :
    m + (d + 1) ≤ n ↔ m < n ∧ ∀ x ∈ xs, m + 1 + size x ≤ n := by
  constructor
  · intro h
    constructor
    · omega
    · intro x hx
      have := (hd d).mp (Nat.le_refl d) x hx
      omega
  · rintro ⟨hm, hx⟩
    have : d ≤ n - (m + 1) := (hd _).mpr fun x h => by
      have := hx x h
      omega
    omega

theorem add_depth_list_le_iff {xs : List Json} {m n : Nat} :
    m + (list xs).depth ≤ n ↔ m < n ∧ ∀ x ∈ xs, m + 1 + x.depth ≤ n :=
  add_succ_le_iff fun _ => depthItems_le_iff

theorem add_depth_map_le_iff {es : List (String × Json)} {m n : Nat} :
    m + (map es).depth ≤ n ↔ m < n ∧ ∀ e ∈ es, m + 1 + e.2.depth ≤ n :=
  add_succ_le_iff fun _ => depthEntries_le_iff

theorem scalar_of_scalarText? {j : Json} (h : j.scalarText?.isSome = true) :
    j.parts = [] ∧ j.depth = 0 := by
  cases j with
  | list xs => cases h
  | map es => cases h
  | _ => exact ⟨rfl, rfl⟩

theorem depth_le_of_scalarText? {j : Json} {n : Nat} (h : j.scalarText?.isSome = true) :
    j.depth ≤ n := by
  rw [(scalar_of_scalarText? h).2]
  exact Nat.zero_le n

theorem depth_le_one_of_parts_eq_nil {j : Json} (h : j.parts = []) : j.depth ≤ 1 := by
  cases j with
  | list xs =>
    obtain rfl : xs = [] := h
    rfl
  | map es =>
    obtain rfl : es = [] := by simpa using h
    rfl
  | _ => exact Nat.zero_le 1

theorem depth_le_of_mem_parts {j p : Json} {n : Nat} (hj : j.depth ≤ n) (h : p ∈ j.parts) :
    p.depth ≤ n := by
  cases j with
  | list xs =>
    rw [depth] at hj
    exact depthItems_le_iff.mp (show depthItems xs ≤ n by omega) p h
  | map es =>
    rw [depth] at hj
    obtain ⟨e, he, rfl⟩ := List.mem_map.mp h
    exact depthEntries_le_iff.mp (show depthEntries es ≤ n by omega) e he
  | _ => cases h

/-! ## Keys -/

/-- No map of a tree repeats a key. -/
inductive UniqueKeys : Json → Prop
  | mk {j : Json} : (∀ es, j = map es → (es.map (·.1)).Nodup) → (∀ p ∈ j.parts, UniqueKeys p) →
    UniqueKeys j

theorem UniqueKeys.part {j p : Json} (h : j.UniqueKeys) (hp : p ∈ j.parts) : p.UniqueKeys := by
  obtain ⟨_, h⟩ := h
  exact h p hp

@[simp] theorem uniqueKeys_list_iff {xs : List Json} :
    (list xs).UniqueKeys ↔ ∀ x ∈ xs, x.UniqueKeys :=
  ⟨fun h _ hx => h.part hx, fun h => .mk nofun h⟩

@[simp] theorem uniqueKeys_map_iff {es : List (String × Json)} :
    (map es).UniqueKeys ↔ (es.map (·.1)).Nodup ∧ ∀ e ∈ es, e.2.UniqueKeys := by
  constructor
  · intro h
    refine ⟨?_, fun e he => h.part (mem_parts_map he)⟩
    obtain ⟨h, _⟩ := h
    exact h es rfl
  · rintro ⟨hn, he⟩
    refine .mk (fun fs hf => ?_) (List.forall_mem_map.mpr he)
    obtain rfl := map.inj hf
    exact hn

theorem uniqueKeys_of_parts_eq_nil {j : Json} (h : j.parts = []) : j.UniqueKeys := by
  refine .mk (fun es he => ?_) (by simp [h])
  subst he
  simp [show es = [] by simpa using h]

/-! ## Repeated keys -/

theorem mergedItems_eq (xs : List Json) : mergedItems xs = xs.map merged := by
  induction xs with
  | nil => rfl
  | cons x xs ih => rw [mergedItems, ih, List.map_cons]

theorem mergedEntries_eq (es : List (String × Json)) :
    mergedEntries es = es.map fun e => (e.1, e.2.merged) := by
  induction es with
  | nil => rfl
  | cons e es ih => rw [mergedEntries, ih, List.map_cons]

theorem put_of_notMem {es : List (String × Json)} {k : String} (h : k ∉ es.map (·.1)) (x : Json) :
    put es k x = es ++ [(k, x)] := by
  induction es with
  | nil => rfl
  | cons e es ih =>
    rw [List.map_cons, List.mem_cons, not_or] at h
    rw [put, if_neg (Ne.symm h.1), ih h.2, List.cons_append]

theorem foldl_put_of_nodup {done es : List (String × Json)} (h : ((done ++ es).map (·.1)).Nodup) :
    es.foldl (fun done e => put done e.1 e.2) done = done ++ es := by
  induction es generalizing done with
  | nil => exact (List.append_nil done).symm
  | cons e es ih =>
    have hn : e.1 ∉ done.map (·.1) := by
      rw [List.map_append, List.nodup_append] at h
      exact fun hm => h.2.2 _ hm _ (by simp) rfl
    rw [List.foldl_cons, put_of_notMem hn, ih (by simpa using h), List.append_assoc]
    rfl

theorem merged_of_uniqueKeys {j : Json} (h : j.UniqueKeys) : j.merged = j := by
  induction j using inductionParts with
  | step j ih =>
  cases j with
  | list xs =>
    have items : xs.map merged = xs := (List.map_congr_left fun x hx => ih x hx (h.part hx)).trans
      (List.map_id' xs)
    rw [merged, mergedItems_eq, items]
  | map es =>
    have entries : (es.map fun e => (e.1, e.2.merged)) = es :=
      (List.map_congr_left fun e he =>
        congrArg (e.1, ·) (ih _ (mem_parts_map he) (h.part (mem_parts_map he)))).trans
          (List.map_id' es)
    rw [merged, mergedEntries_eq, entries, collect,
      foldl_put_of_nodup (by simpa using (uniqueKeys_map_iff.mp h).1), List.nil_append]
  | _ => rfl

/-! ## Integers -/

theorem withIntegersItems_eq (xs : List Json) :
    withIntegersItems xs = xs.map withIntegers := by
  induction xs with
  | nil => rfl
  | cons x xs ih => rw [withIntegersItems, ih, List.map_cons]

theorem withIntegersEntries_eq (es : List (String × Json)) :
    withIntegersEntries es = es.map fun e => (e.1, e.2.withIntegers) := by
  induction es with
  | nil => rfl
  | cons e es ih => rw [withIntegersEntries, ih, List.map_cons]

@[simp] theorem withIntegers_list (xs : List Json) :
    (list xs).withIntegers = list (xs.map withIntegers) := by
  rw [withIntegers, withIntegersItems_eq]

@[simp] theorem withIntegers_map (es : List (String × Json)) :
    (map es).withIntegers = map (es.map fun e => (e.1, e.2.withIntegers)) := by
  rw [withIntegers, withIntegersEntries_eq]

theorem withIntegers_eq_list_iff {j : Json} {ys : List Json} :
    j.withIntegers = list ys ↔ ∃ xs, j = list xs ∧ ys = xs.map withIntegers := by
  cases j with
  | list xs => simp [eq_comm]
  | map es => simp
  | number n =>
    rw [withIntegers, ofNumeral]
    cases n.toInt64? <;> simp
  | _ => simp [withIntegers]

theorem withIntegers_eq_map_iff {j : Json} {fs : List (String × Json)} :
    j.withIntegers = map fs ↔ ∃ es, j = map es ∧ fs = es.map fun e => (e.1, e.2.withIntegers) := by
  cases j with
  | list xs => simp
  | map es => simp [eq_comm]
  | number n =>
    rw [withIntegers, ofNumeral]
    cases n.toInt64? <;> simp
  | _ => simp [withIntegers]

theorem depth_withIntegers (j : Json) : j.withIntegers.depth = j.depth := by
  induction j using inductionParts with
  | step j ih =>
  cases j with
  | number n => exact depth_ofNumeral n
  | list xs =>
    rw [withIntegers_list]
    exact (depth_list_congr ih).trans (by rw [List.map_id']; rfl)
  | map es =>
    have entries := depth_list_congr (d := fun e : String × Json => e.2)
      fun e he => ih _ (mem_parts_map he)
    rw [withIntegers_map, depth_map, depth_map, List.map_map]
    exact entries
  | _ => rfl

@[simp] theorem uniqueKeys_withIntegers_iff {j : Json} :
    j.withIntegers.UniqueKeys ↔ j.UniqueKeys := by
  induction j using inductionParts with
  | step j ih =>
  cases j with
  | number n =>
    exact iff_of_true (uniqueKeys_of_parts_eq_nil (parts_ofNumeral n))
      (uniqueKeys_of_parts_eq_nil rfl)
  | list xs =>
    rw [withIntegers_list, uniqueKeys_list_iff, uniqueKeys_list_iff, List.forall_mem_map]
    exact forall₂_congr ih
  | map es =>
    rw [withIntegers_map, uniqueKeys_map_iff, uniqueKeys_map_iff, List.forall_mem_map,
      List.map_map]
    exact and_congr_right fun _ => forall₂_congr fun e he => ih _ (mem_parts_map he)
  | _ => exact Iff.rfl

end Json

end ShapeCodec
