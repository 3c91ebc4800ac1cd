import ShapeCodec.Json.NumberMap
import ShapeCodec.Json.Reading
import ShapeCodec.Proofs.Json.Parts
import ShapeCodec.Proofs.Results

/-! # Trees and the maps in them that stand for numbers

A tree without such maps is left as it is when they are replaced, and what they are replaced in has
none any more. Replacing them repeats no key and nests no deeper.
-/

namespace ShapeCodec

namespace Json

/-- No map of a tree begins with the key that says that the map stands for a number. -/
inductive NumberMapFree : Json → Prop
  | mk {j : Json} : (∀ es, j = map es → ∀ e ∈ es.head?, e.1 ≠ numberKey) →
    (∀ p ∈ j.parts, NumberMapFree p) → NumberMapFree j

variable {j k p : Json} {xs : List Json} {es : List (String × Json)} {number : Numeral → Json}

theorem NumberMapFree.part (h : j.NumberMapFree) (hp : p ∈ j.parts) : p.NumberMapFree := by
  obtain ⟨_, h⟩ := h
  exact h p hp

@[simp] theorem numberMapFree_list_iff : (list xs).NumberMapFree ↔ ∀ x ∈ xs, x.NumberMapFree :=
  ⟨fun h _ hx => h.part hx, fun h => .mk nofun h⟩

@[simp] theorem numberMapFree_map_iff : (map es).NumberMapFree ↔
    (∀ e ∈ es.head?, e.1 ≠ numberKey) ∧ ∀ e ∈ es, e.2.NumberMapFree := by
  constructor
  · intro h
    refine ⟨?_, fun e he => h.part (mem_parts_map he)⟩
    obtain ⟨h, _⟩ := h
    exact h es rfl
  · rintro ⟨hk, he⟩
    refine .mk (fun fs hf => ?_) (List.forall_mem_map.mpr he)
    obtain rfl := map.inj hf
    exact hk

theorem numberMapFree_of_parts_eq_nil (h : j.parts = []) : j.NumberMapFree := by
  refine .mk (fun es he => ?_) (by simp [h])
  subst he
  simp [show es = [] by simpa using h]

theorem numberOf?_eq_none_iff : numberOf? es = none ↔ ∀ e ∈ es.head?, e.1 ≠ numberKey := by
  cases es with
  | nil => simp [numberOf?]
  | cons e es =>
    rw [numberOf?]
    split <;> simp_all

theorem numberMapFree_withIntegers_iff : j.withIntegers.NumberMapFree ↔ j.NumberMapFree := by
  induction j using inductionParts with
  | step j ih =>
  cases j with
  | number n =>
    exact iff_of_true (numberMapFree_of_parts_eq_nil (parts_ofNumeral n))
      (numberMapFree_of_parts_eq_nil rfl)
  | list xs =>
    rw [withIntegers_list, numberMapFree_list_iff, numberMapFree_list_iff, List.forall_mem_map]
    exact forall₂_congr ih
  | map es =>
    rw [withIntegers_map, numberMapFree_map_iff, numberMapFree_map_iff, List.forall_mem_map,
      List.head?_map]
    refine and_congr ?_ (forall₂_congr fun e he => ih _ (mem_parts_map he))
    cases es <;> simp
  | _ => exact Iff.rfl

/-- A tree that is read back from its text: it is nested no deeper than the reader goes, and has no
map that stands for a number. -/
structure Readable (j : Json) : Prop where
  depth : j.depth ≤ Reading.maxDepth
  numberMapFree : j.NumberMapFree

theorem Readable.part (h : j.Readable) (hp : p ∈ j.parts) : p.Readable :=
  ⟨depth_le_of_mem_parts h.depth hp, h.numberMapFree.part hp⟩

theorem readable_of_scalarText? (h : j.scalarText?.isSome = true) : j.Readable :=
  ⟨depth_le_of_scalarText? h, numberMapFree_of_parts_eq_nil (scalar_of_scalarText? h).1⟩

/-! ## Replacing them -/

theorem resolveItems_eq (xs : List Json) : resolveItems number xs = xs.mapM (resolve number) := by
  induction xs with
  | nil => rfl
  | cons x xs ih => rw [resolveItems, ih, List.mapM_cons]

theorem resolveItems_eq_ok_iff {ys : List Json} : resolveItems number xs = .ok ys ↔
    List.Forall₂ (fun x y => x.resolve number = .ok y) xs ys := by
  rw [resolveItems_eq, mapM_eq_ok_iff]

theorem resolveEntries_eq_ok_iff {fs : List (String × Json)} :
    resolveEntries number es = .ok fs ↔
      List.Forall₂ (fun e f => e.1 = f.1 ∧ e.2.resolve number = .ok f.2) es fs := by
  induction es generalizing fs with
  | nil => simp [resolveEntries, eq_comm]
  | cons e es ih =>
    simp only [resolveEntries, bind_eq_ok_iff, pure_eq_ok_iff, ih, List.forall₂_cons_left_iff]
    constructor
    · rintro ⟨y, hy, gs, hgs, rfl⟩
      exact ⟨(e.1, y), gs, ⟨rfl, hy⟩, hgs, rfl⟩
    · rintro ⟨⟨k, y⟩, gs, ⟨rfl, hy⟩, hgs, rfl⟩
      exact ⟨y, hy, gs, hgs, rfl⟩

/-- Induction over what a tree becomes: a scalar stays, a map that stands for a number becomes that
number, and brackets keep their places. -/
theorem resolve_induction {motive : Json → Json → Prop}
    (scalar : ∀ j : Json, j.parts = [] → motive j j)
    (numeral : ∀ es n, numberOf? es = some (.ok n) → motive (map es) (number n))
    (items : ∀ xs ys, List.Forall₂ motive xs ys → motive (list xs) (list ys))
    (entries : ∀ es fs, numberOf? es = none →
      List.Forall₂ (fun e f => e.1 = f.1 ∧ motive e.2 f.2) es fs → motive (map es) (map fs))
    (h : j.resolve number = .ok k) : motive j k := by
  induction j using inductionParts generalizing k with
  | step j ih =>
  cases j with
  | list xs =>
    rw [resolve, map_eq_ok_iff] at h
    obtain ⟨ys, hys, rfl⟩ := h
    exact items _ _ ((resolveItems_eq_ok_iff.mp hys).imp_of_mem fun x hx _ => ih x hx)
  | map es =>
    unfold resolve at h
    split at h
    · rename_i r hr
      obtain ⟨n, rfl, rfl⟩ := map_eq_ok_iff.mp h
      exact numeral _ _ hr
    · rename_i hn
      obtain ⟨fs, hfs, rfl⟩ := map_eq_ok_iff.mp h
      refine entries _ _ hn ((resolveEntries_eq_ok_iff.mp hfs).imp_of_mem fun e he _ hf => ?_)
      exact ⟨hf.1, ih _ (mem_parts_map he) hf.2⟩
  | _ =>
    obtain rfl := Except.ok.inj h
    exact scalar _ rfl

theorem resolve_of_numberMapFree (h : j.NumberMapFree) : j.resolve number = .ok j := by
  induction j using inductionParts with
  | step j ih =>
  cases j with
  | list xs =>
    have hitems : resolveItems number xs = .ok xs := resolveItems_eq_ok_iff.mpr
      (List.forall₂_same.mpr fun x hx => ih x hx (h.part hx))
    rw [resolve, hitems]
    rfl
  | map es =>
    have hentries : resolveEntries number es = .ok es := resolveEntries_eq_ok_iff.mpr
      (List.forall₂_same.mpr fun e he =>
        ⟨rfl, ih _ (mem_parts_map he) (h.part (mem_parts_map he))⟩)
    rw [resolve, numberOf?_eq_none_iff.mpr (numberMapFree_map_iff.mp h).1]
    simp only [hentries]
    rfl
  | _ => rfl

theorem numberMapFree_of_resolve (hn : ∀ n, (number n).parts = [])
    (h : j.resolve number = .ok k) : k.NumberMapFree := by
  refine resolve_induction (motive := fun _ k => k.NumberMapFree) ?scalar ?numeral ?items
    ?entries h
  case scalar => exact fun j hj => numberMapFree_of_parts_eq_nil hj
  case numeral => exact fun es n _ => numberMapFree_of_parts_eq_nil (hn n)
  case items =>
    intro xs ys ih
    refine numberMapFree_list_iff.mpr fun y hy => ?_
    obtain ⟨x, -, hx⟩ := ih.exists_of_mem_right hy
    exact hx
  case entries =>
    intro es fs hnone ih
    refine numberMapFree_map_iff.mpr ⟨?_, fun f hf => ?_⟩
    · have hk := numberOf?_eq_none_iff.mp hnone
      cases ih with
      | nil => nofun
      | cons hf _ => simpa [← hf.1] using hk
    · obtain ⟨e, -, he⟩ := ih.exists_of_mem_right hf
      exact he.2

theorem uniqueKeys_of_resolve (hn : ∀ n, (number n).parts = [])
    (h : j.resolve number = .ok k) : j.UniqueKeys → k.UniqueKeys := by
  refine resolve_induction (motive := fun j k => j.UniqueKeys → k.UniqueKeys) ?scalar ?numeral
    ?items ?entries h
  case scalar => exact fun j _ hu => hu
  case numeral => exact fun es n _ _ => uniqueKeys_of_parts_eq_nil (hn n)
  case items =>
    intro xs ys ih hu
    refine uniqueKeys_list_iff.mpr fun y hy => ?_
    obtain ⟨x, hx, h⟩ := ih.exists_of_mem_right hy
    exact h (hu.part hx)
  case entries =>
    intro es fs _ ih hu
    obtain ⟨hkeys, hvalues⟩ := uniqueKeys_map_iff.mp hu
    refine uniqueKeys_map_iff.mpr ⟨?_, fun f hf => ?_⟩
    · have hsame := List.forall₂_snd_iff (R := fun x y : Json => x.UniqueKeys → y.UniqueKeys).mp ih
      rwa [← hsame.1]
    · obtain ⟨e, he, h⟩ := ih.exists_of_mem_right hf
      exact h.2 (hvalues e he)

theorem depth_le_of_resolve (hn : ∀ n, (number n).depth = 0) (h : j.resolve number = .ok k) :
    k.depth ≤ j.depth := by
  refine resolve_induction (motive := fun j k => k.depth ≤ j.depth) ?scalar ?numeral ?items
    ?entries h
  case scalar => exact fun j _ => Nat.le_refl _
  case numeral =>
    intro es n _
    rw [hn]
    exact Nat.zero_le _
  case items =>
    intro xs ys ih
    refine depth_list_le_iff.mpr fun y hy => ?_
    obtain ⟨x, hx, h⟩ := ih.exists_of_mem_right hy
    exact h.trans (depthItems_le_iff.mp (Nat.le_refl _) x hx)
  case entries =>
    intro es fs _ ih
    refine depth_map_le_iff.mpr fun f hf => ?_
    obtain ⟨e, he, h⟩ := ih.exists_of_mem_right hf
    exact h.2.trans (depthEntries_le_iff.mp (Nat.le_refl _) e he)

theorem eq_str_of_resolve {s : String} (hn : ∀ n, number n ≠ str s)
    (h : j.resolve number = .ok (str s)) : j = str s := by
  cases j with
  | list xs =>
    obtain ⟨_, -, hs⟩ := map_eq_ok_iff.mp h
    cases hs
  | map es =>
    unfold resolve at h
    split at h
    · obtain ⟨n, -, hs⟩ := map_eq_ok_iff.mp h
      exact (hn n hs).elim
    · obtain ⟨_, -, hs⟩ := map_eq_ok_iff.mp h
      cases hs
  | _ => exact Except.ok.inj h

theorem withIntegers_of_resolve (hn : ∀ n, (number n).withIntegers = number n)
    (h : j.resolve number = .ok k) : j.withIntegers = j → k.withIntegers = k := by
  refine resolve_induction (motive := fun j k => j.withIntegers = j → k.withIntegers = k) ?scalar
    ?numeral ?items ?entries h
  case scalar => exact fun j _ hj => hj
  case numeral => exact fun es n _ _ => hn n
  case items =>
    intro xs ys ih hj
    rw [withIntegers_list] at hj ⊢
    refine congrArg list ((List.map_congr_left fun y hy => ?_).trans (List.map_id' ys))
    obtain ⟨x, hx, h⟩ := ih.exists_of_mem_right hy
    exact h (List.map_inj_left.mp ((list.inj hj).trans (List.map_id' xs).symm) x hx)
  case entries =>
    intro es fs _ ih hj
    rw [withIntegers_map] at hj ⊢
    refine congrArg map ((List.map_congr_left fun f hf => ?_).trans (List.map_id' fs))
    obtain ⟨e, he, h⟩ := ih.exists_of_mem_right hf
    have hself := List.map_inj_left.mp ((map.inj hj).trans (List.map_id' es).symm) e he
    exact congrArg (f.1, ·) (h.2 (congrArg Prod.snd hself))

end Json

end ShapeCodec
