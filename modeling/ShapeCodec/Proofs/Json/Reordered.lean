import Mathlib.Data.List.Perm.Basic
import ShapeCodec.Proofs.Json.Parts

/-! # Trees up to the order of entries

Two trees are reordered when the entries of maps, at any depth, are permuted and nothing else
differs. The relation is symmetric, and a reordered tree repeats no key when the first one does not.
-/

namespace ShapeCodec

namespace Json

/-- Trees that differ by the order of the entries of maps, at any depth. -/
inductive Reordered : Json → Json → Prop
  | refl (j : Json) : Reordered j j
  | list {xs ys : List Json} : List.Forall₂ Reordered xs ys → Reordered (list xs) (list ys)
  /-- The entries are permuted, and then each value is reordered in its place. -/
  | map {es fs gs : List (String × Json)} : es.Perm fs → fs.map (·.1) = gs.map (·.1) →
    List.Forall₂ Reordered (fs.map (·.2)) (gs.map (·.2)) → Reordered (map es) (map gs)

variable {j j' : Json} {xs ys : List Json} {es gs : List (String × Json)}

theorem reordered_list_iff :
    Reordered (list xs) j' ↔ ∃ ys, j' = list ys ∧ List.Forall₂ Reordered xs ys := by
  constructor
  · rintro (_ | h | _)
    · exact ⟨xs, rfl, List.forall₂_same.mpr fun x _ => .refl x⟩
    · exact ⟨_, rfl, h⟩
  · rintro ⟨ys, rfl, h⟩
    exact .list h

theorem reordered_map_iff :
    Reordered (map es) j' ↔ ∃ fs gs, j' = map gs ∧ es.Perm fs ∧
      List.Forall₂ (fun f g => f.1 = g.1 ∧ Reordered f.2 g.2) fs gs := by
  simp only [List.forall₂_snd_iff]
  constructor
  · rintro (_ | _ | ⟨hp, hk, hv⟩)
    · exact ⟨es, es, rfl, .refl es, rfl, List.forall₂_same.mpr fun x _ => .refl x⟩
    · exact ⟨_, _, rfl, hp, hk, hv⟩
  · rintro ⟨fs, gs, rfl, hp, hk, hv⟩
    exact .map hp hk hv

theorem Reordered.eq_of_parts_eq_nil (h : Reordered j j') (hj : j.parts = []) : j' = j := by
  cases j with
  | list xs =>
    obtain rfl : xs = [] := hj
    obtain ⟨ys, rfl, hxy⟩ := reordered_list_iff.mp h
    rw [List.forall₂_nil_left_iff.mp hxy]
  | map es =>
    obtain rfl : es = [] := List.map_eq_nil_iff.mp hj
    obtain ⟨fs, gs, rfl, hp, hfg⟩ := reordered_map_iff.mp h
    rw [← hp.nil_eq] at hfg
    rw [List.forall₂_nil_left_iff.mp hfg]
  | _ =>
    cases h
    rfl

theorem Reordered.symm (h : Reordered j j') : Reordered j' j := by
  induction j using inductionParts generalizing j' with
  | step j ih =>
  cases j with
  | list xs =>
    obtain ⟨ys, rfl, hxy⟩ := reordered_list_iff.mp h
    apply Reordered.list
    apply List.Forall₂.flip
    have hparts := (List.forall₂_and_left xs ys).mpr ⟨fun x hx => hx, hxy⟩
    exact hparts.imp fun x y hr => ih x hr.1 hr.2
  | map es =>
    obtain ⟨fs, gs, rfl, hp, hfg⟩ := reordered_map_iff.mp h
    have hback : List.Forall₂ (fun f g => g.1 = f.1 ∧ Reordered g.2 f.2) fs gs := by
      have hparts := (List.forall₂_and_left fs gs).mpr ⟨fun f hf => hf, hfg⟩
      exact hparts.imp fun f g hr =>
        ⟨hr.2.1.symm, ih f.2 (mem_parts_map (hp.mem_iff.mpr hr.1)) hr.2.2⟩
    -- going back, the entries are permuted before their values are reordered
    obtain ⟨hs, heh, hhg⟩ := List.perm_comp_forall₂ hp hback
    exact reordered_map_iff.mpr ⟨hs, es, rfl, hhg.symm, heh.flip⟩
  | _ =>
    rw [h.eq_of_parts_eq_nil rfl]
    exact .refl _

theorem Reordered.uniqueKeys (h : Reordered j j') (hj : j.UniqueKeys) : j'.UniqueKeys := by
  induction j using inductionParts generalizing j' with
  | step j ih =>
  cases j with
  | list xs =>
    obtain ⟨ys, rfl, hxy⟩ := reordered_list_iff.mp h
    apply uniqueKeys_list_iff.mpr
    intro y hy
    obtain ⟨x, hx, hr⟩ := hxy.exists_of_mem_right hy
    exact ih x hx hr (hj.part hx)
  | map es =>
    obtain ⟨fs, gs, rfl, hp, hfg⟩ := reordered_map_iff.mp h
    have hkeys : fs.map (·.1) = gs.map (·.1) := (List.forall₂_snd_iff.mp hfg).1
    apply uniqueKeys_map_iff.mpr
    constructor
    · rw [← hkeys]
      exact (hp.map _).nodup_iff.mp (uniqueKeys_map_iff.mp hj).1
    · intro g hg
      obtain ⟨f, hf, -, hr⟩ := hfg.exists_of_mem_right hg
      have hf := mem_parts_map (hp.mem_iff.mpr hf)
      exact ih f.2 hf hr (hj.part hf)
  | _ => rwa [h.eq_of_parts_eq_nil rfl]

theorem Reordered.exists_of_mem (h : Reordered (Json.map es) (Json.map gs)) {e : String × Json}
    (he : e ∈ es) : ∃ g ∈ gs, e.1 = g.1 ∧ Reordered e.2 g.2 := by
  obtain ⟨fs, _, hj, hp, hfg⟩ := reordered_map_iff.mp h
  obtain rfl := Json.map.inj hj
  exact hfg.exists_of_mem_left (hp.mem_iff.mp he)

/-- A key has a value in both of two reordered maps or in none, and then a reordered one. -/
theorem Reordered.find? (h : Reordered (Json.map es) (Json.map gs)) (hu : (Json.map es).UniqueKeys)
    (key : String) : Option.Rel Reordered ((es.find? (·.1 == key)).map (·.2))
      ((gs.find? (·.1 == key)).map (·.2)) := by
  cases he : es.find? (·.1 == key) with
  | some e =>
    obtain ⟨g, hg, hk, hr⟩ := h.exists_of_mem (List.mem_of_find?_eq_some he)
    have hek : e.1 = key := by simpa using List.find?_some he
    have hgs := List.find?_of_nodup_map (uniqueKeys_map_iff.mp (h.uniqueKeys hu)).1 hg
    rw [← hk, hek] at hgs
    rw [hgs]
    exact .some hr
  | none =>
    have hgs : gs.find? (·.1 == key) = none := by
      apply List.find?_eq_none.mpr
      intro g hg
      obtain ⟨e, hm, hk, -⟩ := h.symm.exists_of_mem hg
      rw [hk]
      exact List.find?_eq_none.mp he e hm
    rw [hgs]
    exact .none

end Json

end ShapeCodec
