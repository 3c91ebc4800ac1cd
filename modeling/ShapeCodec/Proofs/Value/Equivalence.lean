import ShapeCodec.Proofs.Lists
import ShapeCodec.Proofs.Value.Parts

/-! # Sameness is an equivalence

Every value is the same as itself, and on well-formed values sameness is symmetric and transitive.
Sets and maps are compared in one direction only; that they have equally many members, pairwise
different, gives the other one.
-/

namespace ShapeCodec

/-! ## Numbers -/

namespace Binary64

@[simp] theorem same_refl (x : Binary64) : x.same x = true := by cases x <;> simp [same]

theorem same_symm {x y : Binary64} (h : x.same y = true) : y.same x = true := by
  cases x <;> cases y <;> simp only [same, Bool.and_eq_true, Bool.or_eq_true, beq_iff_eq,
    Bool.false_eq_true] at h ⊢
  case infinite.infinite => exact h.symm
  case finite.finite =>
    obtain ⟨rfl, h⟩ := h
    exact ⟨rfl, h.imp_left Eq.symm⟩

theorem same_trans {x y z : Binary64} (h : x.same y = true) (h' : y.same z = true) :
    x.same z = true := by
  cases x <;> cases y <;> cases z <;> simp only [same, Bool.and_eq_true, Bool.or_eq_true,
    beq_iff_eq, Bool.false_eq_true] at h h' ⊢
  case infinite.infinite.infinite => exact h.trans h'
  case finite.finite.finite =>
    obtain ⟨rfl, h⟩ := h
    obtain ⟨rfl, h'⟩ := h'
    refine ⟨rfl, ?_⟩
    rcases h with rfl | h
    · exact h'
    · exact .inr h

end Binary64

namespace Decimal

theorem tenTo_ne_zero (n : Nat) : (tenTo n : Int) ≠ 0 :=
  Int.natCast_ne_zero.mpr (Nat.pos_iff_ne_zero.mp (Nat.pow_pos (by decide)))

@[simp] theorem same_refl (a : Decimal) : a.same a = true := by simp [same]

theorem same_symm {a b : Decimal} (h : a.same b = true) : b.same a = true := by
  simp only [same, beq_iff_eq] at h ⊢
  exact h.symm

theorem same_trans {a b c : Decimal} (h : a.same b = true) (h' : b.same c = true) :
    a.same c = true := by
  simp only [same, beq_iff_eq] at h h' ⊢
  apply Int.eq_of_mul_eq_mul_right (tenTo_ne_zero b.scale)
  calc a.coefficient * tenTo c.scale * tenTo b.scale
      = a.coefficient * tenTo b.scale * tenTo c.scale := Int.mul_right_comm ..
    _ = b.coefficient * tenTo c.scale * tenTo a.scale := by rw [h, Int.mul_right_comm]
    _ = c.coefficient * tenTo a.scale * tenTo b.scale := by rw [h', Int.mul_right_comm]

end Decimal

namespace Value

/-! ## Sameness by cases -/

attribute [local simp] same sameItems sameWithin sameEntries sameFields

theorem sameItems_iff {xs ys : List Value} :
    sameItems xs ys = true ↔ List.Forall₂ (fun x y => x.same y = true) xs ys := by
  induction xs generalizing ys with
  | nil => cases ys <;> simp
  | cons x xs ih => cases ys <;> simp [ih]

theorem sameWithin_iff {xs ys : List Value} :
    sameWithin xs ys = true ↔ ∀ x ∈ xs, ∃ y ∈ ys, x.same y = true := by
  induction xs with
  | nil => simp
  | cons x xs ih => simp [ih]

theorem sameEntries_iff {xs ys : List (Value × Value)} :
    sameEntries xs ys = true ↔
      ∀ a ∈ xs, ∃ b ∈ ys, a.1.same b.1 = true ∧ a.2.same b.2 = true := by
  induction xs with
  | nil => simp
  | cons a xs ih =>
    obtain ⟨k, v⟩ := a
    simp only [sameEntries, Bool.and_eq_true, List.any_eq_true, ih, List.forall_mem_cons]

theorem sameFields_iff {xs ys : List (String × Value)} :
    sameFields xs ys = true ↔
      List.Forall₂ (fun a b => a.1 = b.1 ∧ a.2.same b.2 = true) xs ys := by
  induction xs generalizing ys with
  | nil => cases ys <;> simp
  | cons a xs ih =>
    obtain ⟨m, v⟩ := a
    cases ys with
    | nil => simp
    | cons b ys =>
      obtain ⟨n, w⟩ := b
      simp [ih]

theorem none_same_iff {v : Value} : none.same v = true ↔ v = none := by
  cases v <;> simp

theorem ellipsis_same_iff {v : Value} : ellipsis.same v = true ↔ v = ellipsis := by
  cases v <;> simp

theorem bool_same_iff {b : Bool} {v : Value} : (bool b).same v = true ↔ v = bool b := by
  cases v with
  | bool c => simpa using eq_comm
  | _ => simp

theorem int_same_iff {i : Int64} {v : Value} : (int i).same v = true ↔ v = int i := by
  cases v with
  | int j => simpa using eq_comm
  | _ => simp

theorem member_same_iff {e n : String} {v : Value} :
    (member e n).same v = true ↔ v = member e n := by
  cases v with
  | member f m =>
    simp only [same, Bool.and_eq_true, beq_iff_eq, member.injEq]
    exact and_congr eq_comm eq_comm
  | _ => simp

theorem str_same_iff {s : String} {v : Value} : (str s).same v = true ↔ v = str s := by
  cases v with
  | str t => simpa using eq_comm
  | _ => simp

theorem float_same_iff {x : Binary64} {v : Value} :
    (float x).same v = true ↔ ∃ y, v = float y ∧ x.same y = true := by
  cases v <;> simp

theorem decimal_same_iff {d : Decimal} {v : Value} :
    (decimal d).same v = true ↔ ∃ e, v = decimal e ∧ d.same e = true := by
  cases v <;> simp

theorem sequence_same_iff {k : SequenceKind} {xs : List Value} {v : Value} :
    (sequence k xs).same v = true ↔ ∃ ys, v = sequence k ys ∧
      if k.isSet then xs.length = ys.length ∧ ∀ x ∈ xs, ∃ y ∈ ys, x.same y = true
      else List.Forall₂ (fun x y => x.same y = true) xs ys := by
  cases v with
  | sequence l ys =>
    simp only [same, Bool.and_eq_true, beq_iff_eq, sequence.injEq]
    constructor
    · rintro ⟨rfl, h⟩
      refine ⟨ys, ⟨rfl, rfl⟩, ?_⟩
      split at h <;> rename_i hk <;>
        simpa [hk, sameWithin_iff, sameItems_iff] using h
    · rintro ⟨_, ⟨rfl, rfl⟩, h⟩
      refine ⟨rfl, ?_⟩
      split at h <;> rename_i hk <;>
        simpa [hk, sameWithin_iff, sameItems_iff] using h
  | _ => simp

theorem map_same_iff {k : MapKind} {xs : List (Value × Value)} {v : Value} :
    (map k xs).same v = true ↔ ∃ ys, v = map k ys ∧ xs.length = ys.length ∧
      ∀ a ∈ xs, ∃ b ∈ ys, a.1.same b.1 = true ∧ a.2.same b.2 = true := by
  cases v with
  | map l ys =>
    simp only [same, Bool.and_eq_true, beq_iff_eq, map.injEq, sameEntries_iff]
    constructor
    · rintro ⟨⟨rfl, hl⟩, h⟩
      exact ⟨ys, ⟨rfl, rfl⟩, hl, h⟩
    · rintro ⟨_, ⟨rfl, rfl⟩, hl, h⟩
      exact ⟨⟨rfl, hl⟩, h⟩
  | _ => simp

theorem record_same_iff {n : String} {xs : List (String × Value)} {v : Value} :
    (record n xs).same v = true ↔ ∃ ys, v = record n ys ∧
      List.Forall₂ (fun a b => a.1 = b.1 ∧ a.2.same b.2 = true) xs ys := by
  cases v with
  | record m ys =>
    simp only [same, Bool.and_eq_true, beq_iff_eq, record.injEq, sameFields_iff]
    constructor
    · rintro ⟨rfl, h⟩
      exact ⟨ys, ⟨rfl, rfl⟩, h⟩
    · rintro ⟨_, ⟨rfl, rfl⟩, h⟩
      exact ⟨rfl, h⟩
  | _ => simp

/-! ## The equivalence -/

@[simp] theorem same_refl (v : Value) : v.same v = true := by
  induction v using inductionParts with
  | step v ih =>
  cases v with
  | sequence k xs =>
    rw [sequence_same_iff]
    refine ⟨xs, rfl, ?_⟩
    split
    · exact ⟨rfl, fun x hx => ⟨x, hx, ih x hx⟩⟩
    · exact List.forall₂_same.mpr ih
  | map k es =>
    rw [map_same_iff]
    exact ⟨es, rfl, rfl, fun e he =>
      ⟨e, he, ih _ (mem_parts_map he).1, ih _ (mem_parts_map he).2⟩⟩
  | record n fs =>
    rw [record_same_iff]
    exact ⟨fs, rfl, List.forall₂_same.mpr fun p hp => ⟨rfl, ih _ (mem_parts_record hp)⟩⟩
  | _ => simp

/-- What symmetry and transitivity say of one value on the left. -/
def Equates (a : Value) : Prop :=
  ∀ b, b.WellFormed → a.same b = true →
    b.same a = true ∧ ∀ c, c.WellFormed → b.same c = true → a.same c = true

theorem not_same_of_same {a b c : Value} (ha : a.Equates) (hb : b.Equates) (wa : a.WellFormed)
    (wc : c.WellFormed) (h : b.same a = false) (hac : a.same c = true) : ¬ b.same c = true := by
  intro hbc
  have hca := (ha c wc hac).1
  rw [(hb c wc hbc).2 a wa hca] at h
  cases h

theorem set_same_iff {k : SequenceKind} {xs : List Value} {b : Value} (hk : k.isSet = true) :
    (sequence k xs).same b = true ↔ ∃ ys, b = sequence k ys ∧ xs.length = ys.length ∧
      ∀ x ∈ xs, ∃ y ∈ ys, x.same y = true := by
  simp only [sequence_same_iff, if_pos hk]

theorem list_same_iff {k : SequenceKind} {xs : List Value} {b : Value} (hk : ¬ k.isSet = true) :
    (sequence k xs).same b = true ↔ ∃ ys, b = sequence k ys ∧ xs.length = ys.length ∧
      ∀ i h₁ h₂, (xs.get ⟨i, h₁⟩).same (ys.get ⟨i, h₂⟩) = true := by
  simp only [sequence_same_iff, if_neg hk, List.forall₂_iff_get]

theorem equates_set {k : SequenceKind} {xs : List Value} (hk : k.isSet = true)
    (wa : (sequence k xs).WellFormed) (ih : ∀ x ∈ xs, x.Equates) : (sequence k xs).Equates := by
  intro b wb hs
  obtain ⟨ys, rfl, hl, h⟩ := (set_same_iff hk).mp hs
  constructor
  · refine (set_same_iff hk).mpr ⟨xs, rfl, hl.symm, fun y hy => ?_⟩
    obtain ⟨x, hx, hxy⟩ := List.exists_related_of_length_eq hl h
      ((wa.distinct hk).imp_of_mem fun hp hq hn y hy =>
        not_same_of_same (ih _ hp) (ih _ hq) (wa.part hp) (wb.part hy) hn) y hy
    exact ⟨x, hx, (ih x hx y (wb.part hy) hxy).1⟩
  · intro c wc hs'
    obtain ⟨zs, rfl, hl', hc⟩ := (set_same_iff hk).mp hs'
    refine (set_same_iff hk).mpr ⟨zs, rfl, hl.trans hl', fun x hx => ?_⟩
    obtain ⟨y, hy, hxy⟩ := h x hx
    obtain ⟨z, hz, hyz⟩ := hc y hy
    exact ⟨z, hz, (ih x hx y (wb.part hy) hxy).2 z (wc.part hz) hyz⟩

theorem equates_list {k : SequenceKind} {xs : List Value} (hk : ¬ k.isSet = true)
    (ih : ∀ x ∈ xs, x.Equates) : (sequence k xs).Equates := by
  intro b wb hs
  obtain ⟨ys, rfl, hl, h⟩ := (list_same_iff hk).mp hs
  constructor
  · refine (list_same_iff hk).mpr ⟨xs, rfl, hl.symm, fun i h₁ h₂ => ?_⟩
    exact (ih _ (List.get_mem ..) _ (wb.part (List.get_mem ..)) (h i h₂ h₁)).1
  · intro c wc hs'
    obtain ⟨zs, rfl, hl', hc⟩ := (list_same_iff hk).mp hs'
    refine (list_same_iff hk).mpr ⟨zs, rfl, hl.trans hl', fun i h₁ h₂ => ?_⟩
    have hxy := h i h₁ (hl ▸ h₁)
    have hyz := hc i (hl ▸ h₁) h₂
    exact (ih _ (List.get_mem ..) _ (wb.part (List.get_mem ..)) hxy).2 _
      (wc.part (List.get_mem ..)) hyz

theorem equates_map {k : MapKind} {xs : List (Value × Value)} (wa : (map k xs).WellFormed)
    (ihk : ∀ e ∈ xs, e.1.Equates) (ihv : ∀ e ∈ xs, e.2.Equates) : (map k xs).Equates := by
  intro b wb hs
  obtain ⟨ys, rfl, hl, h⟩ := map_same_iff.mp hs
  constructor
  · refine map_same_iff.mpr ⟨xs, rfl, hl.symm, fun y hy => ?_⟩
    obtain ⟨x, hx, hk, hv⟩ := List.exists_related_of_length_eq hl h
      (wa.distinct.imp_of_mem fun {p q} hp hq hn y hy hpy hqy =>
        not_same_of_same (ihk p hp) (ihk q hq) (wa.key hp) (wb.key hy) hn hpy.1 hqy.1) y hy
    exact ⟨x, hx, (ihk x hx _ (wb.key hy) hk).1, (ihv x hx _ (wb.value hy) hv).1⟩
  · intro c wc hs'
    obtain ⟨zs, rfl, hl', hc⟩ := map_same_iff.mp hs'
    refine map_same_iff.mpr ⟨zs, rfl, hl.trans hl', fun x hx => ?_⟩
    obtain ⟨y, hy, hk, hv⟩ := h x hx
    obtain ⟨z, hz, hk', hv'⟩ := hc y hy
    exact ⟨z, hz, (ihk x hx _ (wb.key hy) hk).2 _ (wc.key hz) hk',
      (ihv x hx _ (wb.value hy) hv).2 _ (wc.value hz) hv'⟩

theorem equates_record {name : String} {xs : List (String × Value)}
    (ih : ∀ p ∈ xs, p.2.Equates) : (record name xs).Equates := by
  intro b wb hs
  obtain ⟨ys, rfl, h⟩ := record_same_iff.mp hs
  rw [List.forall₂_iff_get] at h
  constructor
  · refine record_same_iff.mpr ⟨xs, rfl, List.forall₂_iff_get.mpr ⟨h.1.symm, ?_⟩⟩
    intro i h₁ h₂
    obtain ⟨hn, hxy⟩ := h.2 i h₂ h₁
    exact ⟨hn.symm, (ih _ (List.get_mem ..) _ (wb.field (List.get_mem ..)) hxy).1⟩
  · intro c wc hs'
    obtain ⟨zs, rfl, hc⟩ := record_same_iff.mp hs'
    rw [List.forall₂_iff_get] at hc
    refine record_same_iff.mpr ⟨zs, rfl, List.forall₂_iff_get.mpr ⟨h.1.trans hc.1, ?_⟩⟩
    intro i h₁ h₂
    obtain ⟨hn, hxy⟩ := h.2 i h₁ (h.1 ▸ h₁)
    obtain ⟨hn', hyz⟩ := hc.2 i (h.1 ▸ h₁) h₂
    exact ⟨hn.trans hn', (ih _ (List.get_mem ..) _ (wb.field (List.get_mem ..)) hxy).2 _
      (wc.field (List.get_mem ..)) hyz⟩

theorem equates (a : Value) (wa : a.WellFormed) : a.Equates := by
  induction a using inductionParts with
  | step a ih =>
  have ih : ∀ p ∈ a.parts, p.Equates := fun p hp => ih p hp (wa.part hp)
  cases a with
  | sequence k xs =>
    by_cases hk : k.isSet = true
    · exact equates_set hk wa ih
    · exact equates_list hk ih
  | map k xs =>
    exact equates_map wa (fun e he => ih _ (mem_parts_map he).1)
      fun e he => ih _ (mem_parts_map he).2
  | record n xs => exact equates_record fun p hp => ih _ (mem_parts_record hp)
  | float x =>
    rintro b - hs
    obtain ⟨y, rfl, h⟩ := float_same_iff.mp hs
    refine ⟨float_same_iff.mpr ⟨x, rfl, Binary64.same_symm h⟩, fun c _ hs' => ?_⟩
    obtain ⟨z, rfl, h'⟩ := float_same_iff.mp hs'
    exact float_same_iff.mpr ⟨z, rfl, Binary64.same_trans h h'⟩
  | decimal d =>
    rintro b - hs
    obtain ⟨e, rfl, h⟩ := decimal_same_iff.mp hs
    refine ⟨decimal_same_iff.mpr ⟨d, rfl, Decimal.same_symm h⟩, fun c _ hs' => ?_⟩
    obtain ⟨f, rfl, h'⟩ := decimal_same_iff.mp hs'
    exact decimal_same_iff.mpr ⟨f, rfl, Decimal.same_trans h h'⟩
  | _ =>
    -- the scalars left are the same as themselves only
    rintro b - h
    cases b <;> simp_all

theorem same_symm {a b : Value} (wa : a.WellFormed) (wb : b.WellFormed)
    (h : a.same b = true) : b.same a = true := (equates a wa b wb h).1

theorem same_trans {a b c : Value} (wa : a.WellFormed) (wb : b.WellFormed) (wc : c.WellFormed)
    (h : a.same b = true) (h' : b.same c = true) : a.same c = true :=
  (equates a wa b wb h).2 c wc h'

theorem same_comm {a b : Value} (wa : a.WellFormed) (wb : b.WellFormed) :
    a.same b = b.same a :=
  Bool.eq_iff_iff.mpr ⟨same_symm wa wb, same_symm wb wa⟩

theorem same_congr {a a' b b' : Value} (wa : a.WellFormed) (wa' : a'.WellFormed)
    (wb : b.WellFormed) (wb' : b'.WellFormed) (ha : a'.same a = true) (hb : b'.same b = true) :
    a'.same b' = a.same b := by
  refine Bool.eq_iff_iff.mpr ⟨fun h => ?_, fun h => ?_⟩
  · exact same_trans wa wb' wb (same_trans wa wa' wb' (same_symm wa' wa ha) h) hb
  · exact same_trans wa' wb wb' (same_trans wa' wa wb ha h) (same_symm wb' wb hb)

/-! ## Sets -/

structure Agree (a b : Value) : Prop where
  left : a.WellFormed
  right : b.WellFormed
  same : a.same b = true

theorem any_same_congr {a b : Value} {xs ys : List Value} (hab : a.Agree b)
    (h : List.Forall₂ Agree xs ys) : xs.any a.same = ys.any b.same := by
  induction h with
  | nil => rfl
  | cons hxy _ ih =>
    rw [List.any_cons, List.any_cons, ih,
      same_congr hab.right hab.left hxy.right hxy.left hab.same hxy.same]

theorem forall₂_insert {a b : Value} {xs ys : List Value} (h : List.Forall₂ Agree xs ys)
    (hab : a.Agree b) : List.Forall₂ Agree (insert xs a) (insert ys b) := by
  unfold insert
  rw [any_same_congr hab h]
  split
  · exact h
  · exact List.rel_append h (.cons hab .nil)

theorem forall₂_distinct {xs ys : List Value} (h : List.Forall₂ Agree xs ys) :
    List.Forall₂ Agree (distinct xs) (distinct ys) := by
  have step : Relator.LiftFun (List.Forall₂ Agree) (Relator.LiftFun Agree (List.Forall₂ Agree))
      insert insert := fun _ _ h _ _ hab => forall₂_insert h hab
  exact List.rel_foldl step .nil h

theorem same_ofItems {k : SequenceKind} {xs ys : List Value} (h : List.Forall₂ Agree xs ys) :
    (ofItems k xs).same (ofItems k ys) = true := by
  apply sequence_same_iff.mpr
  refine ⟨_, rfl, ?_⟩
  split
  · have hd := forall₂_distinct h
    constructor
    · exact hd.length_eq
    · intro x hx
      obtain ⟨y, hy, hxy⟩ := hd.exists_of_mem_left hx
      exact ⟨y, hy, hxy.same⟩
  · exact h.imp fun _ _ hxy => hxy.same

/-! ## Maps -/

theorem same_map_of_perm {k : MapKind} {es fs gs : List (Value × Value)} (hp : fs.Perm es)
    (h : List.Forall₂ (fun f g => f.1 = g.1 ∧ f.2.same g.2 = true) fs gs) :
    (map k es).same (map k gs) = true := by
  apply map_same_iff.mpr
  refine ⟨gs, rfl, hp.length_eq.symm.trans h.length_eq, fun e he => ?_⟩
  obtain ⟨g, hg, hk, hv⟩ := h.exists_of_mem_left (hp.mem_iff.mpr he)
  exact ⟨g, hg, hk ▸ same_refl e.1, hv⟩

end Value

end ShapeCodec
