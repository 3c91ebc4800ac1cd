import Mathlib.Data.Fintype.EquivFin
import Mathlib.Data.List.Forall2
import Mathlib.Tactic.Choose

/-! # Lists that are related member by member

What a relation between the members of two lists says of the members of one of them, and when a
relation between two sets that leads one way leads the other way too.
-/

namespace List

variable {α β γ : Type} {R : α → β → Prop} {S : β → γ → Prop} {xs : List α} {ys : List β}

theorem Forall₂.exists_of_mem_left (h : Forall₂ R xs ys) {x : α} (hx : x ∈ xs) :
    ∃ y ∈ ys, R x y := by
  induction h with
  | nil => cases hx
  | cons hr _ ih =>
    rcases mem_cons.mp hx with rfl | hx
    · exact ⟨_, mem_cons_self, hr⟩
    · obtain ⟨y, hy, hr⟩ := ih hx
      exact ⟨y, mem_cons_of_mem _ hy, hr⟩

theorem Forall₂.exists_of_mem_right (h : Forall₂ R xs ys) {y : β} (hy : y ∈ ys) :
    ∃ x ∈ xs, R x y := h.flip.exists_of_mem_left hy

theorem Forall₂.exists_mem_zip (h : Forall₂ R xs ys) {y : β} (hy : y ∈ ys) :
    ∃ x, (x, y) ∈ xs.zip ys := by
  induction h with
  | nil => cases hy
  | cons _ _ ih =>
    rcases mem_cons.mp hy with rfl | hy
    · exact ⟨_, mem_cons_self⟩
    · obtain ⟨x, hx⟩ := ih hy
      exact ⟨x, mem_cons_of_mem _ hx⟩

theorem Forall₂.pairwise {P : β → β → Prop} {Q : α → α → Prop} (h : Forall₂ R xs ys)
    (hp : ys.Pairwise P) (hq : ∀ a b c d, R a c → R b d → P c d → Q a b) : xs.Pairwise Q := by
  induction h with
  | nil => exact .nil
  | cons hr hs ih =>
    obtain ⟨hy, hp⟩ := pairwise_cons.mp hp
    refine .cons (fun b hb => ?_) (ih hp)
    obtain ⟨d, hd, hbd⟩ := hs.exists_of_mem_left hb
    exact hq _ _ _ _ hr hbd (hy d hd)

theorem exists_forall₂ (h : ∀ x ∈ xs, ∃ y, R x y) : ∃ ys, Forall₂ R xs ys := by
  induction xs with
  | nil => exact ⟨[], .nil⟩
  | cons x xs ih =>
    obtain ⟨y, hy⟩ := h x mem_cons_self
    obtain ⟨ys, hys⟩ := ih fun z hz => h z (mem_cons_of_mem _ hz)
    exact ⟨y :: ys, .cons hy hys⟩

theorem Forall₂.imp_of_mem {R' : α → β → Prop} (h : Forall₂ R xs ys)
    (hi : ∀ x ∈ xs, ∀ y, R x y → R' x y) : Forall₂ R' xs ys := by
  induction h with
  | nil => exact .nil
  | cons hr _ ih =>
    exact .cons (hi _ mem_cons_self _ hr) (ih fun x hx => hi x (mem_cons_of_mem _ hx))

theorem Forall₂.comp_of_mem {T : α → γ → Prop} {zs : List γ} (h : Forall₂ R xs ys)
    (h' : Forall₂ S ys zs)
    (ht : ∀ x ∈ xs, ∀ y ∈ ys, ∀ z ∈ zs, R x y → S y z → T x z) : Forall₂ T xs zs := by
  induction h generalizing zs with
  | nil =>
    cases h'
    exact .nil
  | cons hxy _ ih =>
    obtain ⟨z, zs, hyz, hzs, rfl⟩ := forall₂_cons_left_iff.mp h'
    have rest := ih hzs fun x hx y hy z hz =>
      ht x (mem_cons_of_mem _ hx) y (mem_cons_of_mem _ hy) z (mem_cons_of_mem _ hz)
    exact .cons (ht _ mem_cons_self _ mem_cons_self _ mem_cons_self hxy hyz) rest

theorem forall₂_congr_of_mem {R' : α → β → Prop} (h : ∀ x ∈ xs, ∀ y, R x y ↔ R' x y) :
    Forall₂ R xs ys ↔ Forall₂ R' xs ys :=
  ⟨fun hr => hr.imp_of_mem fun x hx y => (h x hx y).mp,
    fun hr => hr.imp_of_mem fun x hx y => (h x hx y).mpr⟩

theorem find?_of_nodup_map [DecidableEq γ] {f : α → γ} (h : (xs.map f).Nodup) {x : α}
    (hx : x ∈ xs) : xs.find? (f · == f x) = some x := by
  induction xs with
  | nil => cases hx
  | cons y xs ih =>
    obtain ⟨hy, h⟩ := nodup_cons.mp h
    rcases mem_cons.mp hx with rfl | hx
    · simp
    · have hne : f y ≠ f x := fun he => hy (he ▸ mem_map_of_mem hx)
      rw [find?_cons_of_neg (by simpa using hne), ih h hx]

theorem Forall₂.of_zip {p : α × β → γ → Prop} {q : α → γ → Prop} {zs : List γ}
    (h : Forall₂ p (xs.zip ys) zs) (hl : xs.length = ys.length)
    (hq : ∀ x y z, (x, y) ∈ xs.zip ys → p (x, y) z → q x z) : Forall₂ q xs zs := by
  induction xs generalizing ys zs with
  | nil =>
    cases h
    exact .nil
  | cons x xs ih =>
    cases ys with
    | nil => cases hl
    | cons y ys =>
      obtain ⟨z, zs, hz, hzs, rfl⟩ := forall₂_cons_left_iff.mp h
      exact .cons (hq x y z mem_cons_self hz)
        (ih hzs (Nat.succ.inj hl) fun x y z hm => hq x y z (mem_cons_of_mem _ hm))

theorem Forall₂.exists_mem_zip_left {p : α × β → γ → Prop} {zs : List γ}
    (h : Forall₂ p (xs.zip ys) zs) {x : α} {y : β} (hm : (x, y) ∈ xs.zip ys) :
    ∃ z, (x, z) ∈ xs.zip zs ∧ p (x, y) z := by
  induction xs generalizing ys zs with
  | nil => cases hm
  | cons a xs ih =>
    cases ys with
    | nil => cases hm
    | cons b ys =>
      obtain ⟨z, zs, hz, hzs, rfl⟩ := forall₂_cons_left_iff.mp h
      rcases mem_cons.mp hm with he | hm
      · obtain ⟨rfl, rfl⟩ := Prod.mk.inj he
        exact ⟨z, mem_cons_self, hz⟩
      · obtain ⟨w, hw, hp⟩ := ih hzs hm
        exact ⟨w, mem_cons_of_mem _ hw, hp⟩

theorem Forall₂.exists_mem_zip_right {p : α × β → γ → Prop} {zs : List γ}
    (h : Forall₂ p (xs.zip ys) zs) {x : α} {z : γ} (hm : (x, z) ∈ xs.zip zs) :
    ∃ y, (x, y) ∈ xs.zip ys ∧ p (x, y) z := by
  induction xs generalizing ys zs with
  | nil => cases hm
  | cons a xs ih =>
    cases ys with
    | nil =>
      cases h
      cases hm
    | cons b ys =>
      obtain ⟨c, zs, hc, hzs, rfl⟩ := forall₂_cons_left_iff.mp h
      rcases mem_cons.mp hm with he | hm
      · obtain ⟨rfl, rfl⟩ := Prod.mk.inj he
        exact ⟨b, mem_cons_self, hc⟩
      · obtain ⟨w, hw, hp⟩ := ih hzs hm
        exact ⟨w, mem_cons_of_mem _ hw, hp⟩

theorem exists_findIdx?_of_find? {p : α → Bool} {x : α} (h : xs.find? p = some x) :
    ∃ i, xs.findIdx? p = some i ∧ xs[i]? = some x := by
  obtain ⟨hx, i, hi, rfl, hn⟩ := find?_eq_some_iff_getElem.mp h
  exact ⟨i, findIdx?_eq_some_iff_getElem.mpr ⟨hi, hx, by simpa using hn⟩, getElem?_eq_getElem hi⟩

theorem findIdx?_le {p : α → Bool} {i k : Nat} {x : α} (hk : xs.findIdx? p = some k)
    (hi : xs[i]? = some x) (hx : p x = true) : k ≤ i := by
  obtain ⟨hlt, -, hn⟩ := findIdx?_eq_some_iff_getElem.mp hk
  obtain ⟨hi, rfl⟩ := getElem?_eq_some_iff.mp hi
  by_contra hlt
  exact hn i (by omega) hx

theorem forall₂_map_map_iff {δ : Type} {R : β → γ → Prop} {l : List δ} {f : δ → β} {g : δ → γ} :
    Forall₂ R (l.map f) (l.map g) ↔ ∀ x ∈ l, R (f x) (g x) := by
  rw [forall₂_map_left_iff, forall₂_map_right_iff, forall₂_same]

theorem zip_map_zip (xs : List α) (ys : List β) (f : α × β → γ) :
    xs.zip ((xs.zip ys).map f) = (xs.zip ys).map fun q => (q.1, f q) := by
  induction xs generalizing ys with
  | nil => rfl
  | cons x xs ih =>
    cases ys with
    | nil => rfl
    | cons y ys => simp only [zip_cons_cons, map_cons, ih]

theorem forall_mem_pair {p : α → Prop} {a b : α} : (∀ x ∈ [a, b], p x) ↔ p a ∧ p b := by
  rw [forall_mem_cons, forall_mem_singleton]

/-- A relation that leads from a list into one of the same length, never twice to the same member,
leads to every member. -/
theorem exists_related_of_length_eq (hl : xs.length = ys.length) (hr : ∀ x ∈ xs, ∃ y ∈ ys, R x y)
    (hi : xs.Pairwise fun a b => ∀ y ∈ ys, R a y → ¬ R b y) :
    ∀ y ∈ ys, ∃ x ∈ xs, R x y := by
  have hf : ∀ i : Fin xs.length, ∃ j : Fin xs.length, R xs[i] (ys.get ⟨j, hl ▸ j.isLt⟩) := by
    intro i
    obtain ⟨y, hy, h⟩ := hr xs[i] (getElem_mem _)
    obtain ⟨j, hj, rfl⟩ := getElem_of_mem hy
    exact ⟨⟨j, hl ▸ hj⟩, h⟩
  choose f hf using hf
  have hinj : Function.Injective f := by
    have hlt : ∀ i j : Fin xs.length, i < j → f i ≠ f j := fun i j hij he =>
      pairwise_iff_getElem.mp hi i j i.isLt j.isLt hij _ (getElem_mem _) (hf i) (he ▸ hf j)
    intro i j he
    rcases lt_trichotomy i j with h | h | h
    · exact absurd he (hlt i j h)
    · exact h
    · exact absurd he.symm (hlt j i h)
  intro y hy
  obtain ⟨j, hj, rfl⟩ := getElem_of_mem hy
  obtain ⟨i, hi⟩ := Finite.injective_iff_surjective.mp hinj ⟨j, hl ▸ hj⟩
  have h := hf i
  rw [hi] at h
  exact ⟨xs[i], getElem_mem _, h⟩

/-- Two relations out of one list, and what they have in common member by member, lead to one list
that both of the others are related to. -/
theorem Forall₂.exists_right {δ : Type} {T : α → γ → Prop} {U : β → δ → Prop} {V : γ → δ → Prop}
    {zs : List γ} (h : Forall₂ R xs ys) (h' : Forall₂ T xs zs)
    (hr : ∀ x y z, R x y → T x z → ∃ w, U y w ∧ V z w) :
    ∃ ws, Forall₂ U ys ws ∧ Forall₂ V zs ws := by
  induction h generalizing zs with
  | nil =>
    cases h'
    exact ⟨[], .nil, .nil⟩
  | cons hxy _ ih =>
    obtain ⟨z, zs, hxz, hxs, rfl⟩ := forall₂_cons_left_iff.mp h'
    obtain ⟨w, hyw, hzw⟩ := hr _ _ _ hxy hxz
    obtain ⟨ws, hys, hzs⟩ := ih hxs
    exact ⟨w :: ws, .cons hyw hys, .cons hzw hzs⟩

theorem Forall₂.zip_left (h : Forall₂ R xs ys) (zs : List γ) :
    Forall₂ (fun p q => p.1 = q.1 ∧ R p.2 q.2) (zs.zip xs) (zs.zip ys) := by
  induction h generalizing zs with
  | nil =>
    rw [zip_nil_right, zip_nil_right]
    exact .nil
  | cons hxy _ ih =>
    cases zs with
    | nil => exact .nil
    | cons z zs => exact .cons ⟨rfl, hxy⟩ (ih zs)

theorem forall₂_snd_iff {es : List (γ × α)} {fs : List (γ × β)} :
    Forall₂ (fun e f => e.1 = f.1 ∧ R e.2 f.2) es fs ↔
      es.map (·.1) = fs.map (·.1) ∧ Forall₂ R (es.map (·.2)) (fs.map (·.2)) := by
  induction es generalizing fs with
  | nil => cases fs <;> simp
  | cons e es ih =>
    cases fs with
    | nil => simp
    | cons f fs =>
      simp only [forall₂_cons, ih, map_cons, cons.injEq]
      tauto

theorem Forall₂.forall₂_iff {T : α → γ → Prop} {U : β → γ → Prop} (h : Forall₂ R xs ys)
    (hr : ∀ x y, R x y → ∀ z, T x z ↔ U y z) {zs : List γ} :
    Forall₂ T xs zs ↔ Forall₂ U ys zs := by
  induction h generalizing zs with
  | nil => rw [forall₂_nil_left_iff, forall₂_nil_left_iff]
  | cons hxy _ ih => simp only [forall₂_cons_left_iff, hr _ _ hxy, ih]

theorem Forall₂.zip_right (h : Forall₂ R xs ys) (zs : List γ) :
    Forall₂ (fun p q => R p.1 q.1 ∧ p.2 = q.2) (xs.zip zs) (ys.zip zs) := by
  induction h generalizing zs with
  | nil => exact .nil
  | cons hxy _ ih =>
    cases zs with
    | nil => exact .nil
    | cons z zs => exact .cons ⟨hxy, rfl⟩ (ih zs)

theorem Forall₂.exists_find?_iff {p : α → Bool} {q : β → Bool} {P : α → Prop} {Q : β → Prop}
    (h : Forall₂ R xs ys) (hpq : ∀ x y, R x y → p x = q y) (hr : ∀ x y, R x y → (P x ↔ Q y)) :
    (∃ x, xs.find? p = some x ∧ P x) ↔ ∃ y, ys.find? q = some y ∧ Q y := by
  induction h with
  | nil => simp
  | @cons x y _ _ hxy _ ih =>
    have he := hpq x y hxy
    cases hp : p x with
    | true => simp [hp, ← he, hr x y hxy]
    | false => simp [hp, ← he, ih]

theorem Forall₂.findSome?_eq {f : α → Option γ} {g : β → Option γ} (h : Forall₂ R xs ys)
    (hr : ∀ x y, R x y → f x = g y) : xs.findSome? f = ys.findSome? g := by
  induction h with
  | nil => rfl
  | cons hxy _ ih => rw [findSome?_cons, findSome?_cons, hr _ _ hxy, ih]

theorem findSome?_flatMap {f : β → Option γ} {g : α → List β} :
    (xs.flatMap g).findSome? f = xs.findSome? fun x => (g x).findSome? f := by
  induction xs with
  | nil => rfl
  | cons x xs ih =>
    rw [flatMap_cons, findSome?_append, findSome?_cons, ih]
    cases (g x).findSome? f <;> rfl

/-- Where a member passes a test exactly when one of those that it stands for does, it can be
replaced by them in the search for the first that passes. -/
theorem exists_find?_flatMap_iff {p : α → Bool} {P : α → Prop} {g : α → List α}
    (hp : ∀ x, p x = (g x).any p)
    (hP : ∀ x, p x = true → (P x ↔ ∃ y, (g x).find? p = some y ∧ P y)) :
    (∃ x, xs.find? p = some x ∧ P x) ↔ ∃ y, (xs.flatMap g).find? p = some y ∧ P y := by
  induction xs with
  | nil => simp
  | cons x xs ih =>
    rw [flatMap_cons, find?_append]
    cases hx : p x with
    | true =>
      obtain ⟨y, hy⟩ := Option.isSome_iff_exists.mp (find?_isSome.trans any_eq_true.symm |>.mpr
        ((hp x).symm.trans hx))
      simpa [hx, hy] using hP x hx
    | false =>
      have hn : (g x).find? p = none := by simpa [hx] using hp x
      simpa [hx, hn] using ih

theorem Forall₂.exists_eq_map [Nonempty β] (h : Forall₂ R xs ys)
    (hr : ∀ x y z, R x y → R x z → y = z) : ∃ f : α → β, ys = xs.map f ∧ ∀ x ∈ xs, R x (f x) := by
  have hex : ∀ x ∈ xs, ∃ y, R x y := fun x hx =>
    let ⟨y, _, hy⟩ := h.exists_of_mem_left hx
    ⟨y, hy⟩
  choose! f hf using hex
  refine ⟨f, ?_, hf⟩
  induction h with
  | nil => rfl
  | cons hxy _ ih =>
    obtain ⟨hx, hxs⟩ := forall_mem_cons.mp hf
    rw [map_cons, hr _ _ _ hxy hx, ← ih hxs]

/-- Members that are paired with each other, and lead to what looks the same, lead by another
relation to what looks the same when this is so for each pair. -/
theorem map_eq_map_of_forall₂ {R S : α → β → Prop} {f : β → γ} {xs ys : List α}
    {as bs cs ds : List β} (ha : Forall₂ R xs as) (hb : Forall₂ R ys bs) (hc : Forall₂ S xs cs)
    (hd : Forall₂ S ys ds)
    (h : ∀ p ∈ xs.zip ys, ∀ a b c d, R p.1 a → R p.2 b → S p.1 c → S p.2 d → f a = f b → f c = f d)
    (he : as.map f = bs.map f) : cs.map f = ds.map f := by
  induction ha generalizing ys bs cs ds with
  | nil =>
    obtain rfl := map_eq_nil_iff.mp he.symm
    cases hb
    cases hc
    cases hd
    rfl
  | cons hxa _ ih =>
    obtain ⟨b, bs, rfl⟩ : ∃ b bs', bs = b :: bs' := by
      cases bs with
      | nil => cases he
      | cons b bs => exact ⟨b, bs, rfl⟩
    obtain ⟨y, ys, hyb, hbs, rfl⟩ := forall₂_cons_right_iff.mp hb
    obtain ⟨c, cs, hxc, hcs, rfl⟩ := forall₂_cons_left_iff.mp hc
    obtain ⟨d, ds, hyd, hds, rfl⟩ := forall₂_cons_left_iff.mp hd
    rw [map_cons, map_cons, cons.injEq] at he ⊢
    rw [zip_cons_cons] at h
    exact ⟨h _ mem_cons_self _ _ _ _ hxa hyb hxc hyd he.1,
      ih hbs hcs hds (fun p hp => h p (mem_cons_of_mem _ hp)) he.2⟩

theorem exists_of_mem_zip_zip {ys zs : List β} {p : (α × β) × α × β}
    (h : p ∈ (xs.zip ys).zip (xs.zip zs)) :
    ∃ x y z, p = ((x, y), x, z) ∧ (x, y) ∈ xs.zip ys ∧ (x, z) ∈ xs.zip zs := by
  induction xs generalizing ys zs with
  | nil => cases h
  | cons x xs ih =>
    cases ys with
    | nil => cases h
    | cons y ys =>
      cases zs with
      | nil => cases h
      | cons z zs =>
        rcases mem_cons.mp h with rfl | h
        · exact ⟨x, y, z, rfl, mem_cons_self, mem_cons_self⟩
        · obtain ⟨x, y, z, rfl, hy, hz⟩ := ih h
          exact ⟨x, y, z, rfl, mem_cons_of_mem _ hy, mem_cons_of_mem _ hz⟩

theorem flatMap_ite_singleton {p : α → Bool} {f : α → β} :
    (xs.flatMap fun x => if p x then [] else [f x]) = (xs.filter (!p ·)).map f := by
  induction xs with
  | nil => rfl
  | cons x xs ih => cases h : p x <;> simp [h, ih]

theorem count_flatMap_pair [BEq β] [LawfulBEq β] [BEq γ] [LawfulBEq γ] {f : α → β} {g : α → List γ}
    (h : xs.Pairwise fun x y => f x ≠ f y) {x : α} (hx : x ∈ xs) (c : γ) :
    (xs.flatMap fun y => (g y).map (f y, ·)).count (f x, c) = (g x).count c := by
  have others : ∀ ys : List α, (∀ y ∈ ys, f y ≠ f x) →
      (ys.flatMap fun y => (g y).map (f y, ·)).count (f x, c) = 0 := by
    intro ys hne
    rw [count_eq_zero]
    intro hm
    obtain ⟨y, hy, hm⟩ := mem_flatMap.mp hm
    obtain ⟨d, -, hd⟩ := mem_map.mp hm
    exact hne y hy (congrArg Prod.fst hd)
  induction xs with
  | nil => cases hx
  | cons y ys ih =>
    obtain ⟨hy, hys⟩ := pairwise_cons.mp h
    rw [flatMap_cons, count_append]
    rcases mem_cons.mp hx with rfl | hx
    · rw [others ys fun z hz => (hy z hz).symm,
        count_map_of_injective _ _ (Prod.mk_right_injective (f x)), Nat.add_zero]
    · have hother := others [y] (by simpa using hy x hx)
      rw [flatMap_singleton] at hother
      rw [hother, ih hys hx, Nat.zero_add]

end List
