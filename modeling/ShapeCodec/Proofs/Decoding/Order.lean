import Mathlib
import ShapeCodec.Proofs.Decoding.WellFormed
import ShapeCodec.Proofs.Gates
import ShapeCodec.Proofs.Json.Reordered

/-! # The order of entries does not matter

Trees that differ by the order of the entries of their maps decode to the same value or both not at
all. Each constructor passes this on from the parts of a shape: a record finds its fields by name, a
map compares its keys with all others, a set is built from members that are the same one by one, and
a branch that refuses a tree refuses it in every order.
-/

namespace ShapeCodec

namespace Shape

variable {o : Settings} {s : Shape} {j j' : Json} {v : Value}

/-- A tree that decodes under a shape decodes to the same value in every order of its entries. -/
def OrderFree (o : Settings) (s : Shape) : Prop :=
  ∀ j j' v, j.Reordered j' → j.UniqueKeys → decodeJson o s j = .ok v →
    ∃ w, decodeJson o s j' = .ok w ∧ v.same w = true

/-! ## Scalars and branches -/

theorem orderFree_of_parts_eq_nil (h : ∀ j v, decodeJson o s j = .ok v → j.parts = []) :
    OrderFree o s := by
  intro j j' v hr _ hv
  rw [hr.eq_of_parts_eq_nil (h j v hv)]
  exact ⟨v, hv, v.same_refl⟩

theorem orderFree_int : OrderFree o int := by
  apply orderFree_of_parts_eq_nil
  intro j v h
  obtain ⟨i, hi, -⟩ := decodeJson_int_eq_ok_iff.mp h
  cases j <;> first | rfl | cases hi

theorem orderFree_float : OrderFree o float := by
  apply orderFree_of_parts_eq_nil
  intro j v h
  obtain ⟨x, hx, -⟩ := decodeJson_float_eq_ok_iff.mp h
  cases j <;> first | rfl | cases hx

theorem orderFree_decimal : OrderFree o decimal := by
  apply orderFree_of_parts_eq_nil
  intro j v h
  obtain ⟨d, hd, -⟩ := decodeJson_decimal_eq_ok_iff.mp h
  cases j <;> first | rfl | cases hd

theorem orderFree_none : OrderFree o none := by
  apply orderFree_of_parts_eq_nil
  intro j v h
  obtain ⟨rfl, -⟩ := decodeJson_none_eq_ok_iff.mp h
  rfl

theorem orderFree_literal {ls : List Literal} : OrderFree o (literal ls) := by
  apply orderFree_of_parts_eq_nil
  intro j v h
  obtain ⟨l, hl, -⟩ := decodeJson_literal_eq_ok_iff.mp h
  have ha : l.accepts j = true := by simpa using List.find?_some hl
  cases j <;> first | rfl | (cases l <;> cases ha)

/-- The branches that refuse a tree refuse it in every order, so the same one is the first. -/
theorem orderFree_branches {ss : List Shape} (hb : s.branches? = some ss)
    (h : ∀ t ∈ ss, OrderFree o t) : OrderFree o s := by
  intro j j' v hr hj hv
  obtain ⟨pre, t, post, rfl, hpre, ht⟩ := (decodeJson_branches?_eq_ok_iff hb).mp hv
  obtain ⟨w, hw, hvw⟩ := h t (by simp) j j' v hr hj ht
  refine ⟨w, decodeJson_of_branches? hb (fun u hu x hx => ?_) hw, hvw⟩
  obtain ⟨y, hy, -⟩ := h u (List.mem_append_left _ hu) j' j x hr.symm (hr.uniqueKeys hj) hx
  exact hpre u hu y hy

/-! ## Lists -/

theorem OrderFree.agree (h : OrderFree o s) (hd : s.DefaultsWellFormed) (hr : j.Reordered j')
    (hj : j.UniqueKeys) (hv : decodeJson o s j = .ok v) :
    ∃ w, decodeJson o s j' = .ok w ∧ v.Agree w := by
  obtain ⟨w, hw, hvw⟩ := h j j' v hr hj hv
  exact ⟨w, hw, wellFormed_of_decodeJson hd hj hv,
    wellFormed_of_decodeJson hd (hr.uniqueKeys hj) hw, hvw⟩

theorem orderFree_sequence {k : SequenceKind} (hd : s.DefaultsWellFormed) (h : OrderFree o s) :
    OrderFree o (sequence k s) := by
  intro j j' v hr hj hv
  obtain ⟨xs, vs, rfl, hxv, rfl⟩ := decodeJson_sequence_eq_ok_iff.mp hv
  obtain ⟨ys, rfl, hxy⟩ := Json.reordered_list_iff.mp hr
  have hxy := (List.forall₂_and_left xs ys).mpr ⟨Json.uniqueKeys_list_iff.mp hj, hxy⟩
  obtain ⟨ws, hyw, hvw⟩ := hxy.exists_right hxv fun x y v hxy hv =>
    h.agree hd hxy.2 hxy.1 hv
  exact ⟨_, decodeJson_sequence_eq_ok_iff.mpr ⟨ys, ws, rfl, hyw, rfl⟩, Value.same_ofItems hvw⟩

theorem orderFree_tuple {ss : List Shape} (h : ∀ s ∈ ss, OrderFree o s) :
    OrderFree o (tuple ss) := by
  intro j j' v hr hj hv
  obtain ⟨xs, vs, rfl, hl, hxv, rfl⟩ := decodeJson_tuple_eq_ok_iff.mp hv
  obtain ⟨ys, rfl, hxy⟩ := Json.reordered_list_iff.mp hr
  have hmem : ∀ p ∈ ss.zip xs, p.1 ∈ ss ∧ p.2.UniqueKeys := fun p hp =>
    ⟨(List.of_mem_zip hp).1, hj.part (List.of_mem_zip hp).2⟩
  have hxy' := (List.forall₂_and_left _ _).mpr ⟨hmem, hxy.zip_left ss⟩
  obtain ⟨ws, hyw, hvw⟩ := hxy'.exists_right (V := fun v w => v.same w = true)
    (U := fun q w => decodeJson o q.1 q.2 = .ok w) hxv fun p q v hpq hv => by
      obtain ⟨⟨hs, hu⟩, he, hr⟩ := hpq
      exact he ▸ h p.1 hs p.2 q.2 v hr hu hv
  refine ⟨_, decodeJson_tuple_eq_ok_iff.mpr ⟨ys, ws, rfl, hxy.length_eq ▸ hl, hyw, rfl⟩, ?_⟩
  exact Value.sequence_same_iff.mpr ⟨ws, rfl, hvw⟩

/-! ## Maps -/

/-- When each entry gives the same under its key after its value is reordered, the whole map does,
up to the order. -/
theorem exists_entries_of_reordered {D : String × Json → Value × Value → Prop}
    {es gs : List (String × Json)} {ps : List (Value × Value)}
    (hr : (Json.map es).Reordered (.map gs)) (hp : List.Forall₂ D es ps)
    (h : ∀ e ∈ es, ∀ x p, e.2.Reordered x → D e p →
      ∃ w, D (e.1, x) (p.1, w) ∧ p.2.same w = true) :
    ∃ qs rs, qs.Perm ps ∧ List.Forall₂ D gs rs ∧
      List.Forall₂ (fun q r => q.1 = r.1 ∧ q.2.same r.2 = true) qs rs := by
  obtain ⟨fs, _, hj, hef, hfg⟩ := Json.reordered_map_iff.mp hr
  obtain rfl := Json.map.inj hj
  obtain ⟨qs, hfq, hqp⟩ := List.perm_comp_forall₂ hef.symm hp
  have hfg := (List.forall₂_and_left _ _).mpr ⟨fun f hf => hef.mem_iff.mpr hf, hfg⟩
  obtain ⟨rs, hgr, hqr⟩ := hfg.exists_right (U := D)
    (V := fun q r => q.1 = r.1 ∧ q.2.same r.2 = true) hfq fun f g q hfg hq => by
      obtain ⟨hf, hk, hr⟩ := hfg
      obtain ⟨w, hw, hqw⟩ := h f hf g.2 q hr hq
      rw [hk] at hw
      exact ⟨(q.1, w), hw, rfl, hqw⟩
  exact ⟨qs, rs, hqp, hgr, hqr⟩

theorem orderFree_mapping {k : MappingKind} {key value : Shape}
    (hd : key.DefaultsWellFormed) (h : OrderFree o value) : OrderFree o (mapping k key value) := by
  intro j j' v hr hj hv
  obtain ⟨es, ps, rfl, hep, hn, rfl⟩ := decodeJson_mapping_eq_ok_iff.mp hv
  obtain ⟨_, gs, rfl, -⟩ := Json.reordered_map_iff.mp hr
  obtain ⟨qs, rs, hqp, hgr, hqr⟩ := exists_entries_of_reordered hr hep
    fun e he x p hx hp => by
      obtain ⟨w, hw, hpw⟩ := h e.2 x p.2 hx (hj.part (Json.mem_parts_map he)) hp.2
      exact ⟨w, ⟨hp.1, hw⟩, hpw⟩
  -- keys that are apart in one order are apart in the other one: sameness is symmetric
  have hkeys : ∀ p ∈ ps, p.1.WellFormed := by
    intro p hp
    obtain ⟨e, -, he, -⟩ := hep.exists_of_mem_right hp
    obtain ⟨c, hc, hk⟩ := uniqueKeys_of_decodeKeyText he
    exact wellFormed_of_decodeJson hd hc hk
  have hn : ps.Pairwise fun a b => b.1.same a.1 = false ∧ a.1.same b.1 = false :=
    hn.imp_of_mem fun {a b} ha hb hab =>
      ⟨hab, (Value.same_comm (hkeys a ha) (hkeys b hb)).trans hab⟩
  have hn : rs.Pairwise fun a b => b.1.same a.1 = false := by
    have hq := (hqp.pairwise_iff fun h => h.symm).mpr hn
    refine hqr.flip.pairwise hq fun a b c d hca hdb hcd => ?_
    rw [← hca.1, ← hdb.1]
    exact hcd.1
  exact ⟨_, decodeJson_mapping_eq_ok_iff.mpr ⟨gs, rs, rfl, hgr, hn, rfl⟩,
    Value.same_map_of_perm hqp hqr⟩

theorem orderFree_typedDict {name : String} {ks : List (Key Shape)}
    (h : ∀ k ∈ ks, OrderFree o k.shape) : OrderFree o (typedDict name ks) := by
  intro j j' v hr hj hv
  obtain ⟨es, ps, rfl, hreq, hep, rfl⟩ := decodeJson_typedDict_eq_ok_iff.mp hv
  obtain ⟨_, gs, rfl, -⟩ := Json.reordered_map_iff.mp hr
  obtain ⟨qs, rs, hqp, hgr, hqr⟩ := exists_entries_of_reordered hr hep
    fun e he x p hx hp => by
      obtain ⟨hn, k, hk, hp⟩ := hp
      obtain ⟨w, hw, hpw⟩ := h k (List.mem_of_find?_eq_some hk) e.2 x p.2 hx
        (hj.part (Json.mem_parts_map he)) hp
      exact ⟨w, ⟨hn, k, hk, hw⟩, hpw⟩
  refine ⟨_, decodeJson_typedDict_eq_ok_iff.mpr ⟨gs, rs, rfl, fun k hk hq => ?_, hgr, rfl⟩,
    Value.same_map_of_perm hqp hqr⟩
  obtain ⟨e, he, hn⟩ := hreq k hk hq
  obtain ⟨g, hg, hk, -⟩ := hr.exists_of_mem he
  exact ⟨g, hg, hk ▸ hn⟩

/-! ## Records -/

theorem Lays.reordered {fs : List (Field Shape)} {given : List (Option Json)}
    (h : Lays fs j given) (hr : j.Reordered j') (hj : j.UniqueKeys) :
    ∃ given', Lays fs j' given' ∧ List.Forall₂ (Option.Rel Json.Reordered) given given' := by
  rcases h with ⟨es, rfl, hn, rfl⟩ | ⟨xs, rfl, hl, hu, rfl⟩
  · obtain ⟨_, gs, rfl, -⟩ := Json.reordered_map_iff.mp hr
    refine ⟨_, .inl ⟨gs, rfl, fun g hg => ?_, rfl⟩, ?_⟩
    · obtain ⟨e, he, hk, -⟩ := hr.symm.exists_of_mem hg
      obtain ⟨f, hf, hfe⟩ := hn e he
      exact ⟨f, hf, hfe.trans hk.symm⟩
    · exact List.forall₂_map_map_iff.mpr fun f _ => hr.find? hj f.name
  · obtain ⟨ys, rfl, hxy⟩ := Json.reordered_list_iff.mp hr
    rw [hxy.length_eq] at hl hu
    refine ⟨_, .inr ⟨ys, rfl, hl, hu, rfl⟩, ?_⟩
    unfold fieldsOfList
    rw [hxy.length_eq]
    apply List.rel_append
    · rw [List.forall₂_map_left_iff, List.forall₂_map_right_iff]
      exact hxy.imp fun _ _ h => .some h
    · exact List.forall₂_same.mpr fun x hx => (List.mem_replicate.mp hx).2 ▸ .none

theorem Lays.uniqueKeys {fs : List (Field Shape)} {given : List (Option Json)}
    (h : Lays fs j given) (hj : j.UniqueKeys) {x : Json} (hx : some x ∈ given) : x.UniqueKeys := by
  rcases h.mem hx with ⟨es, rfl, e, he, rfl⟩ | ⟨xs, rfl, hm⟩
  · exact hj.part (Json.mem_parts_map he)
  · exact hj.part hm

theorem Fills.reordered {f : Field Shape} {given given' : Option Json} (h : OrderFree o f.shape)
    (hr : Option.Rel Json.Reordered given given') (hu : ∀ x, given = some x → x.UniqueKeys)
    (hv : Fills o f given v) : ∃ w, Fills o f given' w ∧ v.same w = true := by
  cases hr with
  | none => exact ⟨v, hv, v.same_refl⟩
  | @some x y hxy =>
    rcases hv with ⟨_, ⟨⟩, hx⟩ | ⟨⟨⟩, -⟩
    obtain ⟨w, hw, hvw⟩ := h x y v hxy (hu x rfl) hx
    exact ⟨w, .inl ⟨y, rfl, hw⟩, hvw⟩

theorem orderFree_record {name : String} {fs : List (Field Shape)}
    (h : ∀ f ∈ fs, OrderFree o f.shape) : OrderFree o (record name fs) := by
  intro j j' v hr hj hv
  obtain ⟨given, vs, hg, hgv, rfl⟩ := decodeJson_record_eq_ok_iff.mp hv
  obtain ⟨given', hg', hgg⟩ := hg.reordered hr hj
  have hmem : ∀ p ∈ fs.zip given, p.1 ∈ fs ∧ ∀ x, p.2 = some x → x.UniqueKeys := by
    intro p hp
    obtain ⟨hf, hx⟩ := List.of_mem_zip hp
    exact ⟨hf, fun x he => hg.uniqueKeys hj (he ▸ hx)⟩
  have hgg' := (List.forall₂_and_left _ _).mpr ⟨hmem, hgg.zip_left fs⟩
  obtain ⟨ws, hgw, hvw⟩ := hgg'.exists_right
    (U := fun q (w : String × Value) => w.1 = q.1.name ∧ Fills o q.1 q.2 w.2)
    (V := fun v w => v.1 = w.1 ∧ v.2.same w.2 = true) hgv fun p q v hpq hv => by
      obtain ⟨⟨hf, hu⟩, he, hr⟩ := hpq
      obtain ⟨w, hw, hvw⟩ := hv.2.reordered (h p.1 hf) hr hu
      exact ⟨(v.1, w), ⟨he ▸ hv.1, he ▸ hw⟩, rfl, hvw⟩
  exact ⟨_, decodeJson_record_eq_ok_iff.mpr ⟨given', ws, hg', hgw, rfl⟩,
    Value.record_same_iff.mpr ⟨ws, rfl, hvw⟩⟩

/-! ## The whole -/

theorem orderFree (hd : s.DefaultsWellFormed) : OrderFree o s := by
  induction s using inductionParts with
  | step s ih =>
  obtain ⟨-, hd⟩ := defaultsWellFormed_iff.mp hd
  have part : ∀ p ∈ s.parts, OrderFree o p := fun p hp => ih p hp (hd p hp)
  have scalar : (∀ j v, decodeJson o s j = .ok v → j.parts = []) → OrderFree o s :=
    orderFree_of_parts_eq_nil
  cases s with
  | any => exact scalar fun j v h => (decodeJson_any_ne_ok h).elim
  | bool =>
    apply scalar
    intro j v h
    obtain ⟨b, rfl, -⟩ := decodeJson_bool_eq_ok_iff.mp h
    rfl
  | str =>
    apply scalar
    intro j v h
    obtain ⟨t, rfl, -⟩ := decodeJson_str_eq_ok_iff.mp h
    rfl
  | none => exact orderFree_none
  | ellipsis =>
    apply scalar
    intro j v h
    obtain ⟨rfl, -⟩ := decodeJson_ellipsis_eq_ok_iff.mp h
    rfl
  | enum name ms =>
    apply scalar
    intro j v h
    obtain ⟨m, rfl, -⟩ := decodeJson_enum_eq_ok_iff.mp h
    rfl
  | int => exact orderFree_int
  | float => exact orderFree_float
  | decimal => exact orderFree_decimal
  | literal ls => exact orderFree_literal
  | sequence k s => exact orderFree_sequence (hd s (by simp)) (part s (by simp))
  | tuple ss => exact orderFree_tuple part
  | mapping k key value =>
    exact orderFree_mapping (hd key (by simp)) (part value (by simp))
  | optional s =>
    exact orderFree_branches rfl
      (List.forall_mem_pair.mpr ⟨part s (by simp), orderFree_none⟩)
  | union ss => exact orderFree_branches rfl part
  | record name fs => exact orderFree_record fun f hf => part _ (mem_parts_record hf)
  | typedDict name ks => exact orderFree_typedDict fun k hk => part _ (mem_parts_typedDict hk)

end Shape

/-- Trees that differ by the order of entries decode to the same value or both fail. Neither a tree
nor a default is built with a repeated key or member. -/
theorem decode_reordered (o : Settings) (s : Shape) (j j' : Json) (hd : s.DefaultsWellFormed)
    (hj : j.UniqueKeys) (hr : j.Reordered j') :
    (∃ v w, decode o s j = .ok v ∧ decode o s j' = .ok w ∧ v.same w = true) ∨
      ∃ f g, decode o s j = .error f ∧ decode o s j' = .error g := by
  cases hv : decode o s j with
  | ok v =>
    obtain ⟨hs, h⟩ := decode_eq_ok_iff.mp hv
    obtain ⟨w, hw, hvw⟩ := Shape.orderFree hd j j' v hr hj h
    exact .inl ⟨v, w, rfl, decode_eq_ok_iff.mpr ⟨hs, hw⟩, hvw⟩
  | error f =>
    cases hw : decode o s j' with
    | ok w =>
      obtain ⟨hs, h⟩ := decode_eq_ok_iff.mp hw
      obtain ⟨v, h, -⟩ := Shape.orderFree hd j' j w hr.symm (hr.uniqueKeys hj) h
      rw [decode_eq_ok_iff.mpr ⟨hs, h⟩] at hv
      cases hv
    | error g => exact .inr ⟨f, g, rfl, rfl⟩

def stockShape : Shape :=
  .record "Stock" [⟨"racks", .sequence .set .int, some (.sequence .set [.int 3])⟩,
    ⟨"sizes", .sequence .frozenSet (.mapping .dict .str .int), none⟩,
    ⟨"names", .mapping .ordered .int .str, none⟩]

def stock : Json :=
  .map [("sizes", .list [.map [("a", .int 1), ("b", .int 2)], .map [("b", .int 2), ("a", .int 1)]]),
    ("names", .map [("1", .str "x"), ("2", .str "y")])]

def stockExchanged : Json :=
  .map [("names", .map [("2", .str "y"), ("1", .str "x")]),
    ("sizes", .list [.map [("b", .int 2), ("a", .int 1)], .map [("b", .int 2), ("a", .int 1)]])]

theorem stock_reordered : stock.Reordered stockExchanged := by
  have exchanged : ∀ a b : String × Json, (Json.map [a, b]).Reordered (.map [b, a]) := fun a b =>
    .map (.swap b a []) rfl (List.forall₂_same.mpr fun x _ => .refl x)
  refine .map (.swap _ _ []) rfl (.cons (exchanged _ _) (.cons (.list ?_) .nil))
  exact .cons (exchanged _ _) (.cons (.refl _) .nil)

theorem decode_reordered_stock :
    ∃ v w, decode .standard stockShape stock = .ok v ∧
      decode .standard stockShape stockExchanged = .ok w ∧ v.same w = true := by
  have leaf : ∀ {t : Shape}, t.parts = [] → t.DefaultsWellFormed :=
    Shape.defaultsWellFormed_of_parts_eq_nil
  have hdefaults : stockShape.DefaultsWellFormed := by
    apply Shape.defaultsWellFormed_iff.mpr
    constructor
    · rintro name fs ⟨⟩ f hf v hv
      simp only [List.mem_cons, List.not_mem_nil, or_false] at hf
      rcases hf with rfl | rfl | rfl <;> cases hv
      exact Value.wellFormed_sequence_iff.mpr ⟨fun _ => List.pairwise_singleton _ _,
        List.forall_mem_singleton.mpr (Value.wellFormed_of_parts_eq_nil rfl)⟩
    · have hset : (Shape.sequence .set .int).DefaultsWellFormed := .sequence (leaf rfl)
      have hsizes : (Shape.sequence .frozenSet (.mapping .dict .str .int)).DefaultsWellFormed :=
        .sequence (.mapping (leaf rfl) (leaf rfl))
      have hnames : (Shape.mapping .ordered .int .str).DefaultsWellFormed :=
        .mapping (leaf rfl) (leaf rfl)
      simp [stockShape, Shape.parts, hset, hsizes, hnames]
  have hkeys : stock.UniqueKeys := by
    have number : ∀ i, (Json.int i).UniqueKeys := fun i => Json.uniqueKeys_of_parts_eq_nil rfl
    have string : ∀ t, (Json.str t).UniqueKeys := fun t => Json.uniqueKeys_of_parts_eq_nil rfl
    simp [stock, number, string]
  rcases decode_reordered .standard _ _ _ hdefaults hkeys stock_reordered with h | ⟨f, _, h, _⟩
  · exact h
  · have hv : ∃ v, decode .standard stockShape stock = .ok v := ⟨_, by cbv⟩
    obtain ⟨v, hv⟩ := hv
    rw [h] at hv
    cases hv

end ShapeCodec
