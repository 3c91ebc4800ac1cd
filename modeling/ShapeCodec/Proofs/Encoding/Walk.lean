import ShapeCodec.Proofs.Conformance.Cases
import ShapeCodec.Proofs.Encoding.Cases
import ShapeCodec.Proofs.Value.Equivalence

/-! # The walk of the encoder

Shape and value are walked together: from a value to one of its parts, or from a union to the branch
that is chosen. What is met on the way conforms, and the walk passes every part of the value.
-/

namespace ShapeCodec

namespace Shape

/-- One step of the encoder, from a shape and a value to those that it turns to. -/
inductive Steps (o : Settings) : Shape → Value → Shape → Value → Prop
  | item {k : SequenceKind} {s : Shape} {l : SequenceKind} {xs : List Value} {x : Value} :
    x ∈ xs → Steps o (sequence k s) (.sequence l xs) s x
  | position {ss : List Shape} {xs : List Value} {s : Shape} {x : Value} :
    (s, x) ∈ ss.zip xs → Steps o (tuple ss) (.sequence .tuple xs) s x
  | key {k : MappingKind} {key value : Shape} {l : MapKind} {es : List (Value × Value)}
    {e : Value × Value} : e ∈ es → Steps o (mapping k key value) (.map l es) key e.1
  | value {k : MappingKind} {key value : Shape} {l : MapKind} {es : List (Value × Value)}
    {e : Value × Value} : e ∈ es → Steps o (mapping k key value) (.map l es) value e.2
  | branch {s t : Shape} {ss : List Shape} {v : Value} :
    s.branches? = some ss → ss.find? (conforms o · v) = some t → Steps o s v t v
  | field {name n : String} {fs : List (Field Shape)} {vs : List (String × Value)}
    {f : Field Shape} {p : String × Value} :
    (f, p) ∈ fs.zip vs → Steps o (record name fs) (.record n vs) f.shape p.2
  | entry {name : String} {ks : List (Key Shape)} {l : MapKind} {es : List (Value × Value)}
    {k : Key Shape} {x : Value} :
    (k, x) ∈ declared ks es → Steps o (typedDict name ks) (.map l es) k.shape x

/-- The second shape and value are met when the first ones are encoded. -/
inductive Meets (o : Settings) : Shape → Value → Shape → Value → Prop
  | here {s : Shape} {v : Value} : Meets o s v s v
  | step {s t u : Shape} {v w x : Value} : Steps o s v t w → Meets o t w u x → Meets o s v u x

variable {o : Settings} {s t : Shape} {v w : Value}

theorem mem_of_lookup? {es : List (Value × Value)} {n : String}
    (h : Value.lookup? es (.str n) = some v) : (.str n, v) ∈ es := by
  obtain ⟨⟨x, y⟩, hf, rfl⟩ := Option.map_eq_some_iff.mp h
  have hs : (Value.str n).same x = true := by simpa using List.find?_some hf
  obtain rfl := Value.str_same_iff.mp hs
  exact List.mem_of_find?_eq_some hf

theorem lookup?_of_mem {l : MapKind} {es : List (Value × Value)} {n : String}
    (hd : (Value.map l es).Distinct) (h : (.str n, v) ∈ es) :
    Value.lookup? es (.str n) = some v := by
  induction es with
  | nil => cases h
  | cons e es ih =>
    obtain ⟨he, hd⟩ := List.pairwise_cons.mp hd
    by_cases hn : (Value.str n).same e.1 = true
    · rcases List.mem_cons.mp h with rfl | h
      · simp [Value.lookup?]
      · exact absurd hn (by simp [he _ h])
    · rcases List.mem_cons.mp h with rfl | h
      · exact absurd (Value.same_refl _) hn
      · have := ih hd h
        simp only [Value.lookup?] at this ⊢
        rwa [List.find?_cons_of_neg (by simpa using hn)]

theorem Steps.mem_parts (h : Steps o s v t w) : w = v ∨ w ∈ v.parts := by
  cases h with
  | item hx => exact .inr hx
  | position hp => exact .inr (List.of_mem_zip hp).2
  | key he => exact .inr (Value.mem_parts_map he).1
  | value he => exact .inr (Value.mem_parts_map he).2
  | branch => exact .inl rfl
  | field hp => exact .inr (Value.mem_parts_record (List.of_mem_zip hp).2)
  | entry hk => exact .inr (Value.mem_parts_map (mem_of_lookup? (mem_declared.mp hk).2)).2

theorem Steps.wellFormed (h : Steps o s v t w) (hv : v.WellFormed) : w.WellFormed := by
  rcases h.mem_parts with rfl | hw
  · exact hv
  · exact hv.part hw

/-- A step leads to a part of the shape, or to the empty branch of an optional one. -/
theorem Steps.shape_mem_parts (h : Steps o s v t w) : t ∈ s.parts ∨ t = none := by
  cases h with
  | item => exact .inl (List.mem_singleton.mpr rfl)
  | position hp => exact .inl (List.of_mem_zip hp).1
  | key => exact .inl (by simp)
  | value => exact .inl (by simp)
  | branch hb ht => exact mem_parts_of_branches? hb (List.mem_of_find?_eq_some ht)
  | field hp => exact .inl (mem_parts_record (List.of_mem_zip hp).1)
  | entry hk => exact .inl (mem_parts_typedDict (mem_declared.mp hk).1)

/-- The switches have a say in the choice of a branch only. -/
theorem Steps.congr {o' : Settings} (h : Steps o s v t w)
    (hc : s.branches? ≠ Option.none → ∀ u : Shape, u.conforms o v = u.conforms o' v) :
    Steps o' s v t w := by
  cases h with
  | item hx => exact .item hx
  | position hp => exact .position hp
  | key he => exact .key he
  | value he => exact .value he
  | branch hb ht =>
    have hsame : (Shape.conforms o · v) = (Shape.conforms o' · v) :=
      funext (hc (by simp [hb]))
    exact .branch hb (hsame ▸ ht)
  | field hp => exact .field hp
  | entry hk => exact .entry hk

theorem Steps.checkable (h : Steps o s v t w) (hs : s.checkable = true) : t.checkable = true := by
  rcases h.shape_mem_parts with ht | rfl
  · exact checkable_of_mem_parts hs ht
  · rfl

theorem Steps.encodable (h : Steps o s v t w) (hs : s.encodable = true) : t.encodable = true := by
  rcases h.shape_mem_parts with ht | rfl
  · exact encodable_of_mem_parts hs ht
  · rfl

theorem Steps.conforms (h : Steps o s v t w) (hs : s.checkable = true)
    (hv : s.conforms o v = true) : t.conforms o w = true := by
  cases h with
  | item hx =>
    obtain ⟨_, ⟨⟩, h⟩ := conforms_sequence_iff.mp hv
    exact h _ hx
  | position hp =>
    obtain ⟨_, ⟨⟩, h⟩ := conforms_tuple_iff.mp hv
    exact (List.forall₂_iff_zip.mp h).2 hp
  | key he =>
    obtain ⟨_, _, ⟨⟩, _, h⟩ := conforms_mapping_iff.mp hv
    exact (h _ he).1
  | value he =>
    obtain ⟨_, _, ⟨⟩, _, h⟩ := conforms_mapping_iff.mp hv
    exact (h _ he).2
  | branch _ ht => simpa using List.find?_some ht
  | field hp =>
    obtain ⟨_, _, ⟨⟩, h⟩ := conforms_record_iff.mp hv
    exact ((List.forall₂_iff_zip.mp h).2 hp).2
  | @entry _ ks _ _ k _ hk =>
    obtain ⟨hk, hx⟩ := mem_declared.mp hk
    obtain ⟨_, _, ⟨⟩, h, _⟩ := conforms_typedDict_iff.mp hv
    obtain ⟨n, k', hn, hf, hc⟩ := h _ (mem_of_lookup? hx)
    cases hn
    -- names are not repeated, so that the first declaration of the name is this one
    have hfind := List.find?_of_nodup_map (nodup_of_checkable_typedDict hs) hk
    obtain rfl := Option.some.inj (hfind.symm.trans hf)
    exact hc

/-- Of a union that a value conforms to a branch is chosen. -/
theorem exists_branch {ss : List Shape} (hb : s.branches? = some ss)
    (hv : s.conforms o v = true) : ∃ t, ss.find? (conforms o · v) = some t := by
  refine Option.isSome_iff_exists.mp (List.find?_isSome.mpr ?_)
  cases s <;> cases hb
  · rcases conforms_optional_iff.mp hv with h | h
    · exact ⟨_, List.mem_cons_self, h⟩
    · exact ⟨none, by simp, conforms_none_iff.mpr h⟩
  · exact conforms_union_iff.mp hv

theorem Meets.within (h : Meets o s v t w) : Value.Within w v := by
  induction h with
  | here => exact .here
  | step hs _ ih =>
    rcases hs.mem_parts with rfl | hw
    · exact ih
    · exact .part hw ih

/-- What is met occurs in the shape, or is the empty branch of an optional one. -/
theorem Meets.within_or_eq_none (h : Meets o s v t w) : Within t s ∨ t = none := by
  induction h with
  | here => exact .inl .here
  | step hst _ ih =>
    rcases hst.shape_mem_parts with hm | rfl
    · exact ih.imp_left (.part hm)
    · exact .inr (ih.elim (·.eq_of_parts_eq_nil rfl) id)

theorem not_steps_of_parts_eq_nil (hp : s.parts = []) (hb : s.branches? = Option.none) :
    ¬ Steps o s v t w := by
  intro hst
  cases hst with
  | branch hb' =>
    rw [hb] at hb'
    cases hb'
  | position hm =>
    obtain rfl : _ = [] := hp
    cases hm
  | field hm =>
    rw [List.map_eq_nil_iff.mp hp] at hm
    cases hm
  | entry hm =>
    have hk := (mem_declared.mp hm).1
    rw [List.map_eq_nil_iff.mp hp] at hk
    cases hk
  | _ => cases hp

/-- What holds where it holds of all that is stepped to holds of every shape and value. -/
theorem inductionSteps (o : Settings) {motive : Shape → Value → Prop}
    (step : ∀ s v, (∀ t w, Steps o s v t w → motive t w) → motive s v) (s : Shape) (v : Value) :
    motive s v := by
  induction s using inductionParts generalizing v with
  | step s ih =>
    refine step s v fun t w hst => ?_
    rcases hst.shape_mem_parts with ht | rfl
    · exact ih t ht w
    · -- the empty branch of an optional shape is no part of it, but nothing is met from there
      exact step none w fun u x h => (not_steps_of_parts_eq_nil rfl rfl h).elim

theorem Meets.eq_of_parts_eq_nil (hp : s.parts = []) (hb : s.branches? = Option.none)
    (h : Meets o s v t w) : t = s ∧ w = v := by
  rcases h with _ | ⟨hst, _⟩
  · exact ⟨rfl, rfl⟩
  · exact (not_steps_of_parts_eq_nil hp hb hst).elim

theorem parts_eq_nil_of_fits {l : Literal} (h : l.fits v = true) : v.parts = [] := by
  cases v <;> first | rfl | (cases l <;> simp [Literal.fits, Literal.toValue, Value.same] at h)

/-- The instances of a shape without parts and branches have no parts either. -/
theorem parts_eq_nil_of_conforms (hv : s.conforms o v = true) (ha : s ≠ any) (hp : s.parts = [])
    (hb : s.branches? = Option.none) : v.parts = [] := by
  cases s with
  | any => exact (ha rfl).elim
  | optional s => cases hb
  | union ss => cases hb
  | sequence k s => cases hp
  | mapping k key value => cases hp
  | tuple ss =>
    obtain rfl : ss = [] := hp
    obtain ⟨_, rfl, ⟨⟩⟩ := conforms_tuple_iff.mp hv
    rfl
  | literal ls =>
    obtain ⟨l, _, hl⟩ := conforms_literal_iff.mp hv
    exact parts_eq_nil_of_fits hl
  | record name fs =>
    obtain rfl := List.map_eq_nil_iff.mp hp
    obtain ⟨_, _, rfl, ⟨⟩⟩ := conforms_record_iff.mp hv
    rfl
  | typedDict name ks =>
    obtain rfl := List.map_eq_nil_iff.mp hp
    obtain ⟨l, es, rfl, he, _⟩ := conforms_typedDict_iff.mp hv
    cases es with
    | nil => rfl
    | cons e es =>
      obtain ⟨_, _, _, hk, _⟩ := he e List.mem_cons_self
      cases hk
  | _ => cases v <;> first | rfl | simp [Shape.conforms] at hv

/-- Every part of a conforming value is stepped to, or is a key of a typed dict; a branch is chosen
where the shape is a union. -/
theorem exists_steps_of_mem_parts {p : Value} (hw : v.WellFormed) (hv : s.conforms o v = true)
    (ha : s ≠ any) (hp : p ∈ v.parts) :
    (∃ t, Steps o s v t p) ∨ (∃ t, t ∈ s.parts ∧ Steps o s v t v) ∨ ∃ n, p = .str n := by
  cases s with
  | any => exact (ha rfl).elim
  | sequence k s =>
    obtain ⟨xs, rfl, _⟩ := conforms_sequence_iff.mp hv
    exact .inl ⟨s, .item hp⟩
  | tuple ss =>
    obtain ⟨xs, rfl, hx⟩ := conforms_tuple_iff.mp hv
    obtain ⟨t, ht⟩ := hx.exists_mem_zip hp
    exact .inl ⟨t, .position ht⟩
  | mapping k key value =>
    obtain ⟨l, es, rfl, _, _⟩ := conforms_mapping_iff.mp hv
    rcases List.mem_append.mp hp with hp | hp
    · obtain ⟨e, he, rfl⟩ := List.mem_map.mp hp
      exact .inl ⟨key, .key he⟩
    · obtain ⟨e, he, rfl⟩ := List.mem_map.mp hp
      exact .inl ⟨value, .value he⟩
  | optional s =>
    rcases conforms_optional_iff.mp hv with h | rfl
    · exact .inr (.inl ⟨s, List.mem_singleton.mpr rfl, .branch rfl (by simp [h])⟩)
    · cases hp
  | union ss =>
    obtain ⟨t, ht⟩ : ∃ t, ss.find? (conforms o · v) = some t :=
      Option.isSome_iff_exists.mp (List.find?_isSome.mpr (conforms_union_iff.mp hv))
    exact .inr (.inl ⟨t, List.mem_of_find?_eq_some ht, .branch rfl ht⟩)
  | record name fs =>
    obtain ⟨n, vs, rfl, hx⟩ := conforms_record_iff.mp hv
    obtain ⟨q, hq, rfl⟩ := List.mem_map.mp hp
    obtain ⟨f, hf⟩ := hx.exists_mem_zip hq
    exact .inl ⟨f.shape, .field hf⟩
  | typedDict name ks =>
    obtain ⟨l, es, rfl, he, _⟩ := conforms_typedDict_iff.mp hv
    rcases List.mem_append.mp hp with hp | hp
    · obtain ⟨e, hm, rfl⟩ := List.mem_map.mp hp
      obtain ⟨n, _, hn, _⟩ := he e hm
      exact .inr (.inr ⟨n, hn⟩)
    · obtain ⟨⟨x, y⟩, hm, rfl⟩ := List.mem_map.mp hp
      obtain ⟨n, k, hn, hk, _⟩ := he _ hm
      obtain rfl : k.name = n := by simpa using List.find?_some hk
      dsimp only at hn
      subst hn
      exact .inl ⟨k.shape, .entry (mem_declared.mpr
        ⟨List.mem_of_find?_eq_some hk, lookup?_of_mem hw.distinct hm⟩)⟩
  | _ =>
    rw [parts_eq_nil_of_conforms hv ha rfl rfl] at hp
    cases hp

end Shape

end ShapeCodec
