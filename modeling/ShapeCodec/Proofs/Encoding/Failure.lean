import Mathlib
import ShapeCodec.Proofs.Encoding.Walk
import ShapeCodec.Proofs.Gates

/-! # When encoding fails

Past the gates two things alone stand in the way of an encoding: a float that is not finite, and two
keys of one map that become the same text. Each is met where the encoder walks, and whatever is met
there stops it.
-/

namespace ShapeCodec

namespace Shape

variable {o : Settings} {s t : Shape} {v w : Value} {r : Reason}
attribute [local simp] encodeValue encodeLiteral encodeFloat

/-- What a shape itself has against the encoding of a value, whatever its parts. -/
inductive Refuses (o : Settings) : Shape → Value → Reason → Prop
  | float {x : Binary64} : x.isFinite = false → Refuses o float (.float x) (.infiniteFloat x)
  | keys {k : MappingKind} {key value : Shape} {l : MapKind} {es : List (Value × Value)}
    {a b : Value × Value} {text : String} : [a, b].Sublist es → keyTextOf o key a.1 = .ok text →
    keyTextOf o key b.1 = .ok text →
    Refuses o (mapping k key value) (.map l es) (.collidingKeys es text)

theorem toNumeral?_eq_none_iff {x : Binary64} :
    x.toNumeral? = Option.none ↔ x.isFinite = false := by
  cases x <;> simp [Binary64.toNumeral?, Binary64.isFinite]

theorem encodeFloat_eq_error {x : Binary64} (h : encodeFloat x = .error r) :
    x.isFinite = false ∧ r = .infiniteFloat x := by
  unfold encodeFloat at h
  split at h
  · cases h
  · rename_i hn
    exact ⟨toNumeral?_eq_none_iff.mp hn, (Except.error.inj h).symm⟩

theorem encodeFloat_ne_ok {x : Binary64} (h : x.isFinite = false) (j : Json) :
    encodeFloat x ≠ .ok j := by
  rw [encodeFloat, toNumeral?_eq_none_iff.mpr h]
  exact nofun

theorem encodeLiteral_ne_error {l : Literal} (h : l.isEncodable = true) :
    encodeLiteral l ≠ .error r := by
  cases l with
  | float x =>
    intro he
    have := (encodeFloat_eq_error he).1
    simp_all [Literal.isEncodable]
  | _ => simp

theorem isSome_scalarText_of_encodeFloat {x : Binary64} {j : Json} (h : encodeFloat x = .ok j) :
    j.scalarText?.isSome = true := by
  unfold encodeFloat at h
  split at h <;> cases h
  rfl

theorem isSome_scalarText_of_encodeLiteral {l : Literal} {j : Json}
    (h : encodeLiteral l = .ok j) : j.scalarText?.isSome = true := by
  cases l with
  | float x => exact isSome_scalarText_of_encodeFloat h
  | bool b => cases h; cases b <;> rfl
  | _ => cases h; rfl

theorem isSome_scalarText {key : Shape} {j : Json} (hk : key.keyForm = .direct)
    (hv : key.conforms o v = true) (hj : encodeValue o key v = .ok j) :
    j.scalarText?.isSome = true := by
  have scalar : ∀ c : Json, encodeValue o key v = .ok c → c.scalarText?.isSome = true →
      j.scalarText?.isSome = true := by
    intro c hc h
    obtain rfl : j = c := Except.ok.inj (hj.symm.trans hc)
    exact h
  cases key with
  | bool =>
    obtain ⟨b, rfl⟩ := conforms_bool_iff.mp hv
    exact scalar (.bool b) (by simp) (by cases b <;> rfl)
  | int =>
    rcases conforms_int_iff.mp hv with ⟨i, rfl⟩ | ⟨d, i, rfl, _, _, hi⟩
    · exact scalar (.int i) (by simp) rfl
    · exact scalar (.int i) (by simp [hi]) rfl
  | float =>
    rcases conforms_float_iff.mp hv with ⟨i, rfl⟩ | ⟨x, rfl⟩ | ⟨d, rfl, _⟩
    · exact scalar (.int i) (by simp) rfl
    · rw [encodeValue] at hj
      exact isSome_scalarText_of_encodeFloat hj
    · exact scalar (.number d.toNumeral) (by simp) rfl
  | str =>
    obtain ⟨t, rfl⟩ := conforms_str_iff.mp hv
    exact scalar (.str t) (by simp) rfl
  | none => exact scalar .null (by simp) rfl
  | literal ls =>
    obtain ⟨l, -, hl⟩ := encodeValue_literal_eq_ok_iff.mp hj
    exact isSome_scalarText_of_encodeLiteral hl
  | enum name ms =>
    obtain ⟨m, rfl, _⟩ := conforms_enum_iff.mp hv
    exact scalar (.str m) (by simp) rfl
  | _ => cases hk

theorem encodeValue_eq_error_of_keyTextOf {key : Shape} (hv : key.conforms o v = true)
    (h : keyTextOf o key v = .error r) : encodeValue o key v = .error r := by
  rcases bind_eq_error_iff.mp h with h | ⟨j, hj, h⟩
  · exact h
  unfold keyText at h
  split at h
  · cases h
  · rename_i hk
    obtain ⟨t, ht⟩ := Option.isSome_iff_exists.mp (isSome_scalarText hk hv hj)
    simp [ht] at h

theorem exists_encodeValue_of_keyTextOf {key : Shape} {text : String}
    (h : keyTextOf o key v = .ok text) : ∃ j, encodeValue o key v = .ok j :=
  let ⟨j, hj, _⟩ := bind_eq_ok_iff.mp h
  ⟨j, hj⟩

theorem encodeValue_of_branches? {ss : List Shape} (hb : s.branches? = some ss)
    (ht : ss.find? (conforms o · v) = some t) : encodeValue o s v = encodeValue o t v := by
  cases s <;> cases hb
  · rename_i s
    by_cases hs : s.conforms o v = true
    · obtain rfl : s = t := by simpa [hs] using ht
      simp [hs]
    · obtain ⟨hv, rfl⟩ : none.conforms o v = true ∧ none = t := by simpa [hs] using ht
      obtain rfl := conforms_none_iff.mp hv
      simp [hs]
  · rw [encodeValue, encodeBranch_eq, ht]

theorem encodeValue_branches?_eq_ok_iff {ss : List Shape} {j : Json} (hb : s.branches? = some ss) :
    encodeValue o s v = .ok j ↔
      ∃ t, ss.find? (conforms o · v) = some t ∧ encodeValue o t v = .ok j := by
  cases hf : ss.find? (conforms o · v) with
  | some t => simp [encodeValue_of_branches? hb hf]
  | none =>
    simp only [reduceCtorEq, false_and, exists_false, iff_false]
    cases s <;> cases hb
    · rename_i s
      obtain ⟨hs, hv⟩ : conforms o s v = false ∧ conforms o none v = false := by simpa using hf
      have hn : v ≠ .none := fun h => by simp [conforms_none_iff.mpr h] at hv
      simp [hs]
    · rw [encodeValue, encodeBranch_eq, hf]
      simp

/-- An error comes from a step or from the shape itself. -/
theorem exists_of_encodeValue_eq_error (hs : s.encodable = true) (hv : s.conforms o v = true)
    (h : encodeValue o s v = .error r) :
    (∃ t w, Steps o s v t w ∧ encodeValue o t w = .error r) ∨ Refuses o s v r := by
  have branch : ∀ ss, s.branches? = some ss → (∃ t ∈ ss, t.conforms o v = true) →
      ∃ t w, Steps o s v t w ∧ encodeValue o t w = .error r := by
    intro ss hb ht
    obtain ⟨t, ht⟩ := Option.isSome_iff_exists.mp (List.find?_isSome.mpr ht)
    exact ⟨t, v, .branch hb ht, encodeValue_of_branches? hb ht ▸ h⟩
  cases s with
  | any => cases hs
  | bool => obtain ⟨b, rfl⟩ := conforms_bool_iff.mp hv; simp at h
  | int =>
    rcases conforms_int_iff.mp hv with ⟨i, rfl⟩ | ⟨d, i, rfl, _, _, hi⟩
    · simp at h
    · simp [hi] at h
  | float =>
    rcases conforms_float_iff.mp hv with ⟨i, rfl⟩ | ⟨x, rfl⟩ | ⟨d, rfl, _⟩
    · simp at h
    · rw [encodeValue] at h
      obtain ⟨hx, rfl⟩ := encodeFloat_eq_error h
      exact .inr (.float hx)
    · simp at h
  | str => obtain ⟨b, rfl⟩ := conforms_str_iff.mp hv; simp at h
  | none => simp at h
  | ellipsis => simp at h
  | decimal => obtain ⟨d, rfl⟩ := conforms_decimal_iff.mp hv; simp at h
  | sequence k s =>
    obtain ⟨xs, rfl, _⟩ := conforms_sequence_iff.mp hv
    rw [encodeValue, map_eq_error_iff] at h
    obtain ⟨x, hx, h⟩ := exists_of_mapM_eq_error h
    exact .inl ⟨s, x, .item hx, h⟩
  | tuple ss =>
    obtain ⟨xs, rfl, hx⟩ := conforms_tuple_iff.mp hv
    rw [encodeValue, if_pos hx.length_eq.symm, map_eq_error_iff, encodeItems_eq] at h
    obtain ⟨p, hp, h⟩ := exists_of_mapM_eq_error h
    exact .inl ⟨p.1, p.2, .position hp, h⟩
  | mapping k key value =>
    obtain ⟨l, es, rfl, _, he⟩ := conforms_mapping_iff.mp hv
    rw [encodeValue, map_eq_error_iff] at h
    rcases exists_of_encodeEntries_eq_error h with
      ⟨e, hm, h | h⟩ | ⟨t, rfl, ⟨q, hq, _⟩ | ⟨a, b, hab, ha, hb⟩⟩
    · exact .inl ⟨key, e.1, .key hm, encodeValue_eq_error_of_keyTextOf (he e hm).1 h⟩
    · exact .inl ⟨value, e.2, .value hm, h⟩
    · cases hq
    · exact .inr (.keys hab ha hb)
  | optional s =>
    refine .inl (branch _ rfl ?_)
    rcases conforms_optional_iff.mp hv with h | rfl
    · exact ⟨s, List.mem_cons_self, h⟩
    · exact ⟨none, by simp, conforms_none_iff.mpr rfl⟩
  | union ss => exact .inl (branch _ rfl (conforms_union_iff.mp hv))
  | literal ls =>
    rw [encodeValue] at h
    split at h
    · rename_i l hl
      simp only [Shape.encodable, List.all_eq_true] at hs
      exact (encodeLiteral_ne_error (hs l (List.mem_of_find?_eq_some hl)) h).elim
    · rename_i hl
      obtain ⟨l, hm, hf⟩ := conforms_literal_iff.mp hv
      exact (List.find?_eq_none.mp hl l hm hf).elim
  | record name fs =>
    obtain ⟨n, vs, rfl, _⟩ := conforms_record_iff.mp hv
    rw [encodeValue, map_eq_error_iff, encodeFields_eq] at h
    obtain ⟨p, hp, h⟩ := exists_of_mapM_eq_error h
    exact .inl ⟨p.1.shape, p.2.2, .field hp, map_eq_error_iff.mp h⟩
  | enum name ms => obtain ⟨m, rfl, _⟩ := conforms_enum_iff.mp hv; simp at h
  | typedDict name ks =>
    obtain ⟨l, es, rfl, _⟩ := conforms_typedDict_iff.mp hv
    rw [encodeValue, map_eq_error_iff, encodeKeys_eq] at h
    obtain ⟨p, hp, h⟩ := exists_of_mapM_eq_error h
    exact .inl ⟨p.1.shape, p.2, .entry hp, map_eq_error_iff.mp h⟩

theorem Steps.exists_encodeValue (h : Steps o s v t w) (hv : ∃ j, encodeValue o s v = .ok j) :
    ∃ j, encodeValue o t w = .ok j := by
  obtain ⟨j, hj⟩ := hv
  cases h with
  | item hx =>
    obtain ⟨_, _, js, ⟨⟩, -, hjs⟩ := encodeValue_sequence_eq_ok_iff.mp hj
    obtain ⟨y, _, hy⟩ := hjs.exists_of_mem_left hx
    exact ⟨y, hy⟩
  | position hp =>
    obtain ⟨_, js, ⟨⟩, -, -, hjs⟩ := encodeValue_tuple_eq_ok_iff.mp hj
    obtain ⟨y, _, hy⟩ := hjs.exists_of_mem_left hp
    exact ⟨y, hy⟩
  | key he =>
    obtain ⟨_, _, ps, ⟨⟩, -, hps, _⟩ := encodeValue_mapping_eq_ok_iff.mp hj
    obtain ⟨p, _, hp, _⟩ := hps.exists_of_mem_left he
    exact exists_encodeValue_of_keyTextOf hp
  | value he =>
    obtain ⟨_, _, ps, ⟨⟩, -, hps, _⟩ := encodeValue_mapping_eq_ok_iff.mp hj
    obtain ⟨p, _, _, hp⟩ := hps.exists_of_mem_left he
    exact ⟨p.2, hp⟩
  | branch hb ht => exact ⟨j, encodeValue_of_branches? hb ht ▸ hj⟩
  | field hp =>
    obtain ⟨_, _, ps, ⟨⟩, -, hps⟩ := encodeValue_record_eq_ok_iff.mp hj
    obtain ⟨y, _, _, hy⟩ := hps.exists_of_mem_left hp
    exact ⟨y.2, hy⟩
  | entry hk =>
    obtain ⟨_, _, ps, ⟨⟩, -, hps⟩ := encodeValue_typedDict_eq_ok_iff.mp hj
    obtain ⟨y, _, _, hy⟩ := hps.exists_of_mem_left hk
    exact ⟨y.2, hy⟩

theorem Refuses.not_encodeValue (h : Refuses o s v r) (j : Json) : encodeValue o s v ≠ .ok j := by
  intro hj
  cases h with
  | float hx =>
    rw [encodeValue] at hj
    exact encodeFloat_ne_ok hx j hj
  | @keys k key value l es a b text hab ha hb =>
    obtain ⟨_, _, ps, ⟨⟩, -, hps, hn⟩ := encodeValue_mapping_eq_ok_iff.mp hj
    have hne : es.Pairwise fun a b => ∀ text, keyTextOf o key a.1 = .ok text →
        keyTextOf o key b.1 ≠ .ok text :=
      hps.pairwise hn fun a b p q ha hb hpq t hat hbt =>
        hpq (Except.ok.inj ((ha.1.symm.trans hat).trans (hbt.symm.trans hb.1)))
    exact List.pairwise_iff_forall_sublist.mp hne hab _ ha hb

theorem Meets.exists_encodeValue (h : Meets o s v t w) (hv : ∃ j, encodeValue o s v = .ok j) :
    ∃ j, encodeValue o t w = .ok j := by
  induction h with
  | here => exact hv
  | step hs _ ih => exact ih (hs.exists_encodeValue hv)

theorem exists_meets_refuses (hc : s.checkable = true) (hs : s.encodable = true)
    (hv : s.conforms o v = true) (h : encodeValue o s v = .error r) :
    ∃ t w, Meets o s v t w ∧ Refuses o t w r := by
  induction s using inductionParts generalizing v with
  | step s ih =>
  rcases exists_of_encodeValue_eq_error hs hv h with ⟨t, w, hst, ht⟩ | hr
  · rcases hst.shape_mem_parts with hm | rfl
    · obtain ⟨u, x, hm, hr⟩ := ih t hm (hst.checkable hc) (hst.encodable hs)
        (hst.conforms hc hv) ht
      exact ⟨u, x, .step hst hm, hr⟩
    · simp at ht
  · exact ⟨s, v, .here, hr⟩

theorem meets_float {x : Binary64} (hx : x.isFinite = false) (hc : s.checkable = true)
    (hs : s.encodable = true) (hv : s.conforms o v = true) (hw : v.WellFormed)
    (h : Value.Within (.float x) v) : Meets o s v float (.float x) := by
  induction s using inductionParts generalizing v with
  | step s ih =>
  have next : ∀ {t w}, Steps o s v t w → Value.Within (.float x) w →
      Meets o s v float (.float x) := by
    intro t w hst hxw
    rcases hst.shape_mem_parts with hm | rfl
    · exact .step hst (ih t hm (hst.checkable hc) (hst.encodable hs) (hst.conforms hc hv)
        (hst.wellFormed hw) hxw)
    · obtain rfl := conforms_none_iff.mp (hst.conforms hc hv)
      rcases Value.within_iff.mp hxw with h | ⟨p, hp, _⟩
      · cases h
      · cases hp
  rcases Value.within_iff.mp h with rfl | ⟨p, hp, hxp⟩
  · by_cases hb : ∃ ss, s.branches? = some ss ∧ ∃ t ∈ ss, t.conforms o (.float x) = true
    · obtain ⟨ss, hb, ht⟩ := hb
      obtain ⟨t, ht⟩ := Option.isSome_iff_exists.mp (List.find?_isSome.mpr ht)
      exact next (.branch hb ht) .here
    · cases s with
      | any => cases hs
      | float => exact .here
      | optional s =>
        rcases conforms_optional_iff.mp hv with h | h
        · exact (hb ⟨_, rfl, s, List.mem_cons_self, h⟩).elim
        · cases h
      | union ss => exact (hb ⟨ss, rfl, conforms_union_iff.mp hv⟩).elim
      | literal ls =>
        obtain ⟨l, hl, hf⟩ := conforms_literal_iff.mp hv
        simp only [Shape.encodable, List.all_eq_true] at hs
        have he := hs l hl
        cases l <;> simp only [Literal.fits, Literal.toValue, Value.same, Bool.false_eq_true] at hf
        rename_i y
        cases x <;> cases y <;> simp_all [Binary64.same, Binary64.isFinite, Literal.isEncodable]
      | _ => simp [Shape.conforms] at hv
  · rcases exists_steps_of_mem_parts hw hv (by rintro rfl; cases hs) hp with
      ⟨t, ht⟩ | ⟨t, _, ht⟩ | ⟨n, rfl⟩
    · exact next ht hxp
    · exact next ht h
    · rcases Value.within_iff.mp hxp with h | ⟨q, hq, _⟩
      · cases h
      · cases hq

end Shape

/-- Past the gates an encoding fails exactly by a float that is not finite or by two keys of a map
that become the same text, and says so in a single reason. -/
theorem encode_ok_iff_finite_and_distinct_keys (o : Settings) (s : Shape) (v : Value)
    (hs : s.satisfies .encodable = true) (hv : s.conforms o v = true) (hw : v.WellFormed) :
    ((∃ j, encode o s v = .ok j) ↔
      (∀ x, Value.Within (.float x) v → x.isFinite = true) ∧
      ∀ k key value l es, Shape.Meets o s v (.mapping k key value) (.map l es) →
        es.Pairwise fun a b => ∀ text, Shape.keyTextOf o key a.1 = .ok text →
          Shape.keyTextOf o key b.1 ≠ .ok text) ∧
    ∀ e, encode o s v = .error e → ∃ r, e = .conformance ⟨[r]⟩ ∧
      ((∃ x, Value.Within (.float x) v ∧ x.isFinite = false ∧ r = .infiniteFloat x ∧
        r.text = "Float value " ++ x.text ++ " cannot be represented in JSON.") ∨
      ∃ k key value l es a b text, Shape.Meets o s v (.mapping k key value) (.map l es) ∧
        [a, b].Sublist es ∧ Shape.keyTextOf o key a.1 = .ok text ∧
        Shape.keyTextOf o key b.1 = .ok text ∧ r = .collidingKeys es text ∧
        r.text = "Keys of " ++ (Value.map .dict es).text ++ " collide on the encoded key " ++
          quoted text ++ ".") := by
  obtain ⟨hc, he⟩ := Shape.satisfies_encodable_iff.mp hs
  rw [encode_of_satisfies hs hv]
  constructor
  · simp only [mapError_eq_ok_iff]
    constructor
    · intro hok
      refine ⟨fun x hx => ?_, fun k key value l es hm => ?_⟩
      · by_contra hf
        have hf : x.isFinite = false := by simpa using hf
        obtain ⟨j, hj⟩ := (Shape.meets_float hf hc he hv hw hx).exists_encodeValue hok
        exact (Shape.Refuses.float hf).not_encodeValue j hj
      · obtain ⟨j, hj⟩ := hm.exists_encodeValue hok
        exact List.pairwise_iff_forall_sublist.mpr fun hab text ha hb =>
          (Shape.Refuses.keys hab ha hb).not_encodeValue j hj
    · rintro ⟨hf, hk⟩
      cases hr : s.encodeValue o v with
      | ok j => exact ⟨j, rfl⟩
      | error r =>
        obtain ⟨t, w, hm, hr⟩ := Shape.exists_meets_refuses hc he hv hr
        cases hr with
        | float hx => exact absurd (hf _ hm.within) (by simp [hx])
        | keys hab ha hb =>
          exact (List.pairwise_iff_forall_sublist.mp (hk _ _ _ _ _ hm) hab _ ha hb).elim
  · intro e h
    cases hr : s.encodeValue o v with
    | ok j => simp [hr, Except.mapError] at h
    | error r =>
      refine ⟨r, by simpa [hr, Except.mapError] using h.symm, ?_⟩
      obtain ⟨t, w, hm, hr⟩ := Shape.exists_meets_refuses hc he hv hr
      cases hr with
      | float hx => exact .inl ⟨_, hm.within, hx, rfl, rfl⟩
      | keys hab ha hb => exact .inr ⟨_, _, _, _, _, _, _, _, hm, hab, ha, hb, rfl, rfl⟩

/-- Two literals with one text, and a value that is not a number. -/
theorem not_encode_literal_keys :
    (¬ ∃ j, encode .standard (.mapping .dict (.literal [.int 1, .str "1"]) .float)
      (.map .dict [(.int 1, .int 0), (.str "1", .int 0)]) = .ok j) ∧
    ¬ ∃ j, encode .standard (.mapping .dict (.literal [.int 1, .str "1"]) .float)
      (.map .dict [(.int 1, .float .nan)]) = .ok j := by
  have hi : ∀ i, (Value.int i).WellFormed := fun _ => Value.wellFormed_of_parts_eq_nil rfl
  have hs : ∀ s, (Value.str s).WellFormed := fun _ => Value.wellFormed_of_parts_eq_nil rfl
  have hx : ∀ x, (Value.float x).WellFormed := fun _ => Value.wellFormed_of_parts_eq_nil rfl
  constructor
  · intro h
    have hw : (Value.map .dict [(.int 1, .int 0), (.str "1", .int 0)]).WellFormed := by
      simp [Value.same, hi, hs]
    have hk := ((encode_ok_iff_finite_and_distinct_keys _ _ _ rfl (by cbv) hw).1.mp h).2
    exact (List.pairwise_cons.mp (hk _ _ _ _ _ .here)).1 _ List.mem_cons_self "1" (by cbv)
      (by cbv)
  · intro h
    have hw : (Value.map .dict [(.int 1, .float .nan)]).WellFormed := by
      simp [hi, hx]
    have hf := ((encode_ok_iff_finite_and_distinct_keys _ _ _ rfl (by cbv) hw).1.mp h).1
    exact absurd (hf .nan (.part (by simp) .here)) (by decide)

end ShapeCodec
