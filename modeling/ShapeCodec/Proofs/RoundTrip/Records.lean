import ShapeCodec.Proofs.RoundTrip.Collections

/-! # Round trips of records and typed dicts

The fields of a record go by name or by position, and both layouts give back what was laid out. The
keys of a typed dict are encoded in the order of their declarations, so that what comes back holds
the same entries in another order.
-/

namespace ShapeCodec

namespace Shape

variable {o : Settings} {fs : List (Field Shape)} {es : List (String × Json)}

/-! ## Records -/

theorem apply_laidOut {p : Passage} {b : Bool} :
    p.apply (laidOut b es) = laidOut b (es.map fun e => (e.1, p.apply e.2)) := by
  cases b
  · exact p.apply_map es
  · refine (p.apply_list _).trans ?_
    simp only [laidOut, if_true, List.map_map, Function.comp_def]

theorem fits_of_mem_laidOut {p : Passage} {b : Bool} (h : p.Fits (laidOut b es))
    {e : String × Json} (he : e ∈ es) : p.Fits e.2 := by
  cases b
  · exact h.entry he
  · exact h.item (List.mem_map_of_mem he)

theorem uniqueKeys_laidOut {b : Bool} (hn : (es.map (·.1)).Nodup)
    (hu : ∀ e ∈ es, e.2.UniqueKeys) : (laidOut b es).UniqueKeys := by
  cases b
  · exact Json.uniqueKeys_map_iff.mpr ⟨hn, hu⟩
  · exact Json.uniqueKeys_list_iff.mpr (List.forall_mem_map.mpr hu)

theorem Lays.unique {j : Json} {given given' : List (Option Json)} (h : Lays fs j given)
    (h' : Lays fs j given') : given = given' := by
  rcases h with ⟨es, rfl, -, rfl⟩ | ⟨xs, rfl, -, -, rfl⟩
  · rcases h' with ⟨_, ⟨⟩, -, rfl⟩ | ⟨_, ⟨⟩, -⟩
    rfl
  · rcases h' with ⟨_, ⟨⟩, -⟩ | ⟨_, ⟨⟩, -, -, rfl⟩
    rfl

/-- Both layouts of a record give its fields back. -/
theorem lays_laidOut (b : Bool) (hn : (fs.map (·.name)).Nodup)
    (he : es.map (·.1) = fs.map (·.name)) :
    Lays fs (laidOut b es) (es.map fun e => some e.2) := by
  cases b
  · refine .inl ⟨es, rfl, fun e h => ?_, ?_⟩
    · have hm : e.1 ∈ fs.map (·.name) := he ▸ List.mem_map_of_mem h
      exact List.mem_map.mp hm
    · have hf : fieldsOfMap fs es =
          (fs.map (·.name)).map fun n => (es.find? (·.1 == n)).map (·.2) := by
        rw [List.map_map]
        rfl
      rw [hf, ← he, List.map_map]
      refine List.map_congr_left fun e h => ?_
      have := List.find?_of_nodup_map (f := fun e : String × Json => e.1) (he ▸ hn) h
      simp only [Function.comp_apply, this, Option.map_some]
  · have hl : es.length = fs.length := by simpa using congrArg List.length he
    have hleast : leastFields fs ≤ fs.length := by
      have := (List.dropWhile_sublist (l := fs.reverse) (·.default?.isSome)).length_le
      simpa [leastFields] using this
    refine .inr ⟨es.map (·.2), rfl, ?_, ?_, ?_⟩
    · rwa [List.length_map, hl]
    · rw [List.length_map, hl]
    · rw [fieldsOfList, List.length_map, hl, Nat.sub_self, List.replicate_zero,
        List.append_nil, List.map_map]
      rfl

theorem roundTrips_record {name : String} {vs : List (String × Value)}
    (hn : (fs.map (·.name)).Nodup) (hl : fs.length = vs.length)
    (hm : ∀ q ∈ fs.zip vs, q.1.name = q.2.1) (h : ∀ q ∈ fs.zip vs, RoundTrips o q.1.shape q.2.2) :
    RoundTrips o (record name fs) (.record name vs) := by
  obtain ⟨qs, hqs⟩ : ∃ qs, qs = fs.zip vs := ⟨_, rfl⟩
  have hzip : ∀ {γ : Type} (f : Field Shape × (String × Value) → γ),
      fs.zip (qs.map f) = qs.map fun q => (q.1, f q) := by
    intro γ f
    rw [hqs, List.zip_map_zip]
  rw [← hqs] at h hm
  have hfs : fs.map (·.name) = qs.map (·.1.name) := by
    rw [← List.map_fst_zip hl.le, ← hqs, List.map_map]
    rfl
  have hvs : vs = qs.map fun q => (q.1.name, q.2.2) := by
    have hz : vs = qs.map Prod.snd := by rw [hqs, List.map_snd_zip hl.ge]
    rw [hz]
    exact List.map_congr_left fun q hq => by rw [hm q hq]
  have hlen : qs.length = fs.length := by rw [hqs, List.length_zip, hl, min_self]
  obtain ⟨c, hc⟩ := exists_encodings (f := fun q : Field Shape × (String × Value) => q.1.shape)
    (g := fun q => q.2.2) h
  have hencode : ∀ b : Field Shape × (String × Value) → Value,
      (∀ q ∈ qs, encodeValue o q.1.shape (b q) = .ok (c q)) →
      encodeValue o (record name fs) (.record name (qs.map fun q => (q.1.name, b q))) =
        .ok (laidOut o.recordsAsLists (qs.map fun q => (q.1.name, c q))) := by
    intro b hb
    refine encodeValue_record_eq_ok_iff.mpr ⟨_, _, _, rfl, rfl, ?_⟩
    rw [hzip]
    exact List.forall₂_map_map_iff.mpr fun q hq => ⟨rfl, hb q hq⟩
  have hnames : ∀ g : Field Shape × (String × Value) → Json,
      (qs.map fun q => (q.1.name, g q)).map (·.1) = fs.map (·.name) := by
    intro g
    rw [hfs, List.map_map]
    rfl
  refine ⟨_, by rw [hvs]; exact hencode _ fun q hq => (hc q hq).1,
    uniqueKeys_laidOut (by rwa [hnames]) (List.forall_mem_map.mpr fun q hq => (hc q hq).2.1),
    fun p hp => ?_⟩
  obtain ⟨b, hb⟩ := exists_returns
    (fun q hq => fits_of_mem_laidOut hp (List.mem_map.mpr ⟨q, hq, rfl⟩)) fun q hq => (hc q hq).2.2
  refine ⟨.record name (qs.map fun q => (q.1.name, b q)), ?_, ?_, ?_, ?_, ?_⟩
  · rw [apply_laidOut, List.map_map]
    refine decodeJson_record_eq_ok_iff.mpr ⟨_, _, lays_laidOut _ hn (hnames _), ?_, rfl⟩
    rw [List.map_map, hzip]
    exact List.forall₂_map_map_iff.mpr fun q hq => ⟨rfl, .inl ⟨_, rfl, (hb q hq).decode⟩⟩
  · refine Value.record_same_iff.mpr ⟨vs, rfl, ?_⟩
    rw [hvs]
    exact List.forall₂_map_map_iff.mpr fun q hq => ⟨rfl, (hb q hq).same⟩
  · refine .record (by rw [List.length_map, hlen]) ?_ ?_
    · rw [hzip]
      exact List.forall_mem_map.mpr fun q _ => rfl
    · rw [hzip]
      exact List.forall_mem_map.mpr fun q hq => (hb q hq).exact
  · exact Value.wellFormed_record_iff.mpr
      (List.forall_mem_map.mpr fun q hq => (hb q hq).wellFormed)
  · exact hencode b fun q hq => (hb q hq).encode

/-! ## Typed dicts -/

section TypedDicts

variable {name : String} {ks : List (Key Shape)} {l : MapKind} {vs : List (Value × Value)}

theorem pairwise_declared (hn : (ks.map (·.name)).Nodup) :
    (declared ks vs).Pairwise fun a b => a.1.name ≠ b.1.name := by
  refine List.Pairwise.filterMap _ (fun a a' h q hq q' hq' => ?_) (List.pairwise_map.mp hn)
  obtain ⟨_, _, rfl⟩ := Option.map_eq_some_iff.mp hq
  obtain ⟨_, _, rfl⟩ := Option.map_eq_some_iff.mp hq'
  exact h

theorem distinct_declared (hn : (ks.map (·.name)).Nodup) (b : Key Shape × Value → Value) :
    (Value.map l ((declared ks vs).map fun q => (.str q.1.name, b q))).Distinct := by
  refine List.pairwise_map.mpr ((pairwise_declared hn).imp fun h => ?_)
  exact Bool.eq_false_iff.mpr fun hs => h (Value.str.inj (Value.str_same_iff.mp hs))

theorem declared_map (hn : (ks.map (·.name)).Nodup) (b : Key Shape × Value → Value) :
    declared ks ((declared ks vs).map fun q => (.str q.1.name, b q)) =
      (declared ks vs).map fun q => (q.1, b q) := by
  conv_rhs => rw [declared, List.map_filterMap]
  refine List.filterMap_congr fun k hk => ?_
  cases hv : Value.lookup? vs (.str k.name) with
  | some v =>
    have hq : (k, v) ∈ declared ks vs := mem_declared.mpr ⟨hk, hv⟩
    rw [lookup?_of_mem (v := b (k, v)) (distinct_declared (l := .dict) hn b)
      (List.mem_map.mpr ⟨_, hq, rfl⟩)]
    rfl
  | none =>
    cases hw : Value.lookup? ((declared ks vs).map fun q => (Value.str q.1.name, b q))
        (.str k.name) with
    | none => rfl
    | some w =>
      obtain ⟨q, hq, he⟩ := List.mem_map.mp (mem_of_lookup? hw)
      have hkn : q.1.name = k.name := Value.str.inj (congrArg Prod.fst he)
      have hq := (mem_declared.mp hq).2
      rw [hkn, hv] at hq
      cases hq

theorem nodup_of_distinct (hd : (Value.map l vs).Distinct) : vs.Nodup := by
  refine List.Pairwise.imp (fun {a b} h he => ?_) hd
  rw [he, Value.same_refl] at h
  cases h

theorem declared_perm (hn : (ks.map (·.name)).Nodup) (hd : (Value.map l vs).Distinct)
    (hk : ∀ e ∈ vs, ∃ k ∈ ks, e.1 = .str k.name) :
    ((declared ks vs).map fun q => (Value.str q.1.name, q.2)).Perm vs := by
  refine (List.perm_ext_iff_of_nodup (nodup_of_distinct (l := l) (distinct_declared hn _))
    (nodup_of_distinct hd)).mpr fun e => ⟨fun he => ?_, fun he => ?_⟩
  · obtain ⟨q, hq, rfl⟩ := List.mem_map.mp he
    exact mem_of_lookup? (mem_declared.mp hq).2
  · obtain ⟨k, hk, hn⟩ := hk e he
    obtain ⟨_, v⟩ := e
    obtain rfl : _ = Value.str k.name := hn
    exact List.mem_map.mpr ⟨(k, v), mem_declared.mpr ⟨hk, lookup?_of_mem hd he⟩, rfl⟩

theorem mem_declared_of_hasKey {k : Key Shape} (hk : k ∈ ks)
    (h : Value.hasKey vs (.str k.name) = true) : ∃ v, (k, v) ∈ declared ks vs := by
  have h := List.find?_isSome.mpr (List.any_eq_true.mp h)
  obtain ⟨e, he⟩ := Option.isSome_iff_exists.mp h
  exact ⟨e.2, mem_declared.mpr ⟨hk, by rw [Value.lookup?, he, Option.map_some]⟩⟩

theorem roundTrips_typedDict (hn : (ks.map (·.name)).Nodup) (hw : (Value.map .dict vs).WellFormed)
    (hk : ∀ e ∈ vs, ∃ k ∈ ks, e.1 = .str k.name)
    (hr : ∀ k ∈ ks, k.required = true → Value.hasKey vs (.str k.name) = true)
    (h : ∀ q ∈ declared ks vs, RoundTrips o q.1.shape q.2) :
    RoundTrips o (typedDict name ks) (.map .dict vs) := by
  obtain ⟨c, hc⟩ := exists_encodings (f := fun q : Key Shape × Value => q.1.shape)
    (g := Prod.snd) h
  have hks : ∀ q ∈ declared ks vs, q.1 ∈ ks := fun q hq => (mem_declared.mp hq).1
  have hperm := declared_perm hn hw.distinct hk
  have hencode : encodeValue o (typedDict name ks) (.map .dict vs) =
      .ok (.map ((declared ks vs).map fun q => (q.1.name, c q))) := by
    refine encodeValue_typedDict_eq_ok_iff.mpr ⟨_, _, _, rfl, rfl, ?_⟩
    rw [List.forall₂_map_right_iff, List.forall₂_same]
    exact fun q hq => ⟨rfl, (hc q hq).1⟩
  refine ⟨_, hencode, Json.uniqueKeys_map_iff.mpr
    ⟨?_, List.forall_mem_map.mpr fun q hq => (hc q hq).2.1⟩, fun p hp => ?_⟩
  · rw [List.map_map]
    exact List.pairwise_map.mpr (pairwise_declared hn)
  obtain ⟨b, hb⟩ := exists_returns (fun q hq => hp.entry (List.mem_map.mpr ⟨q, hq, rfl⟩))
    fun q hq => (hc q hq).2.2
  refine ⟨.map .dict ((declared ks vs).map fun q => (.str q.1.name, b q)), ?_, ?_, ?_, ?_, ?_⟩
  · rw [Passage.apply_map, List.map_map]
    refine decodeJson_typedDict_eq_ok_iff.mpr ⟨_, _, rfl, fun k hk hq => ?_, ?_, rfl⟩
    · obtain ⟨v, hv⟩ := mem_declared_of_hasKey hk (hr k hk hq)
      exact ⟨_, List.mem_map_of_mem hv, rfl⟩
    · exact List.forall₂_map_map_iff.mpr fun q hq =>
        ⟨rfl, q.1, List.find?_of_nodup_map hn (hks q hq), (hb q hq).decode⟩
  · refine Value.map_same_iff.mpr ⟨vs, rfl, by simpa using hperm.length_eq,
      List.forall_mem_map.mpr fun q hq => ?_⟩
    exact ⟨(.str q.1.name, q.2), hperm.mem_iff.mp (List.mem_map_of_mem hq), Value.same_refl _,
      (hb q hq).same⟩
  · refine .typedDict (List.forall_mem_map.mpr fun q hq => ⟨q.1, hks q hq, rfl⟩)
      (List.forall_mem_map.mpr fun q hq k hk he => ?_) fun k hk hq => ?_
    · obtain rfl : q.1 = k := List.inj_on_of_nodup_map hn (hks q hq) hk (Value.str.inj he)
      exact (hb q hq).exact
    · obtain ⟨v, hv⟩ := mem_declared_of_hasKey hk (hr k hk hq)
      exact List.any_eq_true.mpr ⟨_, List.mem_map_of_mem hv, Value.same_refl _⟩
  · exact Value.wellFormed_map_iff.mpr ⟨distinct_declared (l := .dict) hn b,
      List.forall_mem_map.mpr fun q hq =>
        ⟨Value.wellFormed_of_parts_eq_nil rfl, (hb q hq).wellFormed⟩⟩
  · refine encodeValue_typedDict_eq_ok_iff.mpr ⟨_, _, _, rfl, rfl, ?_⟩
    rw [declared_map hn]
    exact List.forall₂_map_map_iff.mpr fun q hq => ⟨rfl, (hb q hq).encode⟩

end TypedDicts

end Shape

end ShapeCodec
