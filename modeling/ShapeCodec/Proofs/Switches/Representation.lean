import ShapeCodec.Proofs.RoundTrip.Plain
import ShapeCodec.Proofs.RoundTrip.Spelling
import ShapeCodec.Proofs.Switches.KeyTexts

/-! # The representation switches

Records may be written as lists or as maps, and decimals as numbers or as strings. Where no union
occurs, a value that is encoded under one choice is encoded under every other one, and all its
encodings decode alike: they are nested as deeply, the same keys have the same text, and each part
decodes alike.
-/

namespace ShapeCodec

namespace Shape

variable {o o' : Settings} {s key value : Shape} {v w : Value} {c d : Json}

/-! ## Trees that decode alike -/

/-- Two trees that nest as deeply and decode to the same values. -/
structure Interchangeable (o : Settings) (s : Shape) (c d : Json) : Prop where
  depth : c.depth = d.depth
  decodes : ∀ w, decodeJson o s c = .ok w ↔ decodeJson o s d = .ok w

theorem Interchangeable.refl (c : Json) : Interchangeable o s c c := ⟨rfl, fun _ => .rfl⟩

section Collections

variable {α : Type} {xs : List α} {f g : α → Json}

theorem interchangeable_sequence {k : SequenceKind}
    (h : ∀ x ∈ xs, Interchangeable o s (f x) (g x)) :
    Interchangeable o (sequence k s) (.list (xs.map f)) (.list (xs.map g)) := by
  refine ⟨Json.depth_list_congr fun x hx => (h x hx).depth, fun w => ?_⟩
  simp only [decodeJson_sequence_eq_ok_iff, Json.list.injEq, exists_and_left, exists_eq_left',
    List.forall₂_map_left_iff]
  refine exists_congr fun vs => and_congr_left fun _ => ?_
  exact List.forall₂_congr_of_mem fun x hx w => (h x hx).decodes w

theorem interchangeable_tuple {ss : List Shape} {xs : List α} {f g : Shape × α → Json}
    (h : ∀ q ∈ ss.zip xs, Interchangeable o q.1 (f q) (g q)) :
    Interchangeable o (tuple ss) (.list ((ss.zip xs).map f)) (.list ((ss.zip xs).map g)) := by
  refine ⟨Json.depth_list_congr fun q hq => (h q hq).depth, fun w => ?_⟩
  simp only [decodeJson_tuple_eq_ok_iff, Json.list.injEq, exists_and_left, exists_eq_left',
    List.length_map, List.zip_map_zip, List.forall₂_map_left_iff]
  refine and_congr_right fun _ => exists_congr fun vs => and_congr_left fun _ => ?_
  exact List.forall₂_congr_of_mem fun q hq w => (h q hq).decodes w

/-- The texts of the keys may differ, as long as each pair of them stands for the same key. -/
theorem interchangeable_mapping {k : MappingKind} {t u : α → String}
    (hk : ∀ x ∈ xs, ∀ w, decodeKeyText key (decodeJson o key) (t x) = .ok w ↔
      decodeKeyText key (decodeJson o key) (u x) = .ok w)
    (hv : ∀ x ∈ xs, Interchangeable o value (f x) (g x)) :
    Interchangeable o (mapping k key value) (.map (xs.map fun x => (t x, f x)))
      (.map (xs.map fun x => (u x, g x))) := by
  constructor
  · rw [Json.depth_map, Json.depth_map, List.map_map, List.map_map]
    exact Json.depth_list_congr fun x hx => (hv x hx).depth
  · intro w
    simp only [decodeJson_mapping_eq_ok_iff, Json.map.injEq, exists_and_left, exists_eq_left',
      List.forall₂_map_left_iff]
    refine exists_congr fun ps => and_congr_left fun _ => ?_
    exact List.forall₂_congr_of_mem fun x hx p =>
      and_congr (hk x hx p.1) ((hv x hx).decodes p.2)

theorem decodeJson_laidOut_eq_ok_iff {name : String} {fs : List (Field Shape)} {b : Bool}
    {es : List (String × Json)} (hn : (fs.map (·.name)).Nodup)
    (he : es.map (·.1) = fs.map (·.name)) :
    decodeJson o (record name fs) (laidOut b es) = .ok w ↔ ∃ vs,
      List.Forall₂ (fun p x => x.1 = p.1.name ∧ decodeJson o p.1.shape p.2 = .ok x.2)
        (fs.zip (es.map (·.2))) vs ∧ w = .record name vs := by
  have hlays := lays_laidOut b hn he
  have hfills : ∀ f : Field Shape, ∀ j x, Fills o f (some j) x ↔ decodeJson o f.shape j = .ok x :=
    fun f j x => by simp [Fills]
  have hgiven : es.map (fun e => some e.2) = (es.map (·.2)).map some := by rw [List.map_map]; rfl
  rw [decodeJson_record_eq_ok_iff]
  constructor
  · rintro ⟨given, vs, hg, hv, rfl⟩
    obtain rfl := hg.unique hlays
    rw [hgiven, List.zip_map_right, List.forall₂_map_left_iff] at hv
    exact ⟨vs, hv.imp fun _ _ h => ⟨h.1, (hfills _ _ _).mp h.2⟩, rfl⟩
  · rintro ⟨vs, hv, rfl⟩
    refine ⟨_, vs, hlays, ?_, rfl⟩
    rw [hgiven, List.zip_map_right, List.forall₂_map_left_iff]
    exact hv.imp fun _ _ h => ⟨h.1, (hfills _ _ _).mpr h.2⟩

theorem depth_laidOut (b : Bool) (es : List (String × Json)) :
    (laidOut b es).depth = (Json.list (es.map (·.2))).depth := by
  cases b
  · exact Json.depth_map es
  · rfl

theorem interchangeable_record {name : String} {fs : List (Field Shape)} {xs : List α} {b b' : Bool}
    {t : Field Shape × α → String} {f g : Field Shape × α → Json} (hn : (fs.map (·.name)).Nodup)
    (ht : (fs.zip xs).map t = fs.map (·.name))
    (h : ∀ q ∈ fs.zip xs, Interchangeable o q.1.shape (f q) (g q)) :
    Interchangeable o (record name fs) (laidOut b ((fs.zip xs).map fun q => (t q, f q)))
      (laidOut b' ((fs.zip xs).map fun q => (t q, g q))) := by
  have names : ∀ f : Field Shape × α → Json,
      ((fs.zip xs).map fun q => (t q, f q)).map (·.1) = fs.map (·.name) := fun f => by
    rw [List.map_map]
    exact ht
  constructor
  · rw [depth_laidOut, depth_laidOut, List.map_map, List.map_map]
    exact Json.depth_list_congr fun q hq => (h q hq).depth
  · intro w
    rw [decodeJson_laidOut_eq_ok_iff hn (names f), decodeJson_laidOut_eq_ok_iff hn (names g)]
    simp only [List.map_map, Function.comp_def, List.zip_map_zip, List.forall₂_map_left_iff]
    refine exists_congr fun vs => and_congr_left fun _ => ?_
    exact List.forall₂_congr_of_mem fun q hq x => and_congr_right fun _ => (h q hq).decodes x.2

theorem interchangeable_typedDict {name : String} {ks : List (Key Shape)}
    {qs : List (Key Shape × α)} {t : Key Shape × α → String} {f g : Key Shape × α → Json}
    (hn : (ks.map (·.name)).Nodup) (hq : ∀ q ∈ qs, q.1 ∈ ks ∧ q.1.name = t q)
    (h : ∀ q ∈ qs, Interchangeable o q.1.shape (f q) (g q)) :
    Interchangeable o (typedDict name ks) (.map (qs.map fun q => (t q, f q)))
      (.map (qs.map fun q => (t q, g q))) := by
  constructor
  · rw [Json.depth_map, Json.depth_map, List.map_map, List.map_map]
    exact Json.depth_list_congr fun q hm => (h q hm).depth
  · intro w
    simp only [decodeJson_typedDict_eq_ok_iff, Json.map.injEq, exists_and_left, exists_eq_left',
      List.forall₂_map_left_iff, List.mem_map, exists_exists_and_eq_and]
    refine and_congr_right fun _ => exists_congr fun vs => and_congr_left fun _ => ?_
    refine List.forall₂_congr_of_mem fun q hm x => and_congr_right fun _ => exists_congr fun k => ?_
    refine and_congr_right fun hfind => ?_
    -- names are not repeated, so that the key is found that the entry was encoded for
    obtain ⟨hk, ht⟩ := hq q hm
    obtain rfl := Option.some.inj ((List.find?_of_nodup_map hn hk).symm.trans (ht ▸ hfind))
    exact (h q hm).decodes x.2

end Collections

/-- The inner shape has the first say, and only the null is left to the empty branch. -/
theorem interchangeable_optional (h : Interchangeable o s c d) (hnull : c = .null ↔ d = .null) :
    Interchangeable o (optional s) c d := by
  refine ⟨h.depth, fun w => ?_⟩
  simp only [decodeJson_optional_eq_ok_iff, ne_eq, h.decodes, hnull]

/-! ## Keys -/

theorem decodeKeyText_write_eq_ok_iff (hf : key.keyForm = .stringified) (hu : c.UniqueKeys)
    (hn : c.NumberMapFree) : decodeKeyText key (decodeJson o key) c.write = .ok w ↔
      c.depth ≤ Reading.maxDepth ∧ decodeJson o key c.withIntegers = .ok w := by
  have hread : decodeKeyText key (decodeJson o key) c.write = .ok w ↔
      ∃ j, Json.read c.write = .ok j ∧ decodeJson o key j = .ok w := by
    rw [decodeKeyText, hf]
    cases Json.read c.write <;> simp
  simp only [hread, Json.read_write_eq_ok_iff hu hn, and_assoc, exists_and_left, exists_eq_left]

/-- An optional shape reads the same from both spellings of an integer: either it is encoded by its
inner shape, or there is no integer. -/
theorem UnionFree.unionsBlind (h : s.UnionFree) : UnionsBlind o s v := by
  intro t w c ss b hm hb hfind hc
  rcases hm.within_or_eq_none with ht | rfl
  · cases t with
    | union ts => exact (h _ ht ts rfl).elim
    | optional p =>
      obtain rfl := Option.some.inj hb
      rcases List.mem_pair.mp (List.mem_of_find?_eq_some hfind) with rfl | rfl
      · refine .inr (List.forall_mem_pair.mpr ⟨.inl rfl, .inr spellingBlind_none⟩)
      · rw [encodeValue_of_branches? rfl hfind, encodeValue] at hc
        obtain rfl := Except.ok.inj hc
        exact .inl rfl
    | _ => cases hb
  · cases hb

section Keys

variable {x y : Value} {t t' u : String}

theorem keyTextOf_congr_of_direct (hf : key.keyForm = .direct) (x : Value) :
    keyTextOf o key x = keyTextOf o' key x := by
  rw [keyTextOf, keyTextOf, encodeValue_congr_of_direct hf]

theorem exists_keyText (h : ∃ d, encodeValue o' key x = .ok d)
    (ht : keyTextOf o key x = .ok t) : ∃ u, keyTextOf o' key x = .ok u := by
  obtain ⟨d, hd⟩ := h
  obtain ⟨c, -, ⟨hf, rfl⟩ | ⟨hf, -⟩⟩ := keyTextOf_eq_ok_iff.mp ht
  · exact ⟨d.write, keyTextOf_eq_ok_iff.mpr ⟨d, hd, .inl ⟨hf, rfl⟩⟩⟩
  · exact ⟨t, keyTextOf_congr_of_direct hf x ▸ ht⟩

/-- Each encoding of a value under the first setting is interchangeable with each one under the
second. -/
def Interchanges (o o' : Settings) (s : Shape) (v : Value) : Prop :=
  ∀ c d, encodeValue o s v = .ok c → encodeValue o' s v = .ok d → Interchangeable o s c d

theorem decodeKeyText_congr (ho : o.castDecimal = o'.castDecimal) (hc : key.checkable = true)
    (hu : key.UnionFree) (hx : key.conforms o x = true)
    (hn : key.keyForm = .stringified → ∀ j, encodeValue o key x = .ok j → j.NumberMapFree)
    (hn' : key.keyForm = .stringified → ∀ j, encodeValue o' key x = .ok j → j.NumberMapFree)
    (h : Interchanges o o' key x) (ht : keyTextOf o key x = .ok t)
    (ht' : keyTextOf o' key x = .ok u) : decodeKeyText key (decodeJson o key) t = .ok w ↔
      decodeKeyText key (decodeJson o key) u = .ok w := by
  cases hf : key.keyForm with
  | direct =>
    rw [keyTextOf_congr_of_direct hf] at ht
    rw [Except.ok.inj (ht.symm.trans ht')]
  | stringified =>
    simp only [keyTextOf_eq_ok_iff, hf, reduceCtorEq, true_and, false_and, or_false] at ht ht'
    obtain ⟨c, hec, rfl⟩ := ht
    obtain ⟨d, hed, rfl⟩ := ht'
    have hcd : Interchangeable o key c d := h c d hec hed
    have hx' : key.conforms o' x = true := conforms_congr ho key x ▸ hx
    have hread : decodeJson o key c.withIntegers = .ok w ↔
        decodeJson o key d.withIntegers = .ok w := by
      have hd := alike_encodeValue hc hx' hu.unionsBlind hed w
      rw [← decodeJson_congr ho] at hd
      rw [← alike_encodeValue hc hx hu.unionsBlind hec w, hcd.decodes, hd, decodeJson_congr ho]
    rw [decodeKeyText_write_eq_ok_iff hf (tidy_encodeValue hc hx hec).uniqueKeys (hn hf c hec),
      decodeKeyText_write_eq_ok_iff hf (tidy_encodeValue hc hx' hed).uniqueKeys (hn' hf d hed),
      hcd.depth, hread]

theorem keyText_unique (ho : o.castDecimal = o'.castDecimal) (hc : key.checkable = true)
    (hh : key.hashable = true) (hu : key.UnionFree) (hx : key.conforms o x = true)
    (hy : key.conforms o y = true) (hxt : keyTextOf o key x = .ok t)
    (hyt : keyTextOf o key y = .ok t') (hxu : keyTextOf o' key x = .ok u)
    (hyu : keyTextOf o' key y = .ok u) : t = t' := by
  cases hf : key.keyForm with
  | direct =>
    rw [keyTextOf_congr_of_direct hf] at hxt hyt
    exact Except.ok.inj (hxt.symm.trans (hxu.trans (hyu.symm.trans hyt)))
  | stringified =>
    simp only [keyTextOf_eq_ok_iff, hf, reduceCtorEq, true_and, false_and, or_false]
      at hxt hyt hxu hyu
    obtain ⟨a, ha, rfl⟩ := hxt
    obtain ⟨b, hb, rfl⟩ := hyt
    obtain ⟨c, hec, rfl⟩ := hxu
    obtain ⟨d, hed, hdc⟩ := hyu
    have hx' : key.conforms o' x = true := conforms_congr ho key x ▸ hx
    have hy' : key.conforms o' y = true := conforms_congr ho key y ▸ hy
    rw [(tidy_encodeValue hc hx ha).write_eq_write_iff (tidy_encodeValue hc hy hb)]
    exact merges ho.symm hc hh hu hx' hy' _ _ _ _ hec hed ha hb
      (Json.withIntegers_eq_of_write_eq hdc.symm)

end Keys

/-! ## Encodings under the other setting -/

theorem Steps.unionFree {t : Shape} (h : Steps o s v t w) (hs : s.UnionFree) : t.UnionFree := by
  rcases h.shape_mem_parts with ht | rfl
  · exact hs.part ht
  · exact unionFree_of_parts_eq_nil rfl nofun

/-- The entries of a map are encoded under the other setting when their keys and values are: keys
with one text under that setting would have one under the first. -/
theorem exists_encodeValue_mapping (ho : o.castDecimal = o'.castDecimal) {k : MappingKind}
    {l : MapKind} {es : List (Value × Value)} (hc : key.checkable = true)
    (hh : key.hashable = true) (hu : key.UnionFree) (hx : ∀ e ∈ es, key.conforms o e.1 = true)
    (hk : ∀ e ∈ es, ∀ c, encodeValue o key e.1 = .ok c → ∃ d, encodeValue o' key e.1 = .ok d)
    (hv : ∀ e ∈ es, ∀ c, encodeValue o value e.2 = .ok c → ∃ d, encodeValue o' value e.2 = .ok d)
    (h : encodeValue o (mapping k key value) (.map l es) = .ok c) :
    ∃ d, encodeValue o' (mapping k key value) (.map l es) = .ok d := by
  obtain ⟨_, _, ps, ⟨⟩, rfl, hp, hdistinct⟩ := encodeValue_mapping_eq_ok_iff.mp h
  obtain ⟨qs, hq⟩ : ∃ qs : List (String × Json), List.Forall₂ (fun e q =>
      keyTextOf o' key e.1 = .ok q.1 ∧ encodeValue o' value e.2 = .ok q.2) es qs := by
    refine List.exists_forall₂ fun e he => ?_
    obtain ⟨p, -, ht, hj⟩ := hp.exists_of_mem_left he
    obtain ⟨c, hec, -⟩ := keyTextOf_eq_ok_iff.mp ht
    obtain ⟨u, hu⟩ := exists_keyText (hk e he c hec) ht
    obtain ⟨d, hd⟩ := hv e he p.2 hj
    exact ⟨(u, d), hu, hd⟩
  have hes : es.Pairwise fun a b => ∀ t u, keyTextOf o key a.1 = .ok t →
      keyTextOf o key b.1 = .ok u → t ≠ u := by
    refine hp.pairwise hdistinct fun a b p q hap hbq hne t u ht hu => ?_
    rwa [Except.ok.inj (ht.symm.trans hap.1), Except.ok.inj (hu.symm.trans hbq.1)]
  have hpairs : es.Pairwise fun a b => ∀ t, keyTextOf o' key a.1 = .ok t →
      keyTextOf o' key b.1 ≠ .ok t := by
    refine hes.imp_of_mem fun {a b} ha hb hne t hat hbt => ?_
    obtain ⟨p, -, hap, -⟩ := hp.exists_of_mem_left ha
    obtain ⟨q, -, hbq, -⟩ := hp.exists_of_mem_left hb
    exact hne p.1 q.1 hap hbq
      (keyText_unique ho hc hh hu (hx a ha) (hx b hb) hap hbq hat hbt)
  refine ⟨_, encodeValue_mapping_eq_ok_iff.mpr ⟨l, es, qs, rfl, rfl, hq, ?_⟩⟩
  exact hq.flip.pairwise hpairs fun p q a b hpa hqb hne heq => hne p.1 hpa.1 (heq ▸ hqb.1)

/-- A value that is encoded is encoded under all settings that cast decimals alike. -/
theorem exists_encodeValue (ho : o.castDecimal = o'.castDecimal) (hc : s.checkable = true)
    (he : s.encodable = true) (hu : s.UnionFree) (hv : s.conforms o v = true)
    (h : encodeValue o s v = .ok c) : ∃ d, encodeValue o' s v = .ok d := by
  induction s, v using inductionSteps o generalizing c with
  | step s v ih =>
  have part : ∀ {t w j}, Steps o s v t w → encodeValue o t w = .ok j →
      ∃ d, encodeValue o' t w = .ok d := fun hst =>
    ih _ _ hst (hst.checkable hc) (hst.encodable he) (hst.unionFree hu) (hst.conforms hc hv)
  cases s with
  | any => cases h
  | union ss => exact ((unionFree_iff.mp hu).1 ss rfl).elim
  | ellipsis =>
    rw [encodeValue] at h ⊢
    exact ⟨c, h⟩
  | decimal =>
    obtain ⟨d, rfl⟩ := conforms_decimal_iff.mp hv
    rw [encodeValue]
    exact ⟨_, rfl⟩
  | sequence k s =>
    obtain ⟨l, xs, js, rfl, rfl, hj⟩ := encodeValue_sequence_eq_ok_iff.mp h
    obtain ⟨ks, hk⟩ := List.exists_forall₂ fun x hx =>
      let ⟨_, _, hj⟩ := hj.exists_of_mem_left hx
      part (.item hx) hj
    exact ⟨_, encodeValue_sequence_eq_ok_iff.mpr ⟨l, xs, ks, rfl, rfl, hk⟩⟩
  | tuple ss =>
    obtain ⟨xs, js, rfl, hl, rfl, hj⟩ := encodeValue_tuple_eq_ok_iff.mp h
    obtain ⟨ks, hk⟩ := List.exists_forall₂ fun q hq =>
      let ⟨_, _, hj⟩ := hj.exists_of_mem_left hq
      part (.position hq) hj
    exact ⟨_, encodeValue_tuple_eq_ok_iff.mpr ⟨xs, ks, rfl, hl, rfl, hk⟩⟩
  | mapping k key value =>
    obtain ⟨l, es, rfl, -, hes⟩ := conforms_mapping_iff.mp hv
    exact exists_encodeValue_mapping ho (checkable_of_mem_parts hc (by simp))
      (encodable_iff.mp he).1 (hu.part (by simp)) (fun e hm => (hes e hm).1)
      (fun e hm _ => part (.key hm)) (fun e hm _ => part (.value hm)) h
  | optional s =>
    obtain ⟨t, ht, hct⟩ := (encodeValue_branches?_eq_ok_iff rfl).mp h
    obtain ⟨d, hdt⟩ := part (.branch rfl ht) hct
    refine ⟨d, (encodeValue_branches?_eq_ok_iff rfl).mpr ⟨t, ?_, hdt⟩⟩
    simpa only [← conforms_congr ho] using ht
  | record name fs =>
    obtain ⟨n, vs, ps, rfl, rfl, hp⟩ := encodeValue_record_eq_ok_iff.mp h
    obtain ⟨qs, hq⟩ : ∃ qs : List (String × Json), List.Forall₂ (fun q p => q.2.1 = p.1 ∧
        encodeValue o' q.1.shape q.2.2 = .ok p.2) (fs.zip vs) qs := by
      refine List.exists_forall₂ fun q hq => ?_
      obtain ⟨p, -, -, hj⟩ := hp.exists_of_mem_left hq
      obtain ⟨d, hd⟩ := part (.field hq) hj
      exact ⟨(q.2.1, d), rfl, hd⟩
    exact ⟨_, encodeValue_record_eq_ok_iff.mpr ⟨n, vs, qs, rfl, rfl, hq⟩⟩
  | typedDict name ks =>
    obtain ⟨l, es, ps, rfl, rfl, hp⟩ := encodeValue_typedDict_eq_ok_iff.mp h
    obtain ⟨qs, hq⟩ : ∃ qs : List (String × Json), List.Forall₂ (fun q p => q.1.name = p.1 ∧
        encodeValue o' q.1.shape q.2 = .ok p.2) (declared ks es) qs := by
      refine List.exists_forall₂ fun q hq => ?_
      obtain ⟨p, -, -, hj⟩ := hp.exists_of_mem_left hq
      obtain ⟨d, hd⟩ := part (.entry hq) hj
      exact ⟨(q.1.name, d), rfl, hd⟩
    exact ⟨_, encodeValue_typedDict_eq_ok_iff.mpr ⟨l, es, qs, rfl, rfl, hq⟩⟩
  | _ => exact ⟨c, (encodeValue_congr_of_direct rfl v).symm.trans h⟩

/-! ## Encodings decode alike -/

section Members

variable {α : Type} {xs : List α} {f : α → Shape} {g : α → Value}

theorem exists_members {js : List Json}
    (hj : List.Forall₂ (fun x j => encodeValue o (f x) (g x) = .ok j) xs js) :
    ∃ c : α → Json, js = xs.map c ∧ ∀ x ∈ xs, encodeValue o (f x) (g x) = .ok (c x) :=
  have : Nonempty Json := ⟨.null⟩
  hj.exists_eq_map fun _ _ _ hj hk => Except.ok.inj (hj.symm.trans hk)

theorem exists_entries {name : α → String → Prop} {ps : List (String × Json)}
    (hn : ∀ x t u, name x t → name x u → t = u)
    (hp : List.Forall₂ (fun x p => name x p.1 ∧ encodeValue o (f x) (g x) = .ok p.2) xs ps) :
    ∃ (t : α → String) (c : α → Json), ps = xs.map (fun x => (t x, c x)) ∧ ∀ x ∈ xs,
      name x (t x) ∧ encodeValue o (f x) (g x) = .ok (c x) := by
  have : Nonempty (String × Json) := ⟨("", .null)⟩
  obtain ⟨r, hr, hrx⟩ := hp.exists_eq_map fun x p q hp hq =>
    Prod.ext (hn x _ _ hp.1 hq.1) (Except.ok.inj (hp.2.symm.trans hq.2))
  exact ⟨fun x => (r x).1, fun x => (r x).2, hr, hrx⟩

end Members

theorem interchanges_of_direct (hf : s.keyForm = .direct) : Interchanges o o' s v := by
  intro c d hc hd
  rw [encodeValue_congr_of_direct hf] at hc
  rw [Except.ok.inj (hc.symm.trans hd)]
  exact .refl d

theorem interchanges_decimal (d : Decimal) : Interchanges o o' decimal (.decimal d) := by
  have hdepth : ∀ {p : Settings} {j}, encodeValue p decimal (.decimal d) = .ok j → j.depth = 0 := by
    intro p j hj
    rw [encodeValue] at hj
    obtain rfl := Except.ok.inj hj
    split <;> rfl
  intro a b ha hb
  refine ⟨(hdepth ha).trans (hdepth hb).symm, fun w => ?_⟩
  have ha : a.toDecimal = .ok d := toDecimal_of_encodeValue ha .memory
  have hb : b.toDecimal = .ok d := toDecimal_of_encodeValue hb .memory
  rw [decodeJson_decimal_eq_ok_iff, decodeJson_decimal_eq_ok_iff, ha, hb]

theorem interchanges_sequence {k : SequenceKind} {l : SequenceKind} {xs : List Value}
    (h : ∀ x ∈ xs, Interchanges o o' s x) :
    Interchanges o o' (sequence k s) (.sequence l xs) := by
  intro c d hc hd
  obtain ⟨_, _, js, ⟨⟩, rfl, hj⟩ := encodeValue_sequence_eq_ok_iff.mp hc
  obtain ⟨_, _, ks, ⟨⟩, rfl, hk⟩ := encodeValue_sequence_eq_ok_iff.mp hd
  obtain ⟨f, rfl, hf⟩ := exists_members hj
  obtain ⟨g, rfl, hg⟩ := exists_members hk
  exact interchangeable_sequence fun x hx => h x hx _ _ (hf x hx) (hg x hx)

theorem interchanges_tuple {ss : List Shape} {xs : List Value}
    (h : ∀ q ∈ ss.zip xs, Interchanges o o' q.1 q.2) :
    Interchanges o o' (tuple ss) (.sequence .tuple xs) := by
  intro c d hc hd
  obtain ⟨_, js, ⟨⟩, -, rfl, hj⟩ := encodeValue_tuple_eq_ok_iff.mp hc
  obtain ⟨_, ks, ⟨⟩, -, rfl, hk⟩ := encodeValue_tuple_eq_ok_iff.mp hd
  obtain ⟨f, rfl, hf⟩ := exists_members hj
  obtain ⟨g, rfl, hg⟩ := exists_members hk
  exact interchangeable_tuple fun q hq => h q hq _ _ (hf q hq) (hg q hq)

theorem interchanges_mapping {k : MappingKind} {l : MapKind} {es : List (Value × Value)}
    (hk : ∀ e ∈ es, ∀ t u, keyTextOf o key e.1 = .ok t → keyTextOf o' key e.1 = .ok u → ∀ w,
      decodeKeyText key (decodeJson o key) t = .ok w ↔
        decodeKeyText key (decodeJson o key) u = .ok w)
    (hv : ∀ e ∈ es, Interchanges o o' value e.2) :
    Interchanges o o' (mapping k key value) (.map l es) := by
  intro c d hc hd
  obtain ⟨_, _, ps, ⟨⟩, rfl, hp, -⟩ := encodeValue_mapping_eq_ok_iff.mp hc
  obtain ⟨_, _, qs, ⟨⟩, rfl, hq, -⟩ := encodeValue_mapping_eq_ok_iff.mp hd
  have unique : ∀ (p : Settings) (e : Value × Value) t u, keyTextOf p key e.1 = .ok t →
      keyTextOf p key e.1 = .ok u → t = u := fun _ _ _ _ ht hu => Except.ok.inj (ht.symm.trans hu)
  obtain ⟨t, f, rfl, hf⟩ := exists_entries (unique o) hp
  obtain ⟨u, g, rfl, hg⟩ := exists_entries (unique o') hq
  exact interchangeable_mapping (fun e he => hk e he _ _ (hf e he).1 (hg e he).1)
    fun e he => hv e he _ _ (hf e he).2 (hg e he).2

theorem interchanges_optional (ho : o.castDecimal = o'.castDecimal)
    (h : ∀ t, [s, none].find? (conforms o · v) = some t → Interchanges o o' t v) :
    Interchanges o o' (optional s) v := by
  intro c d hc hd
  obtain ⟨t, ht, hct⟩ := (encodeValue_branches?_eq_ok_iff rfl).mp hc
  obtain ⟨t', ht', hdt⟩ := (encodeValue_branches?_eq_ok_iff rfl).mp hd
  simp only [← conforms_congr ho] at ht'
  obtain rfl : t = t' := Option.some.inj (ht.symm.trans ht')
  rcases List.mem_pair.mp (List.mem_of_find?_eq_some ht) with rfl | rfl
  · refine interchangeable_optional (h _ ht c d hct hdt) ⟨?_, ?_⟩
    · rintro rfl
      exact Except.ok.inj (hdt.symm.trans (encodeValue_eq_null ho hct))
    · rintro rfl
      exact Except.ok.inj (hct.symm.trans (encodeValue_eq_null ho.symm hdt))
  · rw [encodeValue] at hct hdt
    obtain rfl := Except.ok.inj (hct.symm.trans hdt)
    exact .refl _

theorem interchanges_record {name n : String} {fs : List (Field Shape)} {vs : List (String × Value)}
    (hn : (fs.map (·.name)).Nodup) (hv : (record name fs).conforms o (.record n vs) = true)
    (h : ∀ q ∈ fs.zip vs, Interchanges o o' q.1.shape q.2.2) :
    Interchanges o o' (record name fs) (.record n vs) := by
  intro c d hc hd
  obtain ⟨_, _, ps, ⟨⟩, rfl, hp⟩ := encodeValue_record_eq_ok_iff.mp hc
  obtain ⟨_, _, qs, ⟨⟩, rfl, hq⟩ := encodeValue_record_eq_ok_iff.mp hd
  have hnames := names_of_conforms hv hp
  have unique : ∀ (q : Field Shape × String × Value) t u, q.2.1 = t → q.2.1 = u → t = u :=
    fun _ _ _ ht hu => ht.symm.trans hu
  obtain ⟨t, f, rfl, hf⟩ := exists_entries unique hp
  obtain ⟨u, g, rfl, hg⟩ := exists_entries unique hq
  have hentries : ((fs.zip vs).map fun q => (u q, g q)) = (fs.zip vs).map fun q => (t q, g q) :=
    List.map_congr_left fun q hm => by rw [unique q _ _ (hf q hm).1 (hg q hm).1]
  rw [List.map_map] at hnames
  rw [hentries]
  exact interchangeable_record hn hnames fun q hm => h q hm _ _ (hf q hm).2 (hg q hm).2

theorem interchanges_typedDict {name : String} {ks : List (Key Shape)} {l : MapKind}
    {es : List (Value × Value)} (hn : (ks.map (·.name)).Nodup)
    (h : ∀ q ∈ declared ks es, Interchanges o o' q.1.shape q.2) :
    Interchanges o o' (typedDict name ks) (.map l es) := by
  intro c d hc hd
  obtain ⟨_, _, ps, ⟨⟩, rfl, hp⟩ := encodeValue_typedDict_eq_ok_iff.mp hc
  obtain ⟨_, _, qs, ⟨⟩, rfl, hq⟩ := encodeValue_typedDict_eq_ok_iff.mp hd
  have unique : ∀ (q : Key Shape × Value) t u, q.1.name = t → q.1.name = u → t = u :=
    fun _ _ _ ht hu => ht.symm.trans hu
  obtain ⟨t, f, rfl, hf⟩ := exists_entries unique hp
  obtain ⟨u, g, rfl, hg⟩ := exists_entries unique hq
  have hentries : ((declared ks es).map fun q => (u q, g q)) =
      (declared ks es).map fun q => (t q, g q) :=
    List.map_congr_left fun q hm => by rw [unique q _ _ (hf q hm).1 (hg q hm).1]
  rw [hentries]
  exact interchangeable_typedDict hn (fun q hm => ⟨(mem_declared.mp hm).1, (hf q hm).1⟩)
    fun q hm => h q hm _ _ (hf q hm).2 (hg q hm).2

/-- Encodings under settings that cast decimals alike are interchangeable, where no key has a map in
it that stands for a number. -/
theorem interchanges (ho : o.castDecimal = o'.castDecimal) (hc : s.checkable = true)
    (hu : s.UnionFree) (hv : s.conforms o v = true) (hk : s.KeysPlain o v)
    (hk' : s.KeysPlain o' v) : Interchanges o o' s v := by
  induction s, v using inductionSteps o with
  | step s v ih =>
  have part : ∀ {t w}, Steps o s v t w → Interchanges o o' t w := fun {t w} hst =>
    ih t w hst (hst.checkable hc) (hst.unionFree hu) (hst.conforms hc hv) (hk.step hst)
      (hk'.step (hst.congr fun _ u => conforms_congr ho u v))
  cases s with
  | any =>
    intro c d h
    cases h
  | union ss => exact ((unionFree_iff.mp hu).1 ss rfl).elim
  | ellipsis =>
    intro c d hc hd
    rw [encodeValue] at hc hd
    rw [Except.ok.inj (hc.symm.trans hd)]
    exact .refl d
  | decimal =>
    obtain ⟨d, rfl⟩ := conforms_decimal_iff.mp hv
    exact interchanges_decimal d
  | sequence k s =>
    obtain ⟨xs, rfl, -⟩ := conforms_sequence_iff.mp hv
    exact interchanges_sequence fun x hx => part (.item hx)
  | tuple ss =>
    obtain ⟨xs, rfl, -⟩ := conforms_tuple_iff.mp hv
    exact interchanges_tuple fun q hq => part (.position hq)
  | mapping k key value =>
    obtain ⟨l, es, rfl, -, hes⟩ := conforms_mapping_iff.mp hv
    refine interchanges_mapping (fun e he t u ht hu' w => ?_) fun e he => part (.value he)
    exact decodeKeyText_congr ho (checkable_of_mem_parts hc (by simp))
      (hu.part (by simp)) (hes e he).1 (fun hf j => hk k key value l es e j .here he hf)
      (fun hf j => hk' k key value l es e j .here he hf) (part (.key he)) ht hu'
  | optional s => exact interchanges_optional ho fun t ht => part (.branch rfl ht)
  | record name fs =>
    obtain ⟨n, vs, rfl, -⟩ := conforms_record_iff.mp hv
    exact interchanges_record (nodup_of_checkable_record hc) hv fun q hq => part (.field hq)
  | typedDict name ks =>
    obtain ⟨l, es, rfl, -⟩ := conforms_typedDict_iff.mp hv
    exact interchanges_typedDict (nodup_of_checkable_typedDict hc) fun q hq => part (.entry hq)
  | _ => exact interchanges_of_direct rfl

end Shape

/-- The switches of the encoder change the representation and nothing else: where no union occurs,
settings that cast decimals alike encode the same values, and what they encode decodes to the same
value, or not at all, under each of them, unless a key is written as a map that stands for a
number. -/
theorem switches_change_only_representation (s : Shape) (hu : s.UnionFree) (v : Value)
    (o o' : Settings) (ho : o.castDecimal = o'.castDecimal) :
    ((∃ c, encode o s v = .ok c) ↔ ∃ d, encode o' s v = .ok d) ∧
    (s.KeysPlain o v → s.KeysPlain o' v →
      ∀ c d, encode o s v = .ok c → encode o' s v = .ok d →
        ∀ p q : Settings, p.castDecimal = o.castDecimal → q.castDecimal = o.castDecimal →
          ∀ w, decode p s c = .ok w ↔ decode q s d = .ok w) := by
  have exists_other : ∀ {o o' : Settings}, o.castDecimal = o'.castDecimal →
      (∃ c, encode o s v = .ok c) → ∃ d, encode o' s v = .ok d := by
    rintro o o' ho ⟨c, h⟩
    obtain ⟨hs, hv, hc⟩ := encode_eq_ok_iff.mp h
    obtain ⟨hcheck, hencode⟩ := Shape.satisfies_encodable_iff.mp hs
    obtain ⟨d, hd⟩ := Shape.exists_encodeValue ho hcheck hencode hu hv hc
    exact ⟨d, encode_eq_ok_iff.mpr ⟨hs, Shape.conforms_congr ho s v ▸ hv, hd⟩⟩
  have decode_congr : ∀ {p q : Settings} {j w}, p.castDecimal = q.castDecimal →
      (decode p s j = .ok w ↔ decode q s j = .ok w) := fun h => by
    rw [decode_eq_ok_iff, decode_eq_ok_iff, Shape.decodeJson_congr h]
  refine ⟨⟨exists_other ho, exists_other ho.symm⟩, fun hk hk' c d hc hd p q hp hq w => ?_⟩
  obtain ⟨hs, hv, hc⟩ := encode_eq_ok_iff.mp hc
  obtain ⟨-, -, hd⟩ := encode_eq_ok_iff.mp hd
  have hcheck := (Shape.satisfies_encodable_iff.mp hs).1
  have hcd := Shape.interchanges ho hcheck hu hv hk hk' c d hc hd
  rw [decode_congr hp, decode_congr hq, decode_eq_ok_iff, decode_eq_ok_iff, hcd.decodes]

theorem switches_change_only_representation_points :
    let point : Shape := .record "Point" [⟨"x", .decimal, none⟩, ⟨"y", .optional .decimal, none⟩]
    let v : Value := .map .dict
      [(.record "Point" [("x", .decimal (.ofInt64 5)), ("y", .none)], .decimal (.ofInt64 2))]
    let c : Json := .map [("\x7b\"x\":\"5\",\"y\":null\x7d", .str "2")]
    let d : Json := .map [("[5,null]", .number (.ofInt 2))]
    let o : Settings := { decimalsAsNumbers := true, recordsAsLists := true }
    encode .standard (.mapping .dict point .decimal) v = .ok c ∧
      encode o (.mapping .dict point .decimal) v = .ok d ∧
      (∀ w, decode o (.mapping .dict point .decimal) c = .ok w ↔
        decode .standard (.mapping .dict point .decimal) d = .ok w) ∧
      decode .standard (.mapping .dict point .decimal) d = .ok v := by
  intro point v c d o
  have decimal : Shape.decimal.UnionFree := Shape.unionFree_of_parts_eq_nil rfl nofun
  have optional : (Shape.optional .decimal).UnionFree :=
    Shape.unionFree_iff.mpr ⟨nofun, List.forall_mem_singleton.mpr decimal⟩
  have record : point.UnionFree :=
    Shape.unionFree_iff.mpr ⟨nofun, List.forall_mem_pair.mpr ⟨decimal, optional⟩⟩
  have hu : (Shape.mapping .dict point .decimal).UnionFree :=
    Shape.unionFree_iff.mpr ⟨nofun, List.forall_mem_pair.mpr ⟨record, decimal⟩⟩
  have text (i : Int64) : (Decimal.ofInt64 i).text = (Numeral.ofInt i.toInt).text :=
    congrArg Numeral.text (Decimal.toNumeral_ofInt64 i)
  have hc : encode .standard (.mapping .dict point .decimal) v = .ok c := by
    refine encode_eq_ok_iff.mpr ⟨rfl, by cbv, ?_⟩
    simp only [point, v, Shape.encodeValue, Shape.encodeEntries, Shape.encodeFields, text,
      Decimal.toNumeral_ofInt64]
    cbv
  have hd : encode o (.mapping .dict point .decimal) v = .ok d := by
    refine encode_eq_ok_iff.mpr ⟨rfl, by cbv, ?_⟩
    simp only [point, v, Shape.encodeValue, Shape.encodeEntries, Shape.encodeFields, text,
      Decimal.toNumeral_ofInt64]
    cbv
  have mapless : Shape.decimal.Mapless := Shape.mapless_of_parts_eq_nil rfl rfl
  have keyMapless : point.Mapless := Shape.mapless_iff.mpr ⟨rfl, List.forall_mem_pair.mpr
    ⟨mapless, Shape.mapless_iff.mpr ⟨rfl, List.forall_mem_singleton.mpr mapless⟩⟩⟩
  have unnamed : Shape.decimal.NoNumberKey := Shape.noNumberKey_of_parts_eq_nil rfl
  have keyUnnamed : point.NoNumberKey := Shape.noNumberKey_iff.mpr
    ⟨by simp [point, Shape.names, Json.numberKey], List.forall_mem_pair.mpr ⟨unnamed,
      Shape.noNumberKey_iff.mpr ⟨List.not_mem_nil, List.forall_mem_singleton.mpr unnamed⟩⟩⟩
  have plain : ∀ p, (Shape.mapping .dict point .decimal).KeysPlain p v := fun p =>
    Shape.keysAll_mapping keyMapless mapless (List.forall_mem_singleton.mpr fun _ _ =>
      Shape.numberMapFree_encodeValue keyMapless keyUnnamed rfl (by cbv))
  obtain ⟨-, h⟩ := switches_change_only_representation _ hu v .standard o rfl
  exact ⟨hc, hd, h (plain .standard) (plain o) c d hc hd o .standard rfl rfl, by cbv⟩

/-- A key that is written as a map that stands for a number is lost, and as a list it is not. -/
theorem decode_not_alike_of_numberKey :
    let key : Shape := .record "Key" [⟨Json.numberKey, .str, none⟩]
    let v : Value := .map .dict [(.record "Key" [(Json.numberKey, .str "5")], .int 0)]
    let o : Settings := { recordsAsLists := true }
    (Shape.mapping .dict key .int).UnionFree ∧
      ∃ c d, encode .standard (.mapping .dict key .int) v = .ok c ∧
        encode o (.mapping .dict key .int) v = .ok d ∧
        (∀ w, decode .standard (.mapping .dict key .int) c ≠ .ok w) ∧
        ∃ w, decode .standard (.mapping .dict key .int) d = .ok w := by
  intro key v o
  have scalar : ∀ s, s ∈ [Shape.str, .int] → s.UnionFree := List.forall_mem_pair.mpr
    ⟨Shape.unionFree_of_parts_eq_nil rfl nofun, Shape.unionFree_of_parts_eq_nil rfl nofun⟩
  have hu : (Shape.mapping .dict key .int).UnionFree := Shape.unionFree_iff.mpr
    ⟨nofun, List.forall_mem_pair.mpr ⟨Shape.unionFree_iff.mpr
      ⟨nofun, List.forall_mem_singleton.mpr (scalar .str (by simp))⟩, scalar .int (by simp)⟩⟩
  have hkey : Shape.keyTextOf .standard key (.record "Key" [(Json.numberKey, .str "5")]) =
      .ok (Json.map [(Json.numberKey, .str "5")]).write := by cbv
  have hc : encode .standard (.mapping .dict key .int) v =
      .ok (.map [((Json.map [(Json.numberKey, .str "5")]).write, .int 0)]) := by cbv
  have hd : encode o (.mapping .dict key .int) v =
      .ok (.map [((Json.list [.str "5"]).write, .int 0)]) := by cbv
  refine ⟨hu, _, _, hc, hd, fun w hw => ?_, ?_⟩
  · obtain ⟨_, _, ⟨⟩, hp, -⟩ := Shape.decodeJson_mapping_eq_ok_iff.mp (decode_eq_ok_iff.mp hw).2
    obtain ⟨p, -, hp, -⟩ := hp.exists_of_mem_left List.mem_cons_self
    exact Shape.decodeKeyText_ne_ok_of_numberKey rfl rfl rfl hkey hp
  · have hok : (decode .standard (.mapping .dict key .int)
        (.map [((Json.list [.str "5"]).write, .int 0)])).isOk = true := by decide +kernel
    cases h : decode .standard (.mapping .dict key .int)
        (.map [((Json.list [.str "5"]).write, .int 0)]) with
    | ok w => exact ⟨w, rfl⟩
    | error r =>
      rw [h] at hok
      cases hok

end ShapeCodec
