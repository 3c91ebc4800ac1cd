import ShapeCodec.Proofs.RoundTrip.Branches
import ShapeCodec.Proofs.RoundTrip.Mappings
import ShapeCodec.Proofs.RoundTrip.Tidy

/-! # Encodings decode

What has been encoded decodes under the same shape, whether it is exact or not: an integer may come
back as a float and a union through another branch. Only two keys of one map that come back as the
same key stand in the way.
-/

namespace ShapeCodec

namespace Shape

variable {o : Settings} {s t key value : Shape} {v w k : Value} {c j : Json}

/-- An encoding decodes on all ways that it can go. -/
def Decodes (o : Settings) (s : Shape) (c : Json) : Prop :=
  ∀ p : Passage, p.Fits c → ∃ w, decodeJson o s (p.apply c) = .ok w

theorem RoundTrips.decodes (h : RoundTrips o s v) (hc : encodeValue o s v = .ok c) :
    Decodes o s c := by
  intro p hp
  obtain ⟨w, hw⟩ := h.returns hc hp
  exact ⟨w, hw.decode⟩

/-! ## Scalars -/

theorem decodes_int (i : Int64) : Decodes o int (.int i) :=
  (roundTrips_int i).decodes (by simp [encodeValue])

theorem decodes_float_int (i : Int64) : Decodes o float (.int i) := by
  intro p _
  refine ⟨.float (.ofInt i.toInt), decodeJson_float_eq_ok_iff.mpr ⟨_, ?_, rfl⟩⟩
  cases p <;> rfl

theorem decodes_float_decimal (ho : o.castDecimal = true) (d : Decimal) :
    Decodes o float (.number d.toNumeral) := by
  intro p _
  rcases p.apply_number d.toNumeral with hp | ⟨i, -, hp⟩
  · obtain ⟨x, hx⟩ := d.exists_toBinary64?
    rw [hp]
    exact ⟨.float x, decodeJson_float_eq_ok_iff.mpr ⟨x, by simp [Json.toBinary64, ho, hx], rfl⟩⟩
  · rw [hp]
    exact decodes_float_int i .memory trivial

theorem decodes_literal {ls : List Literal} {l : Literal} (hl : l ∈ ls)
    (h : encodeLiteral l = .ok c) : Decodes o (literal ls) c := by
  intro p _
  obtain ⟨m, hm⟩ : ∃ m, ls.find? (·.accepts (p.apply c)) = some m := by
    refine Option.isSome_iff_exists.mp (List.find?_isSome.mpr ⟨l, hl, ?_⟩)
    rw [accepts_encodeLiteral h]
    exact Value.same_refl _
  exact ⟨m.toValue, decodeJson_literal_eq_ok_iff.mpr ⟨m, hm, rfl⟩⟩

theorem decodes_direct (hf : s.keyForm = .direct) (hs : s ≠ float) (hv : s.conforms o v = true)
    (h : encodeValue o s v = .ok c) : Decodes o s c := by
  cases s with
  | bool =>
    obtain ⟨b, rfl⟩ := conforms_bool_iff.mp hv
    exact (roundTrips_bool b).decodes h
  | int =>
    obtain ⟨i, rfl⟩ : ∃ i, c = .int i := by
      rcases conforms_int_iff.mp hv with ⟨i, rfl⟩ | ⟨d, i, rfl, -, -, hi⟩
      · exact ⟨i, by simpa [encodeValue] using h.symm⟩
      · exact ⟨i, by simpa [encodeValue, hi] using h.symm⟩
    exact decodes_int i
  | float => exact (hs rfl).elim
  | str =>
    obtain ⟨t, rfl⟩ := conforms_str_iff.mp hv
    exact (roundTrips_str t).decodes h
  | none =>
    obtain rfl := conforms_none_iff.mp hv
    exact roundTrips_none.decodes h
  | literal ls =>
    obtain ⟨l, hl, he⟩ := encodeValue_literal_eq_ok_iff.mp h
    exact decodes_literal (List.mem_of_find?_eq_some hl) he
  | enum name ms =>
    obtain ⟨m, rfl, hm⟩ := conforms_enum_iff.mp hv
    exact (roundTrips_enum hm).decodes h
  | _ => cases hf

/-! ## Collections -/

theorem decodes_sequence {kind : SequenceKind} {js : List Json} (h : ∀ j ∈ js, Decodes o s j) :
    Decodes o (sequence kind s) (.list js) := by
  intro p hp
  obtain ⟨ws, hw⟩ := List.exists_forall₂ fun j hj => h j hj p (hp.item hj)
  rw [Passage.apply_list]
  exact ⟨_, decodeJson_sequence_eq_ok_iff.mpr
    ⟨_, ws, rfl, List.forall₂_map_left_iff.mpr hw, rfl⟩⟩

theorem decodes_tuple {ss : List Shape} {js : List Json} (hl : js.length = ss.length)
    (h : ∀ q ∈ ss.zip js, Decodes o q.1 q.2) : Decodes o (tuple ss) (.list js) := by
  intro p hp
  obtain ⟨ws, hw⟩ := List.exists_forall₂ fun q hq => h q hq p (hp.item (List.of_mem_zip hq).2)
  rw [Passage.apply_list]
  refine ⟨_, decodeJson_tuple_eq_ok_iff.mpr ⟨_, ws, rfl, by rw [List.length_map, hl], ?_, rfl⟩⟩
  rw [List.zip_map_right, List.forall₂_map_left_iff]
  exact hw

theorem decodes_record {name : String} {fs : List (Field Shape)} {es : List (String × Json)}
    {b : Bool} (hn : (fs.map (·.name)).Nodup) (he : es.map (·.1) = fs.map (·.name))
    (h : ∀ q ∈ fs.zip es, Decodes o q.1.shape q.2.2) :
    Decodes o (record name fs) (laidOut b es) := by
  intro p hp
  obtain ⟨ws, hw⟩ : ∃ ws : List (String × Value), List.Forall₂ (fun q w => w.1 = q.1.name ∧
      decodeJson o q.1.shape (p.apply q.2.2) = .ok w.2) (fs.zip es) ws := by
    refine List.exists_forall₂ fun q hq => ?_
    obtain ⟨w, hw⟩ := h q hq p (fits_of_mem_laidOut hp (List.of_mem_zip hq).2)
    exact ⟨(q.1.name, w), rfl, hw⟩
  rw [apply_laidOut]
  refine ⟨_, decodeJson_record_eq_ok_iff.mpr
    ⟨_, ws, lays_laidOut b hn (by rwa [List.map_map]), ?_, rfl⟩⟩
  rw [List.map_map, List.zip_map_right, List.forall₂_map_left_iff]
  exact hw.imp fun q w hw => ⟨hw.1, .inl ⟨_, rfl, hw.2⟩⟩

theorem decodes_typedDict {name : String} {ks : List (Key Shape)} {es : List (String × Json)}
    (hn : (ks.map (·.name)).Nodup)
    (hr : ∀ k ∈ ks, k.required = true → ∃ e ∈ es, e.1 = k.name)
    (h : ∀ e ∈ es, ∃ k ∈ ks, k.name = e.1 ∧ Decodes o k.shape e.2) :
    Decodes o (typedDict name ks) (.map es) := by
  intro p hp
  obtain ⟨ws, hw⟩ : ∃ ws : List (Value × Value), List.Forall₂ (fun e w => w.1 = .str e.1 ∧
      ∃ k, ks.find? (·.name == e.1) = some k ∧
        decodeJson o k.shape (p.apply e.2) = .ok w.2) es ws := by
    refine List.exists_forall₂ fun e he => ?_
    obtain ⟨k, hk, hke, hd⟩ := h e he
    obtain ⟨w, hw⟩ := hd p (hp.entry he)
    exact ⟨(.str e.1, w), rfl, k, hke ▸ List.find?_of_nodup_map hn hk, hw⟩
  rw [Passage.apply_map]
  refine ⟨_, decodeJson_typedDict_eq_ok_iff.mpr
    ⟨_, ws, rfl, fun k hk hq => ?_, List.forall₂_map_left_iff.mpr hw, rfl⟩⟩
  obtain ⟨e, he, hek⟩ := hr k hk hq
  exact ⟨_, List.mem_map_of_mem he, hek⟩

/-! ## Unions -/

theorem exists_first_decodes {ss : List Shape} (ht : t ∈ ss) (h : ∃ w, decodeJson o t j = .ok w) :
    ∃ pre u post w, ss = pre ++ u :: post ∧ (∀ a ∈ pre, ∀ x, decodeJson o a j ≠ .ok x) ∧
      decodeJson o u j = .ok w := by
  induction ss with
  | nil => cases ht
  | cons a ss ih =>
    cases ha : decodeJson o a j with
    | ok w => exact ⟨[], a, ss, w, rfl, List.forall_mem_nil _, ha⟩
    | error rs =>
      have hne : ∀ x, decodeJson o a j ≠ .ok x := by simp [ha]
      obtain ⟨w, hw⟩ := h
      rcases List.mem_cons.mp ht with rfl | ht
      · exact (hne w hw).elim
      · obtain ⟨pre, u, post, x, rfl, hp, hu⟩ := ih ht
        exact ⟨a :: pre, u, post, x, rfl, List.forall_mem_cons.mpr ⟨hne, hp⟩, hu⟩

theorem decodes_branch {ss : List Shape} (hb : s.branches? = some ss) (ht : t ∈ ss)
    (h : Decodes o t c) : Decodes o s c := by
  intro p hp
  obtain ⟨pre, u, post, w, rfl, hpre, hw⟩ := exists_first_decodes ht (h p hp)
  exact ⟨w, decodeJson_of_branches? hb hpre hw⟩

/-! ## Mappings -/

theorem exists_firstDecoded {decode : Json → Decoded Value} {cs : List Json} (hc : c ∈ cs)
    (h : decode c = .ok v) : ∃ w, firstDecoded decode cs = .ok w := by
  cases cs with
  | nil => cases hc
  | cons d ds =>
    rw [firstDecoded]
    cases hd : decode d with
    | ok w => exact ⟨w, rfl⟩
    | error rs =>
      have hsome : (ds.findSome? fun c => (decode c).toOption).isSome = true := by
        rcases List.mem_cons.mp hc with rfl | hc
        · rw [h] at hd
          cases hd
        · exact List.findSome?_isSome_iff.mpr ⟨c, hc, by rw [h]; rfl⟩
      obtain ⟨w, hw⟩ := Option.isSome_iff_exists.mp hsome
      exact ⟨w, by simp [hw]⟩

theorem exists_decodeKeyText {x : Value} {text : String} (hc : key.checkable = true)
    (hv : key.conforms o k = true) (hj : encodeValue o key k = .ok j) (hd : Decodes o key j)
    (hr : key.keyForm = .stringified → j.Readable)
    (ht : keyText key x j = .ok text) :
    ∃ w, decodeKeyText key (decodeJson o key) text = .ok w := by
  have hu : j.UniqueKeys := (tidy_encodeValue hc hv hj).uniqueKeys
  rw [decodeKeyText]
  cases hf : key.keyForm with
  | stringified =>
    rw [keyText, hf] at ht
    obtain rfl := Except.ok.inj ht
    simp only [Json.read_write hu (hr hf)]
    exact hd .text (hr hf)
  | direct =>
    have hs := isSome_scalarText hf hv hj
    have htext : j.scalarText? = some text := by
      obtain ⟨u, hu⟩ := Option.isSome_iff_exists.mp hs
      simpa [keyText, hf, hu] using ht
    -- a string is its own text, any other scalar is read back from its text
    by_cases hstr : ∃ t, j = .str t
    · obtain ⟨t, rfl⟩ := hstr
      obtain rfl : t = text := Option.some.inj htext
      obtain ⟨w, hw⟩ := hd .memory trivial
      exact exists_firstDecoded (c := .str t) (by simp [keyCandidates]) hw
    · obtain ⟨hw, hi⟩ := Json.scalarText?_eq_write hs fun t ht => hstr ⟨t, ht⟩
      obtain rfl : j.write = text := Option.some.inj (hw.symm.trans htext)
      have hread := Json.read_write_of_scalarText? hs
      obtain ⟨w, hw⟩ := hd .text (Json.readable_of_scalarText? hs)
      refine exists_firstDecoded (c := j.withIntegers) ?_ hw
      cases key with
      | str =>
        obtain ⟨t, rfl⟩ := conforms_str_iff.mp hv
        exact (hstr ⟨t, by simpa [encodeValue] using hj.symm⟩).elim
      | enum name ms =>
        obtain ⟨m, rfl, -⟩ := conforms_enum_iff.mp hv
        exact (hstr ⟨m, by simpa [encodeValue] using hj.symm⟩).elim
      | _ => simp [keyCandidates, hread, hi]

/-- A key comes back from its text as another one. -/
def KeyBecomes (o : Settings) (key : Shape) (k w : Value) : Prop :=
  ∃ text, keyTextOf o key k = .ok text ∧ decodeKeyText key (decodeJson o key) text = .ok w

/-- No two keys of a map that is met come back as one. -/
def KeysApart (o : Settings) (s : Shape) (v : Value) : Prop :=
  ∀ k key value l es, Meets o s v (mapping k key value) (.map l es) →
    es.Pairwise fun a b => ∀ x y, KeyBecomes o key a.1 x → KeyBecomes o key b.1 y →
      y.same x = false

theorem KeysApart.step (h : KeysApart o s v) (hst : Steps o s v t w) : KeysApart o t w :=
  fun k key value l es hm => h k key value l es (.step hst hm)

theorem decodes_mapping {kind : MappingKind} {es : List (String × Json)}
    (hk : ∀ e ∈ es, ∃ w, decodeKeyText key (decodeJson o key) e.1 = .ok w)
    (ha : es.Pairwise fun a b => ∀ x y, decodeKeyText key (decodeJson o key) a.1 = .ok x →
      decodeKeyText key (decodeJson o key) b.1 = .ok y → y.same x = false)
    (hv : ∀ e ∈ es, Decodes o value e.2) : Decodes o (mapping kind key value) (.map es) := by
  intro p hp
  obtain ⟨ws, hw⟩ : ∃ ws : List (Value × Value), List.Forall₂ (fun e w =>
      decodeKeyText key (decodeJson o key) e.1 = .ok w.1 ∧
        decodeJson o value (p.apply e.2) = .ok w.2) es ws := by
    refine List.exists_forall₂ fun e he => ?_
    obtain ⟨x, hx⟩ := hk e he
    obtain ⟨w, hw⟩ := hv e he p (hp.entry he)
    exact ⟨(x, w), hx, hw⟩
  rw [Passage.apply_map]
  exact ⟨_, decodeJson_mapping_eq_ok_iff.mpr ⟨_, ws, rfl, List.forall₂_map_left_iff.mpr hw,
    hw.flip.pairwise ha fun a b c d hac hbd hcd => hcd _ _ hac.1 hbd.1, rfl⟩⟩

/-! ## Whole values -/

/-- What is encoded decodes again, when decimals are cast and the keys can be read and told
apart. -/
theorem decodes_encodeValue (ho : o.castDecimal = true) (hc : s.checkable = true)
    (hv : s.conforms o v = true) (hk : s.KeysReadable o v) (ha : s.KeysApart o v)
    (h : encodeValue o s v = .ok c) : Decodes o s c := by
  induction s, v using inductionSteps o generalizing c with
  | step s v ih =>
  have part : ∀ {t w j}, Steps o s v t w → encodeValue o t w = .ok j → Decodes o t j :=
    fun hst => ih _ _ hst (hst.checkable hc) (hst.conforms hc hv) (hk.step hst) (ha.step hst)
  have branch : ∀ {ss}, s.branches? = some ss → Decodes o s c := by
    intro ss hb
    obtain ⟨t, ht⟩ := exists_branch hb hv
    exact decodes_branch hb (List.mem_of_find?_eq_some ht)
      (part (.branch hb ht) (encodeValue_of_branches? hb ht ▸ h))
  cases s with
  | any => cases h
  | float =>
    rcases conforms_float_iff.mp hv with ⟨i, rfl⟩ | ⟨x, rfl⟩ | ⟨d, rfl, -⟩
    · obtain rfl : Json.int i = c := by simpa [encodeValue] using h
      exact decodes_float_int i
    · have hx : x.isFinite = true := by
        rw [encodeValue] at h
        by_contra hx
        exact encodeFloat_ne_ok (by simpa using hx) c h
      exact (roundTrips_float ho hx).decodes h
    · obtain rfl : Json.number d.toNumeral = c := by simpa [encodeValue] using h
      exact decodes_float_decimal ho d
  | ellipsis =>
    obtain rfl := conforms_ellipsis_iff.mp hv
    exact roundTrips_ellipsis.decodes h
  | decimal =>
    obtain ⟨d, rfl⟩ := conforms_decimal_iff.mp hv
    exact (roundTrips_decimal d).decodes h
  | sequence kind s =>
    obtain ⟨_, _, js, rfl, rfl, hj⟩ := encodeValue_sequence_eq_ok_iff.mp h
    refine decodes_sequence fun j hm => ?_
    obtain ⟨x, hx, he⟩ := hj.exists_of_mem_right hm
    exact part (.item hx) he
  | tuple ss =>
    obtain ⟨xs, js, rfl, hl, rfl, hj⟩ := encodeValue_tuple_eq_ok_iff.mp h
    have hlen : js.length = ss.length := by rw [← hj.length_eq, List.length_zip, hl, min_self]
    refine decodes_tuple hlen fun q hq => ?_
    obtain ⟨x, hx, he⟩ := hj.exists_mem_zip_right hq
    exact part (.position hx) he
  | mapping kind key value =>
    obtain ⟨l, es, ps, rfl, rfl, hp, -⟩ := encodeValue_mapping_eq_ok_iff.mp h
    refine decodes_mapping (fun e hm => ?_) ?_ fun e hm => ?_
    · obtain ⟨x, hx, ht, -⟩ := hp.exists_of_mem_right hm
      obtain ⟨j, hj, ht⟩ := bind_eq_ok_iff.mp ht
      have hst : Steps o (mapping kind key value) (.map l es) key x.1 := .key hx
      exact exists_decodeKeyText (hst.checkable hc) (hst.conforms hc hv) hj (part hst hj)
        (fun hf => hk kind key value l es x j .here hx hf hj) ht
    · exact hp.flip.pairwise (ha kind key value l es .here) fun a b c d hac hbd hcd x y hx hy =>
        hcd x y ⟨_, hac.1, hx⟩ ⟨_, hbd.1, hy⟩
    · obtain ⟨x, hx, -, he⟩ := hp.exists_of_mem_right hm
      exact part (.value hx) he
  | optional s => exact branch rfl
  | union ss => exact branch rfl
  | record name fs =>
    obtain ⟨n, vs, ps, rfl, rfl, hp⟩ := encodeValue_record_eq_ok_iff.mp h
    refine decodes_record (nodup_of_checkable_record hc) (names_of_conforms hv hp) fun q hq => ?_
    obtain ⟨x, hx, -, he⟩ := hp.exists_mem_zip_right hq
    exact part (.field hx) he
  | typedDict name ks =>
    obtain ⟨l, es, ps, rfl, rfl, hp⟩ := encodeValue_typedDict_eq_ok_iff.mp h
    obtain ⟨_, _, ⟨⟩, -, hr⟩ := conforms_typedDict_iff.mp hv
    refine decodes_typedDict (nodup_of_checkable_typedDict hc) (fun k hk hq => ?_) fun e hm => ?_
    · obtain ⟨x, hx⟩ := mem_declared_of_hasKey hk (hr k hk hq)
      obtain ⟨e, he, hn, -⟩ := hp.exists_of_mem_left hx
      exact ⟨e, he, hn.symm⟩
    · obtain ⟨q, hq, hn, he⟩ := hp.exists_of_mem_right hm
      exact ⟨q.1, (mem_declared.mp hq).1, hn, part (.entry hq) he⟩
  | _ => exact decodes_direct rfl (by simp) hv h

end Shape

end ShapeCodec
