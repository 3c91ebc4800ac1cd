import Mathlib
import ShapeCodec.Proofs.Decoding.Soundness
import ShapeCodec.Proofs.RoundTrip.Plain
import ShapeCodec.Proofs.RoundTrip.Whole

/-! # Loading is a normal form

What decodes is an exact instance, when the defaults of records have been decoded too. A value that
was loaded is therefore dumped to a text that loads to the same value, and dumping that one gives
the same text again.
-/

namespace ShapeCodec

namespace Shape

variable {o : Settings} {s : Shape} {j : Json} {v : Value}

/-- Every default of a record in a shape has been decoded under the shape of its field. -/
def DefaultsDecoded (s : Shape) : Prop :=
  ∀ t, Within t s → ∀ name fs, t = record name fs → ∀ f ∈ fs, ∀ v, f.default? = some v →
    ∃ j, j.UniqueKeys ∧ decode .standard f.shape j = .ok v

theorem defaultsDecoded_iff : s.DefaultsDecoded ↔
    (∀ name fs, s = record name fs → ∀ f ∈ fs, ∀ v, f.default? = some v →
      ∃ j, j.UniqueKeys ∧ decode .standard f.shape j = .ok v) ∧
      ∀ p ∈ s.parts, p.DefaultsDecoded := forall_within_iff

theorem isFinite_of_toBinary64 {x : Binary64} (h : j.toBinary64 o = .ok x) :
    x.isFinite = true := by
  cases j with
  | int i =>
    obtain rfl := Except.ok.inj h
    exact Binary64.isFinite_ofInt i
  | number n =>
    rw [Json.toBinary64] at h
    split at h
    · split at h
      · rename_i y hy
        obtain rfl := Except.ok.inj h
        rw [Numeral.toBinary64?] at hy
        split at hy
        · rename_i hf
          exact Option.some.inj hy ▸ hf
        · cases hy
      · cases h
    · cases h
  | _ => cases h

theorem DefaultsDecoded.wellFormed (hd : s.DefaultsDecoded) : s.DefaultsWellFormed := by
  induction s using inductionParts with
  | step s ih =>
  obtain ⟨hdefault, hd⟩ := defaultsDecoded_iff.mp hd
  have part : ∀ p ∈ s.parts, p.DefaultsWellFormed := fun p hp => ih p hp (hd p hp)
  apply defaultsWellFormed_iff.mpr
  refine ⟨?_, part⟩
  rintro name fs rfl f hf v hv
  obtain ⟨j, hj, h⟩ := hdefault name fs rfl f hf v hv
  exact wellFormed_of_decodeJson (part _ (mem_parts_record hf)) hj (decode_eq_ok_iff.mp h).2

/-- What decodes under a shape is an exact instance of it. -/
def YieldsExact (s : Shape) : Prop := ∀ o j v, decodeJson o s j = .ok v → s.Exact v

theorem yieldsExact_sequence {k : SequenceKind} (hs : s.YieldsExact) :
    (sequence k s).YieldsExact := by
  intro o j v h
  obtain ⟨xs, vs, rfl, hv, rfl⟩ := decodeJson_sequence_eq_ok_iff.mp h
  apply Exact.sequence
  intro w hw
  obtain ⟨x, -, hx⟩ := hv.exists_of_mem_right (Value.mem_of_mem_items hw)
  exact hs o x w hx

theorem yieldsExact_tuple {ss : List Shape} (hs : ∀ s ∈ ss, s.YieldsExact) :
    (tuple ss).YieldsExact := by
  intro o j v h
  obtain ⟨xs, vs, rfl, hl, hv, rfl⟩ := decodeJson_tuple_eq_ok_iff.mp h
  have hvs : List.Forall₂ (fun s w => s.Exact w) ss vs :=
    hv.of_zip hl.symm fun s x w hm hx => hs s (List.of_mem_zip hm).1 o x w hx
  obtain ⟨hlen, hz⟩ := List.forall₂_iff_zip.mp hvs
  exact .tuple hlen fun q hq => hz hq

theorem yieldsExact_mapping {k : MappingKind} {key value : Shape} (hk : key.YieldsExact)
    (hv : value.YieldsExact) : (mapping k key value).YieldsExact := by
  intro o j v h
  obtain ⟨es, ps, rfl, hp, -, rfl⟩ := decodeJson_mapping_eq_ok_iff.mp h
  apply Exact.mapping
  · intro e he
    obtain ⟨x, -, hx, -⟩ := hp.exists_of_mem_right he
    obtain ⟨c, -, hx⟩ := exists_of_decodeKeyText hx
    exact hk o c e.1 hx
  · intro e he
    obtain ⟨x, -, -, hx⟩ := hp.exists_of_mem_right he
    exact hv o x.2 e.2 hx

/-- A default stands for itself as well, since it has been decoded. -/
theorem yieldsExact_record {name : String} {fs : List (Field Shape)}
    (hd : ∀ f ∈ fs, ∀ v, f.default? = some v →
      ∃ j, j.UniqueKeys ∧ decode .standard f.shape j = .ok v)
    (hf : ∀ f ∈ fs, f.shape.YieldsExact) : (record name fs).YieldsExact := by
  intro o j v h
  obtain ⟨given, vs, hg, hv, rfl⟩ := decodeJson_record_eq_ok_iff.mp h
  have hvs : List.Forall₂ (fun f w => f.name = w.1 ∧ f.shape.Exact w.2) fs vs := by
    apply hv.of_zip hg.length.symm
    rintro f given w hz ⟨hn, hfill⟩
    obtain ⟨hm, -⟩ := List.of_mem_zip hz
    refine ⟨hn.symm, ?_⟩
    rcases hfill with ⟨x, -, hx⟩ | ⟨-, hv⟩
    · exact hf f hm o x w.2 hx
    · obtain ⟨x, -, hx⟩ := hd f hm w.2 hv
      exact hf f hm .standard x w.2 (decode_eq_ok_iff.mp hx).2
  obtain ⟨hlen, hz⟩ := List.forall₂_iff_zip.mp hvs
  exact .record hlen (fun q hq => (hz hq).1) fun q hq => (hz hq).2

theorem yieldsExact_typedDict {name : String} {ks : List (Key Shape)}
    (hc : (typedDict name ks).checkable = true) (hk : ∀ k ∈ ks, k.shape.YieldsExact) :
    (typedDict name ks).YieldsExact := by
  intro o j v h
  have hconf : (typedDict name ks).conforms o v = true := conforms_of_decodeJson hc h
  obtain ⟨es, vs, rfl, -, hv, rfl⟩ := decodeJson_typedDict_eq_ok_iff.mp h
  obtain ⟨_, _, he, _, hr⟩ := conforms_typedDict_iff.mp hconf
  obtain ⟨-, rfl⟩ := Value.map.inj he
  have hvs : ∀ w ∈ vs, ∃ k ∈ ks, w.1 = .str k.name ∧ k.shape.Exact w.2 := by
    intro w hw
    obtain ⟨e, -, hn, k, hf, hx⟩ := hv.exists_of_mem_right hw
    have hm := List.mem_of_find?_eq_some hf
    have hkn : k.name = e.1 := by simpa using List.find?_some hf
    exact ⟨k, hm, by rw [hn, hkn], hk k hm o e.2 w.2 hx⟩
  refine .typedDict (fun w hw => ?_) (fun w hw k hk hn => ?_) hr
  · obtain ⟨k, hk, hn, _⟩ := hvs w hw
    exact ⟨k, hk, hn⟩
  · obtain ⟨l, hl, hn', hx⟩ := hvs w hw
    obtain rfl : l = k :=
      List.inj_on_of_nodup_map (nodup_of_checkable_typedDict hc) hl hk
        (Value.str.inj (hn'.symm.trans hn))
    exact hx

theorem yieldsExact_of_checkable (hc : s.checkable = true) (hd : s.DefaultsDecoded) :
    s.YieldsExact := by
  induction s using inductionParts with
  | step s ih =>
  obtain ⟨hdefault, hd⟩ := defaultsDecoded_iff.mp hd
  have part : ∀ p ∈ s.parts, p.YieldsExact := fun p hp =>
    ih p hp (checkable_of_mem_parts hc hp) (hd p hp)
  intro o j v h
  cases s with
  | any => exact (decodeJson_any_ne_ok h).elim
  | bool =>
    obtain ⟨b, -, rfl⟩ := decodeJson_bool_eq_ok_iff.mp h
    exact .bool b
  | int =>
    obtain ⟨i, -, rfl⟩ := decodeJson_int_eq_ok_iff.mp h
    exact .int i
  | float =>
    obtain ⟨x, hx, rfl⟩ := decodeJson_float_eq_ok_iff.mp h
    exact .float (isFinite_of_toBinary64 hx)
  | str =>
    obtain ⟨t, -, rfl⟩ := decodeJson_str_eq_ok_iff.mp h
    exact .str t
  | none =>
    obtain ⟨-, rfl⟩ := decodeJson_none_eq_ok_iff.mp h
    exact .none
  | ellipsis =>
    obtain ⟨-, rfl⟩ := decodeJson_ellipsis_eq_ok_iff.mp h
    exact .ellipsis
  | decimal =>
    obtain ⟨d, -, rfl⟩ := decodeJson_decimal_eq_ok_iff.mp h
    exact .decimal d
  | literal ls =>
    obtain ⟨l, hl, rfl⟩ := decodeJson_literal_eq_ok_iff.mp h
    exact .literal (List.mem_of_find?_eq_some hl) l.fits_toValue
  | enum name ms =>
    obtain ⟨m, -, hm, rfl⟩ := decodeJson_enum_eq_ok_iff.mp h
    exact .enum hm
  | sequence k s => exact yieldsExact_sequence (part s (by simp)) o j v h
  | tuple ss => exact yieldsExact_tuple part o j v h
  | mapping k key value =>
    exact yieldsExact_mapping (part key (by simp)) (part value (by simp)) o j v h
  | optional s =>
    rcases decodeJson_optional_eq_ok_iff.mp h with h | ⟨-, -, rfl⟩
    · exact .some (part s (by simp) o j v h)
    · exact .empty
  | union ss =>
    obtain ⟨pre, s, post, rfl, -, hv⟩ := decodeJson_union_eq_ok_iff.mp h
    have hm : s ∈ pre ++ s :: post := by simp
    exact .union hm (part s hm o j v hv)
  | record name fs =>
    exact yieldsExact_record (hdefault name fs rfl) (fun f hf => part _ (mem_parts_record hf)) o j v h
  | typedDict name ks =>
    exact yieldsExact_typedDict hc (fun k hk => part _ (mem_parts_typedDict hk)) o j v h

/-- What decodes is an exact instance, and its sets and maps repeat nothing. -/
theorem exact_of_decodeJson (hc : s.checkable = true) (hd : s.DefaultsDecoded)
    (hj : j.UniqueKeys) (h : decodeJson o s j = .ok v) : s.Exact v ∧ v.WellFormed :=
  ⟨yieldsExact_of_checkable hc hd _ _ _ h, wellFormed_of_decodeJson hd.wellFormed hj h⟩

theorem exact_of_load {text : String} (hc : s.checkable = true) (hd : s.DefaultsDecoded)
    (h : load o s text = .ok v) : s.Exact v ∧ v.WellFormed := by
  obtain ⟨j, hj, h⟩ := load_eq_ok_iff.mp h
  exact exact_of_decodeJson hc hd (Json.uniqueKeys_of_read hj) (decode_eq_ok_iff.mp h).2

end Shape

/-- What was loaded is dumped to a text that loads to the same value and is dumped again alike, for
shapes without unions that are not too high, where no map stands for a number. -/
theorem load_dump_load (o : Settings) (s : Shape) (text : String) (v : Value)
    (ho : o.castDecimal = true) (hs : s.satisfies .encodable = true) (hh : s.height ≤ 126)
    (hu : s.Unionless) (hl : s.NoLiteralKeys) (hd : s.DefaultsDecoded)
    (h : load o s text = .ok v) (hp : s.Plain o v) :
    ∃ t w, dump o s v = .ok t ∧ load o s t = .ok w ∧ w.same v = true ∧ dump o s w = .ok t := by
  obtain ⟨hc, he⟩ := Shape.satisfies_encodable_iff.mp hs
  obtain ⟨hx, hw⟩ := Shape.exact_of_load hc hd h
  have hk : s.KeysReadable o v := Shape.keysReadable_of_height (Nat.lt_succ_of_le hh) hp.keys
  obtain ⟨c, hencode, huc, hr⟩ := Shape.roundTrips ho hc he hu.unambiguous hl hk hx hw
  have hread : c.Readable := hp.readable (Nat.lt_succ_of_le hh) hencode
  obtain ⟨w, hr⟩ := hr .text hread
  have hdump : ∀ u, s.Exact u → s.encodeValue o u = .ok c → dump o s u = .ok c.write :=
    fun u hu he => dump_eq_ok_iff.mpr ⟨c, encode_eq_ok_iff.mpr ⟨hs, hu.conforms hc, he⟩, rfl⟩
  exact ⟨c.write, w, hdump v hx hencode, load_eq_ok_iff.mpr ⟨_, Json.read_write huc hread,
    decode_eq_ok_iff.mpr ⟨hs, hr.decode⟩⟩, hr.same, hdump w hr.exact hr.encode⟩

def orderShape : Shape :=
  .record "Order" [⟨"id", .int, none⟩, ⟨"lines", .sequence .set .int, none⟩,
    ⟨"price", .decimal, some (.decimal (.ofInt64 3))⟩]

/-- A record by position, with blanks, whole numbers that are spelled with a fraction, a member of a
set that comes twice and a defaulted field that is left out. -/
theorem load_dump_load_positional :
    ∃ v t w, load .standard orderShape "[ 7.0, [2, 2.0, 5]]" = .ok v ∧
      dump .standard orderShape v = .ok t ∧ load .standard orderShape t = .ok w ∧
      w.same v = true ∧ dump .standard orderShape w = .ok t := by
  have h : load .standard orderShape "[ 7.0, [2, 2.0, 5]]" = .ok (.record "Order"
      [("id", .int 7), ("lines", .sequence .set [.int 2, .int 5]),
        ("price", .decimal (.ofInt64 3))]) := by
    cbv
  have hwithin : ∀ t, Shape.Within t orderShape →
      t = orderShape ∨ t = .int ∨ t = .sequence .set .int ∨ t = .decimal := by
    rintro t (_ | ⟨hp, ht⟩)
    · exact .inl rfl
    simp only [orderShape, Shape.parts, List.map_cons, List.map_nil, List.mem_cons,
      List.not_mem_nil, or_false] at hp
    rcases hp with rfl | rfl | rfl
    · simp [ht.eq_of_parts_eq_nil rfl]
    · rcases ht with _ | ⟨hp, ht⟩
      · simp
      · obtain rfl := List.mem_singleton.mp hp
        simp [ht.eq_of_parts_eq_nil rfl]
    · simp [ht.eq_of_parts_eq_nil rfl]
  have hdefaults : orderShape.DefaultsDecoded := by
    intro t ht
    rcases hwithin t ht with rfl | rfl | rfl | rfl
    · rintro name fs ⟨⟩ f hf v hv
      simp only [List.mem_cons, List.not_mem_nil, or_false] at hf
      rcases hf with rfl | rfl | rfl <;> cases hv
      exact ⟨.int 3, Json.uniqueKeys_of_parts_eq_nil rfl, by cbv⟩
    all_goals simp
  have hplain : orderShape.Plain .standard (.record "Order" [("id", .int 7),
      ("lines", .sequence .set [.int 2, .int 5]), ("price", .decimal (.ofInt64 3))]) := by
    refine Shape.plain_of_mapless (fun t ht => ?_) (fun t ht => ?_) (by decide) (by cbv)
    · rcases hwithin t ht with rfl | rfl | rfl | rfl <;> rfl
    · rcases hwithin t ht with rfl | rfl | rfl | rfl <;>
        simp [orderShape, Shape.names, Json.numberKey]
  obtain ⟨t, w, hw⟩ := load_dump_load _ _ _ _ rfl (by decide) (by decide)
    (fun t ht => (by rcases hwithin t ht with rfl | rfl | rfl | rfl <;> rfl))
    (fun t ht => (by rcases hwithin t ht with rfl | rfl | rfl | rfl <;> simp [orderShape]))
    hdefaults h hplain
  exact ⟨_, t, w, h, hw⟩

end ShapeCodec
