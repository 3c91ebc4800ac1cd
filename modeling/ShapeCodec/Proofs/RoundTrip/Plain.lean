import ShapeCodec.Proofs.RoundTrip.Depth
import ShapeCodec.Proofs.RoundTrip.Tidy

/-! # Encodings in which no map stands for a number

The maps of an encoding come from records, typed dicts and mappings. Where there are no mappings,
the names that a shape declares decide whether one of those maps is taken for a number. A record
that is encoded to such a map never comes back from its text.
-/

namespace ShapeCodec

namespace Shape

variable {o : Settings} {s : Shape} {v : Value} {c : Json}

def names : Shape → List String
  | record _ fs => fs.map (·.name)
  | typedDict _ ks => ks.map (·.name)
  | _ => []

/-- No record and no typed dict declares the name that maps begin with that stand for numbers. -/
def NoNumberKey (s : Shape) : Prop := ∀ t, Within t s → Json.numberKey ∉ t.names

theorem noNumberKey_iff :
    s.NoNumberKey ↔ Json.numberKey ∉ s.names ∧ ∀ p ∈ s.parts, p.NoNumberKey := forall_within_iff

theorem noNumberKey_of_parts_eq_nil (hp : s.parts = []) : s.NoNumberKey := by
  refine noNumberKey_iff.mpr ⟨?_, by simp [hp]⟩
  cases s <;> simp_all [parts, names]

theorem numberMapFree_map_of_names {es : List (String × Json)} {ns : List String}
    (hn : Json.numberKey ∉ ns) (hes : ∀ e ∈ es, e.1 ∈ ns ∧ e.2.NumberMapFree) :
    (Json.map es).NumberMapFree := by
  refine Json.numberMapFree_map_iff.mpr ⟨fun e he hk => ?_, fun e he => (hes e he).2⟩
  exact hn (hk ▸ (hes e (List.mem_of_mem_head? he)).1)

theorem numberMapFree_laidOut {b : Bool} {es : List (String × Json)} {ns : List String}
    (hn : Json.numberKey ∉ ns) (hes : ∀ e ∈ es, e.1 ∈ ns ∧ e.2.NumberMapFree) :
    (laidOut b es).NumberMapFree := by
  cases b
  · exact numberMapFree_map_of_names hn hes
  · exact Json.numberMapFree_list_iff.mpr (List.forall_mem_map.mpr fun e he => (hes e he).2)

/-- Without mappings and without that name, no map in an encoding stands for a number. -/
theorem numberMapFree_encodeValue (hm : s.Mapless) (hn : s.NoNumberKey) (hc : s.checkable = true)
    (hv : s.conforms o v = true) (h : encodeValue o s v = .ok c) : c.NumberMapFree := by
  induction s, v using inductionSteps o generalizing c with
  | step s v ih =>
  have part : ∀ {t w j}, Steps o s v t w → encodeValue o t w = .ok j → j.NumberMapFree := by
    intro t w j hst
    refine ih t w hst ?_ ?_ (hst.checkable hc) (hst.conforms hc hv)
    all_goals rcases hst.shape_mem_parts with ht | rfl
    · exact (mapless_iff.mp hm).2 t ht
    · exact mapless_of_parts_eq_nil rfl rfl
    · exact (noNumberKey_iff.mp hn).2 t ht
    · exact noNumberKey_of_parts_eq_nil rfl
  have branch : ∀ {ss}, s.branches? = some ss → c.NumberMapFree := by
    intro ss hb
    obtain ⟨t, ht⟩ := exists_branch hb hv
    exact part (.branch hb ht) (encodeValue_of_branches? hb ht ▸ h)
  have hself := (noNumberKey_iff.mp hn).1
  cases s with
  | sequence k s =>
    obtain ⟨_, _, js, rfl, rfl, hj⟩ := encodeValue_sequence_eq_ok_iff.mp h
    refine Json.numberMapFree_list_iff.mpr fun j hmem => ?_
    obtain ⟨x, hx, he⟩ := hj.exists_of_mem_right hmem
    exact part (.item hx) he
  | tuple ss =>
    obtain ⟨_, js, rfl, -, rfl, hj⟩ := encodeValue_tuple_eq_ok_iff.mp h
    refine Json.numberMapFree_list_iff.mpr fun j hmem => ?_
    obtain ⟨q, hq, he⟩ := hj.exists_of_mem_right hmem
    exact part (.position hq) he
  | mapping k key value => cases (mapless_iff.mp hm).1
  | record name fs =>
    obtain ⟨_, _, ps, rfl, rfl, hp⟩ := encodeValue_record_eq_ok_iff.mp h
    refine numberMapFree_laidOut hself fun e he => ⟨?_, ?_⟩
    · rw [names, ← names_of_conforms hv hp]
      exact List.mem_map_of_mem he
    · obtain ⟨q, hq, -, hj⟩ := hp.exists_of_mem_right he
      exact part (.field hq) hj
  | typedDict name ks =>
    obtain ⟨_, es, ps, rfl, rfl, hp⟩ := encodeValue_typedDict_eq_ok_iff.mp h
    refine numberMapFree_map_of_names hself fun e he => ?_
    obtain ⟨q, hq, hname, hj⟩ := hp.exists_of_mem_right he
    exact ⟨hname ▸ List.mem_map_of_mem (mem_declared.mp hq).1, part (.entry hq) hj⟩
  | optional s => exact branch rfl
  | union ss => exact branch rfl
  | _ => exact Json.numberMapFree_of_parts_eq_nil (parts_eq_nil_of_encodeValue rfl rfl h)

theorem plain_of_mapless (hm : s.Mapless) (hn : s.NoNumberKey) (hc : s.checkable = true)
    (hv : s.conforms o v = true) : s.Plain o v :=
  ⟨fun _ => numberMapFree_encodeValue hm hn hc hv, hm.keysAll⟩

/-! ## Maps that stand for a number -/

theorem exists_ofNumeral_of_read_write {e : String × Json} {es : List (String × Json)}
    (he : e.1 = Json.numberKey) (h : Json.read (Json.map (e :: es)).write = .ok c) :
    ∃ n, c = .ofNumeral n := by
  obtain ⟨j, hs, -, -, hr⟩ := Json.spelledBy_of_read h
  obtain rfl := hs.unique (Json.spelledBy_write _)
  rw [Json.withIntegers_map, List.map_cons, Json.resolve, Json.numberOf?, if_pos he] at hr
  obtain ⟨n, -, rfl⟩ := map_eq_ok_iff.mp hr
  exact ⟨n, rfl⟩

theorem decodeJson_record_ofNumeral_ne_ok {name : String} {fs : List (Field Shape)} (n : Numeral)
    (v : Value) : decodeJson o (record name fs) (.ofNumeral n) ≠ .ok v := by
  intro h
  obtain ⟨_, _, ⟨_, hj, -⟩ | ⟨_, hj, -⟩, -⟩ := decodeJson_record_eq_ok_iff.mp h
  all_goals
    unfold Json.ofNumeral at hj
    split at hj <;> cases hj

variable {o' : Settings} {name : String} {f : Field Shape} {fs : List (Field Shape)} {w : Value}
  {j : Json}

theorem decodeJson_ne_ok_of_numberKey (ho : o.recordsAsLists = false)
    (hf : f.name = Json.numberKey) (hv : (record name (f :: fs)).conforms o v = true)
    (h : encodeValue o (record name (f :: fs)) v = .ok c) (hr : Json.read c.write = .ok j) :
    decodeJson o' (record name (f :: fs)) j ≠ .ok w := by
  obtain ⟨_, _, ps, rfl, rfl, hp⟩ := encodeValue_record_eq_ok_iff.mp h
  have hnames := names_of_conforms hv hp
  cases ps with
  | nil => cases hnames
  | cons p ps =>
    have hkey : p.1 = Json.numberKey := (List.cons.inj hnames).1.trans hf
    rw [ho] at hr
    obtain ⟨n, rfl⟩ := exists_ofNumeral_of_read_write hkey hr
    exact decodeJson_record_ofNumeral_ne_ok n w

theorem decodeKeyText_ne_ok_of_numberKey {t : String} (ho : o.recordsAsLists = false)
    (hf : f.name = Json.numberKey) (hv : (record name (f :: fs)).conforms o v = true)
    (h : keyTextOf o (record name (f :: fs)) v = .ok t) :
    decodeKeyText (record name (f :: fs)) (decodeJson o' (record name (f :: fs))) t ≠ .ok w := by
  obtain ⟨c, hc, ⟨-, rfl⟩ | ⟨⟨⟩, -⟩⟩ := keyTextOf_eq_ok_iff.mp h
  rw [decodeKeyText, show (record name (f :: fs)).keyForm = .stringified from rfl]
  dsimp only
  cases hr : Json.read c.write with
  | error fault => nofun
  | ok j => exact decodeJson_ne_ok_of_numberKey ho hf hv hc hr

end Shape

theorem load_dump_ne_ok_of_numberKey {o : Settings} {name : String} {f : Field Shape}
    {fs : List (Field Shape)} {v w : Value} {text : String} (ho : o.recordsAsLists = false)
    (hf : f.name = Json.numberKey) (h : dump o (.record name (f :: fs)) v = .ok text) :
    load o (.record name (f :: fs)) text ≠ .ok w := by
  intro hw
  obtain ⟨c, hc, rfl⟩ := dump_eq_ok_iff.mp h
  obtain ⟨j, hr, hd⟩ := load_eq_ok_iff.mp hw
  obtain ⟨-, hv, hc⟩ := encode_eq_ok_iff.mp hc
  exact Shape.decodeJson_ne_ok_of_numberKey ho hf hv hc hr (decode_eq_ok_iff.mp hd).2

end ShapeCodec
