import Mathlib
import ShapeCodec.Proofs.RoundTrip.Descent
import ShapeCodec.Proofs.RoundTrip.Loading
import ShapeCodec.Proofs.Switches.Scope

/-! # Loading without decimal casting

Without casting a float takes whole numbers only, but it is always written with a fraction. What was
loaded is therefore dumped in any case, and it can be loaded again unless there is a float in it.
-/

namespace ShapeCodec

namespace Shape

variable {o : Settings} {s : Shape} {v : Value} {c : Json}

/-- Without unions nothing that is encoded depends on the casting of decimals. -/
theorem encodeValue_castDecimal (b : Bool) (hu : s.Unionless) :
    encodeValue { o with castDecimal := b } s v = .ok c ↔ encodeValue o s v = .ok c := by
  induction s using inductionParts generalizing v c with
  | step s ih =>
  obtain ⟨hb, hu⟩ := unionless_iff.mp hu
  constructor
  · exact encodeValue_of_parts rfl rfl hb fun p hp _ _ => (ih p hp (hu p hp)).mp
  · exact encodeValue_of_parts rfl rfl hb fun p hp _ _ => (ih p hp (hu p hp)).mpr

/-- Without unions what is met does not depend on the switches. -/
theorem Meets.congr_of_unionless {o' : Settings} {t : Shape} {w : Value} (hu : s.Unionless)
    (h : Meets o s v t w) : Meets o' s v t w := by
  induction h with
  | here => exact .here
  | step hst _ ih =>
    exact .step (hst.congr fun hb => (hb (hu _ .here)).elim) (ih (hst.unionless hu))

theorem KeysAll.castDecimal {P : Json → Prop} (b : Bool) (hu : s.Unionless)
    (h : KeysAll P o s v) : KeysAll P { o with castDecimal := b } s v := by
  intro k key value l es e j hm he hf hj
  have hm : Meets o s v (mapping k key value) (.map l es) := hm.congr_of_unionless hu
  have hkey : key.Unionless := fun t ht => hm.unionless hu t (.part (by simp) ht)
  exact h k key value l es e j hm he hf ((encodeValue_castDecimal b hkey).mp hj)

/-- Without unions an exact instance is encoded, whether decimals are cast or not. -/
theorem exists_encodeValue_of_exact (hc : s.checkable = true) (he : s.encodable = true)
    (hu : s.Unionless) (hl : s.NoLiteralKeys)
    (hk : s.KeysReadable o v) (hx : s.Exact v) (hw : v.WellFormed) :
    ∃ c, encodeValue o s v = .ok c := by
  obtain ⟨c, hj, -⟩ := roundTrips (o := { o with castDecimal := true }) rfl hc he hu.unambiguous hl
    (hk.castDecimal true hu) hx hw
  exact ⟨c, (encodeValue_castDecimal true hu).mp hj⟩

/-- Without casting no float comes back. -/
theorem not_comesBack_float {x : Binary64} (ho : o.castDecimal = false) :
    ¬ ComesBack o float (.float x) := by
  rintro ⟨c, p, w, hc, hw⟩
  rw [encodeValue] at hc
  obtain ⟨n, rfl, hf, -⟩ := exists_of_encodeFloat hc
  rw [Passage.apply_fractional hf] at hw
  obtain ⟨y, hy, -⟩ := decodeJson_float_eq_ok_iff.mp hw
  simp [Json.toBinary64, ho] at hy

end Shape

/-- Without casting and unions, and where no map stands for a number, what was loaded is dumped, and
its text is loaded again if and only if no float is met in the value; then it is loaded to the same
value. -/
theorem load_dump_strict_iff (o : Settings) (s : Shape) (text : String) (v : Value)
    (ho : o.castDecimal = false) (hs : s.satisfies .encodable = true) (hh : s.height ≤ 126)
    (hu : s.Unionless) (hl : s.NoLiteralKeys) (hd : s.DefaultsDecoded)
    (h : load o s text = .ok v) (hp : s.Plain o v) :
    ∃ t, dump o s v = .ok t ∧
      ((∃ w, load o s t = .ok w) ↔ ∀ x, ¬ Shape.Meets o s v .float (.float x)) ∧
      ∀ w, load o s t = .ok w → w.same v = true := by
  obtain ⟨hc, he⟩ := Shape.satisfies_encodable_iff.mp hs
  obtain ⟨hx, hw⟩ := Shape.exact_of_load hc hd h
  have hk : s.KeysReadable o v := Shape.keysReadable_of_height (Nat.lt_succ_of_le hh) hp.keys
  obtain ⟨c, hencode⟩ := Shape.exists_encodeValue_of_exact hc he hu hl hk hx hw
  have hok : encode o s v = .ok c := encode_eq_ok_iff.mpr ⟨hs, hx.conforms hc, hencode⟩
  have hread : c.Readable := hp.readable (Nat.lt_succ_of_le hh) hencode
  have hload : ∀ w, load o s c.write = .ok w ↔ s.decodeJson o c.withIntegers = .ok w := fun w => by
    rw [load_write_eq_ok_iff hok hread, decode_eq_ok_iff, and_iff_right hs]
  -- decoding goes where encoding went, so a float that is met would have to come back
  have hfloats : ∀ w, load o s c.write = .ok w → ∀ x, ¬ Shape.Meets o s v .float (.float x) :=
    fun w hw x hm => Shape.not_comesBack_float ho (hm.comesBack hu hc (hx.conforms hc) hk
      ⟨c, .text, w, hencode, (hload w).mp hw⟩)
  have hback : (∀ x, ¬ Shape.Meets o s v .float (.float x)) →
      ∃ w, load o s c.write = .ok w ∧ w.same v = true := by
    intro hm
    have hr : Shape.RoundTrips o s v := Shape.roundTrips_of_floats (fun x hx => (hm x hx).elim) hc
      he hu.unambiguous hl hk hx hw
    obtain ⟨w, hw⟩ := hr.returns (p := .text) hencode hread
    exact ⟨w, (hload w).mpr hw.decode, hw.same⟩
  refine ⟨c.write, dump_eq_ok_iff.mpr ⟨c, hok, rfl⟩, ⟨fun hw => ?_, fun hm => ?_⟩, fun w hw => ?_⟩
  · obtain ⟨w, hw⟩ := hw
    exact hfloats w hw
  · obtain ⟨w, hw, -⟩ := hback hm
    exact ⟨w, hw⟩
  · obtain ⟨u, hu, hsame⟩ := hback (hfloats w hw)
    obtain rfl := Except.ok.inj (hw.symm.trans hu)
    exact hsame

theorem load_dump_strict_no_floats :
    ∃ t w, load Settings.standard.strict (.tuple [.decimal, .sequence .list .float]) "[7, []]" =
        .ok (.sequence .tuple [.decimal (.ofInt64 7), .sequence .list []]) ∧
      dump Settings.standard.strict (.tuple [.decimal, .sequence .list .float])
        (.sequence .tuple [.decimal (.ofInt64 7), .sequence .list []]) = .ok t ∧
      load Settings.standard.strict (.tuple [.decimal, .sequence .list .float]) t = .ok w ∧
      w.same (.sequence .tuple [.decimal (.ofInt64 7), .sequence .list []]) = true := by
  have h : load Settings.standard.strict (.tuple [.decimal, .sequence .list .float]) "[7, []]" =
      .ok (.sequence .tuple [.decimal (.ofInt64 7), .sequence .list []]) := by
    cbv
  have hwithin : ∀ t, Shape.Within t (.tuple [.decimal, .sequence .list .float]) →
      t = .tuple [.decimal, .sequence .list .float] ∨ t = .decimal ∨
        t = .sequence .list .float ∨ t = .float := by
    rintro t (_ | ⟨hp, ht⟩)
    · exact .inl rfl
    simp only [Shape.parts, List.mem_cons, List.not_mem_nil, or_false] at hp
    rcases hp with rfl | rfl
    · simp [ht.eq_of_parts_eq_nil rfl]
    · rcases ht with _ | ⟨hp, ht⟩
      · simp
      · obtain rfl := List.mem_singleton.mp hp
        simp [ht.eq_of_parts_eq_nil rfl]
  have hfloat : ∀ x, ¬ Shape.Meets Settings.standard.strict
      (.tuple [.decimal, .sequence .list .float])
      (.sequence .tuple [.decimal (.ofInt64 7), .sequence .list []]) .float (.float x) := by
    rintro x (_ | ⟨hst, ht⟩)
    cases hst with
    | branch hb => cases hb
    | position hm =>
      simp only [List.zip_cons_cons, List.zip_nil_left, List.mem_cons, List.not_mem_nil, or_false,
        Prod.mk.injEq] at hm
      rcases hm with ⟨rfl, rfl⟩ | ⟨rfl, rfl⟩
      · cases (ht.eq_of_parts_eq_nil rfl rfl).1
      · rcases ht with _ | ⟨hst, ht⟩
        cases hst with
        | branch hb => cases hb
        | item hm => cases hm
  have hplain : (Shape.tuple [.decimal, .sequence .list .float]).Plain Settings.standard.strict
      (.sequence .tuple [.decimal (.ofInt64 7), .sequence .list []]) := by
    refine Shape.plain_of_mapless (fun t ht => ?_) (fun t ht => ?_) (by decide) (by cbv)
    all_goals
      rcases hwithin t ht with rfl | rfl | rfl | rfl <;> simp [Shape.names, Shape.mappingParts?]
  obtain ⟨t, ht, hiff, hsame⟩ := load_dump_strict_iff _ _ _ _ rfl (by decide) (by decide)
    (fun t ht => (by rcases hwithin t ht with rfl | rfl | rfl | rfl <;> rfl))
    (fun t ht => (by rcases hwithin t ht with rfl | rfl | rfl | rfl <;> simp))
    (fun t ht => (by rcases hwithin t ht with rfl | rfl | rfl | rfl <;> simp)) h hplain
  obtain ⟨w, hw⟩ := hiff.mpr hfloat
  exact ⟨t, w, h, ht, hw, hsame w hw⟩

theorem load_dump_float_ne_ok {o : Settings} (ho : o.castDecimal = false) {x : Binary64}
    {t : String} {w : Value} (h : dump o .float (.float x) = .ok t) : load o .float t ≠ .ok w := by
  intro hw
  obtain ⟨c, hc, rfl⟩ := dump_eq_ok_iff.mp h
  have hencode := (encode_eq_ok_iff.mp hc).2.2
  have hread : c.Readable := by
    rw [Shape.encodeValue] at hencode
    obtain ⟨n, rfl, -⟩ := Shape.exists_of_encodeFloat hencode
    exact Json.readable_of_scalarText? rfl
  have hdecode := (decode_eq_ok_iff.mp ((load_write_eq_ok_iff hc hread).mp hw)).2
  exact Shape.not_comesBack_float ho ⟨c, .text, w, hencode, hdecode⟩

/-- The integer one is loaded as a float, which is dumped to a text that is not loaded. -/
theorem not_load_dump_one :
    ¬ ∀ (o : Settings) (s : Shape) (text : String) (v : Value), o.castDecimal = false →
      s.satisfies .encodable = true → s.height ≤ 126 → s.Unionless → s.NoLiteralKeys →
      s.DefaultsDecoded → load o s text = .ok v →
      ∃ t w, dump o s v = .ok t ∧ load o s t = .ok w ∧ w.same v = true := by
  intro hall
  have hread : Json.read "1" = .ok (.int 1) := by cbv
  have hload : load Settings.standard.strict .float "1" = .ok (.float (.ofInt 1)) :=
    load_eq_ok_iff.mpr ⟨_, hread, decode_eq_ok_iff.mpr
      ⟨rfl, Shape.decodeJson_float_eq_ok_iff.mpr ⟨_, rfl, rfl⟩⟩⟩
  have hwithin : ∀ t, Shape.Within t .float → t = .float := fun t ht => ht.eq_of_parts_eq_nil rfl
  obtain ⟨t, w, ht, hw, -⟩ := hall _ _ _ _ rfl rfl (by decide)
    (fun t ht => (by rw [hwithin t ht]; rfl)) (fun t ht => (by simp [hwithin t ht]))
    (fun t ht => (by simp [hwithin t ht])) hload
  exact load_dump_float_ne_ok rfl ht hw

end ShapeCodec
