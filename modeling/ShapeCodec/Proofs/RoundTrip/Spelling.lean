import Mathlib
import ShapeCodec.Proofs.RoundTrip.Alike
import ShapeCodec.Proofs.RoundTrip.Depth

/-! # How an integer is spelled

The encoder leaves a decimal without a fraction as a number that is spelled like an integer, and its
text gives it back as an integer. The branch that it was encoded by makes nothing of the difference,
but the branches beside it may: then the value comes back from memory and from its text by different
branches.
-/

namespace ShapeCodec

namespace Shape

variable {o : Settings} {s t : Shape} {ss : List Shape} {v w : Value} {c j : Json}

/-- At every union that is met the encoding spells no integer as a number, or the branches beside
the one that is encoded by are blind to the spelling. -/
def UnionsBlind (o : Settings) (s : Shape) (v : Value) : Prop :=
  ∀ t w c ss b, Meets o s v t w → t.branches? = some ss → ss.find? (conforms o · w) = some b →
    encodeValue o t w = .ok c → c.withIntegers = c ∨ ∀ u ∈ ss, u = b ∨ SpellingBlind o u

theorem UnionsBlind.step (h : UnionsBlind o s v) (hst : Steps o s v t w) : UnionsBlind o t w :=
  fun u x c ss b hm => h u x c ss b (.step hst hm)

theorem Unionless.unionsBlind (h : s.Unionless) : UnionsBlind o s v := by
  intro t w c ss b hm hb
  rcases hm.within_or_eq_none with ht | rfl
  · rw [h t ht] at hb
    cases hb
  · cases hb

theorem spellingBlind_none : SpellingBlind o none :=
  spellingBlind_iff.mpr ⟨⟨nofun, nofun⟩, List.forall_mem_nil _⟩

theorem SpellingBlind.unionsBlind (h : SpellingBlind o s) : UnionsBlind o s v := by
  intro t w c ss b hm hb _ _
  refine .inr fun u hu => .inr ?_
  rcases hm.within_or_eq_none with ht | rfl
  · have hblind : SpellingBlind o t := fun x hx => h x (hx.trans ht)
    rcases mem_parts_of_branches? hb hu with hu | rfl
    · exact (spellingBlind_iff.mp hblind).2 u hu
    · exact spellingBlind_none
  · cases hb

theorem withIntegers_encodeFloat {x : Binary64} (h : encodeFloat x = .ok c) :
    c.withIntegers = c := by
  obtain ⟨n, rfl, hf, -⟩ := exists_of_encodeFloat h
  exact Passage.apply_fractional (p := .text) hf

theorem withIntegers_encodeLiteral {l : Literal} (h : encodeLiteral l = .ok c) :
    c.withIntegers = c := by
  cases l with
  | float x => exact withIntegers_encodeFloat h
  | _ =>
    cases h
    rfl

/-- An encoding decodes alike when its unions are blind to the spelling. -/
theorem alike_encodeValue (hc : s.checkable = true) (hv : s.conforms o v = true)
    (hu : UnionsBlind o s v) (h : encodeValue o s v = .ok c) : Alike o s c := by
  induction s, v using inductionSteps o generalizing c with
  | step s v ih =>
  have htidy : c.Tidy := tidy_encodeValue hc hv h
  have part : ∀ {t w j}, Steps o s v t w → encodeValue o t w = .ok j → Alike o t j :=
    fun hst => ih _ _ hst (hst.checkable hc) (hst.conforms hc hv) (hu.step hst)
  have branch : ∀ {ss}, s.branches? = some ss → Alike o s c := by
    intro ss hb
    obtain ⟨b, hfind⟩ := exists_branch hb hv
    rcases hu s v c ss b .here hb hfind h with he | hblind
    · exact alike_of_eq he
    · -- the branch that was encoded by decodes alike by induction, the others are blind
      refine alike_branches hb fun u hm => ?_
      rcases hblind u hm with rfl | hs
      · exact part (.branch hb hfind) (encodeValue_of_branches? hb hfind ▸ h)
      · exact alike_of_spellingBlind hs htidy
  cases s with
  | any => cases h
  | int => exact alike_int htidy
  | decimal => exact alike_decimal htidy
  | float =>
    rcases conforms_float_iff.mp hv with ⟨i, rfl⟩ | ⟨x, rfl⟩ | ⟨d, rfl, ho⟩
    · obtain rfl : Json.int i = c := by simpa [encodeValue] using h
      exact alike_of_eq rfl
    · rw [encodeValue] at h
      exact alike_of_eq (withIntegers_encodeFloat h)
    · exact alike_float ho htidy
  | sequence k s =>
    obtain ⟨_, _, js, rfl, rfl, hj⟩ := encodeValue_sequence_eq_ok_iff.mp h
    refine alike_sequence fun xs hx x hm => ?_
    obtain rfl := Json.list.inj hx
    obtain ⟨y, hy, he⟩ := hj.exists_of_mem_right hm
    exact part (.item hy) he
  | tuple ss =>
    obtain ⟨_, js, rfl, -, rfl, hj⟩ := encodeValue_tuple_eq_ok_iff.mp h
    refine alike_tuple fun xs hx q hm => ?_
    obtain rfl := Json.list.inj hx
    obtain ⟨y, hy, he⟩ := hj.exists_mem_zip_right hm
    exact part (.position hy) he
  | mapping k key value =>
    obtain ⟨_, _, ps, rfl, rfl, hp, -⟩ := encodeValue_mapping_eq_ok_iff.mp h
    refine alike_mapping fun es hx e hm => ?_
    obtain rfl := Json.map.inj hx
    obtain ⟨y, hy, -, he⟩ := hp.exists_of_mem_right hm
    exact part (.value hy) he
  | optional s => exact branch rfl
  | union ss => exact branch rfl
  | literal ls =>
    obtain ⟨l, -, hl⟩ := encodeValue_literal_eq_ok_iff.mp h
    exact alike_of_eq (withIntegers_encodeLiteral hl)
  | record name fs =>
    obtain ⟨_, _, ps, rfl, rfl, hp⟩ := encodeValue_record_eq_ok_iff.mp h
    refine alike_record fun given hg q hq x hx => ?_
    obtain rfl := hg.unique (lays_laidOut _ (nodup_of_checkable_record hc)
      (names_of_conforms hv hp))
    rw [List.zip_map_right] at hq
    obtain ⟨⟨f, p⟩, hm, rfl⟩ := List.mem_map.mp hq
    obtain rfl := Option.some.inj hx
    obtain ⟨y, hy, -, he⟩ := hp.exists_mem_zip_right hm
    exact part (.field hy) he
  | typedDict name ks =>
    obtain ⟨_, es, ps, rfl, rfl, hp⟩ := encodeValue_typedDict_eq_ok_iff.mp h
    refine alike_typedDict fun es' hx e hm k hk => ?_
    obtain rfl := Json.map.inj hx
    obtain ⟨q, hq, hn, he⟩ := hp.exists_of_mem_right hm
    have hfind := List.find?_of_nodup_map (nodup_of_checkable_typedDict hc) (mem_declared.mp hq).1
    obtain rfl := Option.some.inj ((hn ▸ hfind).symm.trans hk)
    exact part (.entry hq) he
  | _ =>
    refine alike_of_eq ?_
    rw [encodeValue.eq_def] at h
    dsimp only at h
    repeat' split at h
    all_goals first
      | (cases h; rfl)
      | cases h

end Shape

/-- From memory and from its text an encoding decodes to the same value or not at all, when the
unions that are met are blind to how an integer is spelled. -/
theorem decode_iff_load_dump (o : Settings) (s : Shape) (v : Value) (j : Json)
    (h : encode o s v = .ok j) (hr : j.Readable) (hu : s.UnionsBlind o v) :
    ∃ text, dump o s v = .ok text ∧ ∀ w, decode o s j = .ok w ↔ load o s text = .ok w := by
  obtain ⟨hs, hv, hj⟩ := encode_eq_ok_iff.mp h
  have hc := (Shape.satisfies_encodable_iff.mp hs).1
  refine ⟨j.write, dump_eq_ok_iff.mpr ⟨j, h, rfl⟩, fun w => ?_⟩
  rw [load_write_eq_ok_iff h hr, decode_eq_ok_iff, decode_eq_ok_iff,
    Shape.alike_encodeValue hc hv hu hj w]

theorem decode_iff_load_dump_decimal :
    ∃ j text, encode .standard (.union [.str, .float, .decimal]) (.decimal (.ofInt64 1)) = .ok j ∧
      dump .standard (.union [.str, .float, .decimal]) (.decimal (.ofInt64 1)) = .ok text ∧
      ∀ w, decode .standard (.union [.str, .float, .decimal]) j = .ok w ↔
        load .standard (.union [.str, .float, .decimal]) text = .ok w := by
  have h : encode .standard (.union [.str, .float, .decimal]) (.decimal (.ofInt64 1)) =
      .ok (.number (.ofInt 1)) := by
    have hfind : [Shape.str, .float, .decimal].find?
        (Shape.conforms .standard · (.decimal (.ofInt64 1))) = some .float := by cbv
    refine encode_eq_ok_iff.mpr ⟨rfl, by cbv, ?_⟩
    rw [Shape.encodeValue_of_branches? rfl hfind, Shape.encodeValue, Decimal.toNumeral_ofInt64]
    rfl
  have hblind : Shape.SpellingBlind .standard (.union [.str, .float, .decimal]) := by
    refine Shape.spellingBlind_iff.mpr ⟨by simp, fun p hp => ?_⟩
    simp only [Shape.parts, List.mem_cons, List.not_mem_nil, or_false] at hp
    rcases hp with rfl | rfl | rfl <;>
      exact Shape.spellingBlind_iff.mpr ⟨⟨fun _ => rfl, by simp⟩, List.forall_mem_nil _⟩
  obtain ⟨text, ht, hw⟩ := decode_iff_load_dump _ _ _ _ h (Json.readable_of_scalarText? rfl)
    hblind.unionsBlind
  exact ⟨_, text, h, ht, hw⟩

/-- Beside a literal of the same number a decimal is encoded as a float is. It comes back from
memory as a float and from its text as the literal. -/
theorem exists_load_ne_decode {o : Settings} (ho : o.castDecimal = true) (i : Int64) :
    encode o (.union [.literal [.int i], .float]) (.decimal (.ofInt64 i)) =
        .ok (.number (.ofInt i.toInt)) ∧
      decode o (.union [.literal [.int i], .float]) (.number (.ofInt i.toInt)) =
        .ok (.float (.ofInt i.toInt)) ∧
      ∃ text, dump o (.union [.literal [.int i], .float]) (.decimal (.ofInt64 i)) = .ok text ∧
        load o (.union [.literal [.int i], .float]) text = .ok (.int i) := by
  have hs : (Shape.union [.literal [.int i], .float]).satisfies .encodable = true := rfl
  have hliteral : (Shape.literal [.int i]).conforms o (.decimal (.ofInt64 i)) = false := by
    simp [Shape.conforms, Literal.fits, Literal.toValue, Value.same]
  have hfloat : Shape.float.conforms o (.decimal (.ofInt64 i)) = true :=
    Shape.conforms_float_iff.mpr (.inr (.inr ⟨_, rfl, ho⟩))
  have hj : encode o (.union [.literal [.int i], .float]) (.decimal (.ofInt64 i)) =
      .ok (.number (.ofInt i.toInt)) := by
    refine encode_eq_ok_iff.mpr ⟨hs, Shape.conforms_union_iff.mpr ⟨.float, by simp, hfloat⟩, ?_⟩
    rw [Shape.encodeValue_of_branches? (t := .float) rfl (by simp [hliteral, hfloat]),
      Shape.encodeValue, Decimal.toNumeral_ofInt64]
  have hread : Json.read (Json.number (.ofInt i.toInt)).write = .ok (.int i) := by
    rw [Json.read_write_of_scalarText? rfl, Json.withIntegers, Json.ofNumeral,
      Numeral.toInt64?_ofInt]
  refine ⟨hj, decode_eq_ok_iff.mpr ⟨hs, ?_⟩, _, dump_eq_ok_iff.mpr ⟨_, hj, rfl⟩,
    load_eq_ok_iff.mpr ⟨_, hread, decode_eq_ok_iff.mpr ⟨hs, ?_⟩⟩⟩
  · refine Shape.decodeJson_union_eq_ok_iff.mpr ⟨[_], .float, [], rfl, ?_, ?_⟩
    · refine List.forall_mem_singleton.mpr fun w hw => ?_
      obtain ⟨l, hl, -⟩ := Shape.decodeJson_literal_eq_ok_iff.mp hw
      cases hl
    · refine Shape.decodeJson_float_eq_ok_iff.mpr ⟨_, ?_, rfl⟩
      simp [Json.toBinary64, ho, Numeral.toBinary64?_ofInt]
  · refine Shape.decodeJson_union_eq_ok_iff.mpr ⟨[], _, [.float], rfl, List.forall_mem_nil _, ?_⟩
    exact Shape.decodeJson_literal_eq_ok_iff.mpr ⟨.int i, by simp [Literal.accepts], rfl⟩

/-- One as a decimal, beside a literal one, comes back as two values that are not the same. -/
theorem load_one_ne_decode_one :
    ∃ j text w u, encode .standard (.union [.literal [.int 1], .float]) (.decimal (.ofInt64 1)) =
        .ok j ∧ j.depth ≤ Reading.maxDepth ∧
      decode .standard (.union [.literal [.int 1], .float]) j = .ok w ∧
      dump .standard (.union [.literal [.int 1], .float]) (.decimal (.ofInt64 1)) = .ok text ∧
      load .standard (.union [.literal [.int 1], .float]) text = .ok u ∧ w.same u = false := by
  obtain ⟨hj, hw, text, ht, hu⟩ := exists_load_ne_decode (o := .standard) rfl 1
  exact ⟨_, text, _, _, hj, Nat.zero_le _, hw, ht, hu, by simp [Value.same]⟩

end ShapeCodec
