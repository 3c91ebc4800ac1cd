import ShapeCodec.Proofs.RoundTrip.Branches
import ShapeCodec.Proofs.RoundTrip.Mappings

/-! # Direct keys

A direct key is written as the text of its scalar, and read first as a scalar and then as a string.
That gives the key back, but for the text of a string literal that is read as another literal of the
list. No text is the JSON text of itself as a string, so that such a key never comes back.
-/

namespace ShapeCodec

namespace Grammar

variable {c : Char} {cs s rest : List Char} {n : Nat} {j : Json}

theorem UnitText.length_lt (h : UnitText cs n rest) : rest.length < cs.length := by
  cases h
  simp only [List.length_cons]
  omega

theorem CharText.length_lt (h : CharText cs c rest) : rest.length < cs.length := by
  cases h with
  | plain => exact Nat.lt_succ_self _
  | letter =>
    simp only [List.length_cons]
    omega
  | unit hc =>
    have := hc.length_lt
    simp only [List.length_cons]
    omega
  | pair hl ht =>
    have := hl.length_lt
    have := ht.length_lt
    simp only [List.length_cons] at *
    omega

theorem StringText.length_lt (h : StringText cs s rest) : s.length + rest.length < cs.length := by
  induction h with
  | close => simp
  | cons hc _ ih =>
    have := hc.length_lt
    simp only [List.length_cons]
    omega

end Grammar

/-- No text is the JSON text of itself as a string. -/
theorem Json.read_ne_str (t : String) : Json.read t ≠ .ok (.str t) := by
  intro h
  obtain ⟨j, ⟨hb, hv, -⟩, -, -, hr⟩ := Json.spelledBy_of_read h
  have hn : ∀ n, Json.ofNumeral n ≠ .str t := by
    intro n
    unfold ofNumeral
    split <;> simp
  have hj : j = .str t := Json.eq_str_of_resolve hn hr
  cases hv with
  | str hs =>
    obtain rfl := Json.str.inj hj
    have := hb.suffix.length_le
    have := hs.length_lt
    simp only [String.toList_ofList, List.length_cons] at *
    omega
  | _ => cases hj

namespace Literal

variable {l : Literal} {v : Value} {j : Json} {t : String}

theorem fits_str_iff : l.fits (.str t) = true ↔ l = .str t := by
  cases l <;> simp [fits, toValue, Value.same]

theorem eq_str_of_str_fits (h : (str t).fits v = true) : v = .str t := by
  cases v <;> simp_all [fits, toValue, Value.same]

theorem accepts_str_iff : l.accepts (.str t) = true ↔ l = .str t := by
  cases l <;> simp [accepts]

theorem eq_str_of_str_accepts (h : (str t).accepts j = true) : j = .str t := by
  cases j <;> simp_all [accepts]

end Literal

namespace Shape

variable {o : Settings} {key : Shape} {k : Value} {j : Json} {t : String} {ls : List Literal}

/-- The text of a string literal is read as a scalar that some literal of the list accepts. -/
def Misread (key : Shape) (k : Value) : Prop :=
  ∃ ls t j, key = literal ls ∧ k = .str t ∧ Json.read t = .ok j ∧ j.scalarText?.isSome = true ∧
    ∃ l ∈ ls, l.accepts j = true

/-! ## String literals -/

theorem decodeJson_literal_str (hl : .str t ∈ ls) :
    decodeJson o (literal ls) (.str t) = .ok (.str t) := by
  obtain ⟨l, hf⟩ : ∃ l, ls.find? (·.accepts (.str t)) = some l :=
    Option.isSome_iff_exists.mp (List.find?_isSome.mpr ⟨_, hl, Literal.accepts_str_iff.mpr rfl⟩)
  obtain rfl := Literal.accepts_str_iff.mp (by simpa using List.find?_some hf)
  exact decodeJson_literal_eq_ok_iff.mpr ⟨_, hf, rfl⟩

theorem encodeValue_literal_str (h : (literal ls).Exact (.str t)) :
    .str t ∈ ls ∧ encodeValue o (literal ls) (.str t) = .ok (.str t) := by
  cases h with
  | literal hl hf =>
    obtain rfl := Literal.fits_str_iff.mp hf
    obtain ⟨m, hm⟩ : ∃ m, ls.find? (·.fits (.str t)) = some m :=
      Option.isSome_iff_exists.mp (List.find?_isSome.mpr ⟨_, hl, hf⟩)
    obtain rfl := Literal.fits_str_iff.mp (by simpa using List.find?_some hm)
    exact ⟨hl, encodeValue_literal_eq_ok_iff.mpr ⟨_, hm, rfl⟩⟩

theorem decodeKeyText_literal_str (hl : .str t ∈ ls) (hn : ¬ Misread (literal ls) (.str t)) :
    decodeKeyText (literal ls) (decodeJson o (literal ls)) t = .ok (.str t) := by
  have hrefused : ∀ j, Json.read t = .ok j → j.scalarText?.isSome = true →
      (decodeJson o (literal ls) j).toOption = Option.none := by
    intro j hj hs
    refine toOption_eq_none_iff.mpr fun v hv => ?_
    obtain ⟨l, hf, -⟩ := decodeJson_literal_eq_ok_iff.mp hv
    exact hn ⟨ls, t, j, rfl, rfl, hj, hs, l, List.mem_of_find?_eq_some hf,
      by simpa using List.find?_some hf⟩
  have hstr : (decodeJson o (literal ls) (.str t)).toOption = some (.str t) :=
    toOption_eq_some_iff.mpr (decodeJson_literal_str hl)
  refine firstDecoded_eq_ok_iff.mpr ?_
  cases hr : Json.read t with
  | error fault => simp [keyCandidates, hr, hstr]
  | ok j =>
    by_cases hs : j.scalarText?.isSome = true
    · simp [keyCandidates, hr, hs, hstr, hrefused j hr hs]
    · simp [keyCandidates, hr, hs, hstr]

theorem exists_decodeKeyText_of_misread (h : Misread (literal ls) (.str t)) :
    ∃ w, decodeKeyText (literal ls) (decodeJson o (literal ls)) t = .ok w ∧
      w.same (.str t) = false := by
  obtain ⟨_, _, j, ⟨⟩, ⟨⟩, hj, hs, l, hl, ha⟩ := h
  obtain ⟨m, hm⟩ : ∃ m, ls.find? (·.accepts j) = some m :=
    Option.isSome_iff_exists.mp (List.find?_isSome.mpr ⟨l, hl, ha⟩)
  refine ⟨m.toValue, decodeKeyText_of_read rfl (by simp) (by simp) hj hs
    (decodeJson_literal_eq_ok_iff.mpr ⟨m, hm, rfl⟩), ?_⟩
  rw [Bool.eq_false_iff]
  intro hsame
  obtain rfl : m = .str t := Literal.fits_str_iff.mp hsame
  obtain rfl : j = .str t := Literal.eq_str_of_str_accepts (by simpa using List.find?_some hm)
  exact Json.read_ne_str t hj

/-! ## Keys -/

theorem eq_str_of_encodeLiteral {l : Literal} (h : encodeLiteral l = .ok (.str t)) :
    l = .str t := by
  cases l with
  | float x =>
    obtain ⟨n, hn, -⟩ := exists_of_encodeFloat h
    cases hn
  | str s => rw [Json.str.inj (Except.ok.inj h)]
  | _ => cases h

theorem keyRoundTrips_of_not_literal (ho : o.castDecimal = true) (hf : key.keyForm = .direct)
    (hl : ∀ ls, key ≠ literal ls) (hx : key.Exact k) : KeyRoundTrips o key k := by
  have key_of : RoundTrips o key k → KeyRoundTrips o key k := keyRoundTrips hl hx (by simp [hf])
  cases hx with
  | bool b => exact key_of (roundTrips_bool b)
  | int i => exact key_of (roundTrips_int i)
  | float hx => exact key_of (roundTrips_float ho hx)
  | str t => exact key_of (roundTrips_str t)
  | none => exact key_of roundTrips_none
  | enum hm => exact key_of (roundTrips_enum hm)
  | literal => exact (hl _ rfl).elim
  | _ => cases hf

theorem keyRoundTrips_literal (hx : (literal ls).Exact k) (he : (literal ls).encodable = true)
    (hk : ∀ t, k ≠ .str t) : KeyRoundTrips o (literal ls) k := by
  cases hx with
  | @literal _ l _ hl hf =>
    have h : RoundTrips o (literal ls) k := roundTrips_literal he hl hf
      (Value.wellFormed_of_parts_eq_nil (parts_eq_nil_of_fits hf))
    obtain ⟨c, hc, -⟩ := id h
    obtain ⟨m, hm, hmc⟩ := encodeValue_literal_eq_ok_iff.mp hc
    refine keyRoundTrips_of_plain rfl (by simp) (by simp) (isSome_scalarText_of_encodeLiteral hmc)
      ?_ hc h
    rintro t rfl
    obtain rfl := eq_str_of_encodeLiteral hmc
    exact hk t (Literal.eq_str_of_str_fits (by simpa using List.find?_some hm))

/-- A direct key has a text, and this stands for the key itself unless it is misread. -/
theorem exists_decodeKeyText_of_direct (ho : o.castDecimal = true) (hf : key.keyForm = .direct)
    (he : key.encodable = true) (hx : key.Exact k) :
    ∃ t w, keyTextOf o key k = .ok t ∧ decodeKeyText key (decodeJson o key) t = .ok w ∧
      (w.same k = true ↔ ¬ Misread key k) := by
  have returns : KeyRoundTrips o key k → ¬ Misread key k → ∃ t w, keyTextOf o key k = .ok t ∧
      decodeKeyText key (decodeJson o key) t = .ok w ∧ (w.same k = true ↔ ¬ Misread key k) :=
    fun ⟨t, w, ht, hr⟩ hn => ⟨t, w, ht, hr.decode, iff_of_true hr.same hn⟩
  by_cases hl : ∃ ls, key = literal ls
  · obtain ⟨ls, rfl⟩ := hl
    by_cases hk : ∃ t, k = .str t
    · obtain ⟨t, rfl⟩ := hk
      obtain ⟨hmem, hc⟩ := encodeValue_literal_str hx
      have ht : keyTextOf o (literal ls) (.str t) = .ok t := bind_eq_ok_iff.mpr ⟨_, hc, rfl⟩
      by_cases hm : Misread (literal ls) (.str t)
      · obtain ⟨w, hw, hs⟩ := exists_decodeKeyText_of_misread hm
        exact ⟨t, w, ht, hw, by simp [hs, hm]⟩
      · exact ⟨t, _, ht, decodeKeyText_literal_str hmem hm, by simp [hm]⟩
    · refine returns (keyRoundTrips_literal hx he (not_exists.mp hk)) ?_
      rintro ⟨_, t, _, _, hk', -⟩
      exact hk ⟨t, hk'⟩
  · refine returns (keyRoundTrips_of_not_literal ho hf (not_exists.mp hl) hx) ?_
    rintro ⟨ls, _, _, hl', -⟩
    exact hl ⟨ls, hl'⟩

end Shape

/-- The only entry of a map with a direct key comes back with that key, unless the key is a string
literal whose text is read as another one of the list; and then it never does. -/
theorem decode_encode_only_entry {o : Settings} {kind : MappingKind} {l : MapKind}
    {key value : Shape} {k x x' : Value} {c : Json} (ho : o.castDecimal = true)
    (hs : ((Shape.mapping kind key value).judge .encodable).holds = true)
    (hf : key.keyForm = .direct) (hk : key.Exact k) (hl : kind.takes l = true)
    (hc : encode o value x = .ok c) (hx : decode o value c = .ok x') :
    ∃ j k', encode o (.mapping kind key value) (.map l [(k, x)]) = .ok j ∧
      decode o (.mapping kind key value) j = .ok (.map kind.built [(k', x')]) ∧
      (k'.same k = true ↔ ¬ key.Misread k) := by
  obtain ⟨hcheck, hencode⟩ := Shape.satisfies_encodable_iff.mp hs
  have hkc : key.checkable = true := Shape.checkable_of_mem_parts hcheck (by simp)
  have hke : key.encodable = true := Shape.encodable_of_mem_parts hencode (by simp)
  obtain ⟨-, hxv, hc⟩ := encode_eq_ok_iff.mp hc
  obtain ⟨-, hx⟩ := decode_eq_ok_iff.mp hx
  obtain ⟨t, k', ht, hd, hsame⟩ := Shape.exists_decodeKeyText_of_direct ho hf hke hk
  refine ⟨.map [(t, c)], k', encode_eq_ok_iff.mpr ⟨hs, ?_, ?_⟩, decode_eq_ok_iff.mpr ⟨hs, ?_⟩,
    hsame⟩
  · exact Shape.conforms_mapping_iff.mpr ⟨l, _, rfl, hl,
      List.forall_mem_singleton.mpr ⟨hk.conforms hkc, hxv⟩⟩
  · exact Shape.encodeValue_mapping_eq_ok_iff.mpr ⟨l, _, _, rfl, rfl, .cons ⟨ht, hc⟩ .nil,
      List.pairwise_singleton _ _⟩
  · exact Shape.decodeJson_mapping_eq_ok_iff.mpr ⟨_, _, rfl, .cons ⟨hd, hx⟩ .nil,
      List.pairwise_singleton _ _, rfl⟩

theorem decode_encode_only_entry_word :
    ∃ j k', encode .standard (.mapping .dict (.literal [.int 1, .str "true"]) .int)
        (.map .dict [(.str "true", .int 0)]) = .ok j ∧
      decode .standard (.mapping .dict (.literal [.int 1, .str "true"]) .int) j =
        .ok (.map .dict [(k', .int 0)]) ∧
      (k'.same (.str "true") = true ↔
        ¬ (Shape.literal [.int 1, .str "true"]).Misread (.str "true")) ∧
      ¬ (Shape.literal [.int 1, .str "true"]).Misread (.str "true") := by
  have hk : (Shape.literal [.int 1, .str "true"]).Exact (.str "true") :=
    .literal (l := .str "true") (by simp) (Literal.fits_str_iff.mpr rfl)
  have hm : ¬ (Shape.literal [.int 1, .str "true"]).Misread (.str "true") := by
    rintro ⟨_, _, j, ⟨⟩, ⟨⟩, hj, -, l, hl, ha⟩
    have hread : Json.read "true" = .ok (.bool true) := by cbv
    obtain rfl := Except.ok.inj (hread.symm.trans hj)
    simp only [List.mem_cons, List.not_mem_nil, or_false] at hl
    rcases hl with rfl | rfl <;> cases ha
  have hc : encode .standard .int (.int 0) = .ok (.int 0) := by cbv
  have hx : decode .standard .int (.int 0) = .ok (.int 0) := by cbv
  have hl : MappingKind.dict.takes .dict = true := rfl
  obtain ⟨j, k', hj, hd, hsame⟩ := decode_encode_only_entry rfl (by decide) rfl hk hl hc hx
  exact ⟨j, k', hj, hd, hsame, hm⟩

/-- Beside the literal one the text "1" comes back as the number, although both are literals of the
list and each of them is an exact key. -/
theorem decode_literal_text_as_number :
    ((Shape.mapping .dict (.literal [.str "1", .int 1]) .int).judge .encodable).holds = true ∧
    (Shape.literal [.str "1", .int 1]).keyForm = .direct ∧
    (Shape.literal [.str "1", .int 1]).Exact (.str "1") ∧
    encode .standard .int (.int 0) = .ok (.int 0) ∧ decode .standard .int (.int 0) = .ok (.int 0) ∧
    encode .standard (.mapping .dict (.literal [.str "1", .int 1]) .int)
        (.map .dict [(.str "1", .int 0)]) = .ok (.map [("1", .int 0)]) ∧
    decode .standard (.mapping .dict (.literal [.str "1", .int 1]) .int) (.map [("1", .int 0)]) =
        .ok (.map .dict [(.int 1, .int 0)]) ∧
    (Value.int 1).same (.str "1") = false := by
  have hk : (Shape.literal [.str "1", .int 1]).Exact (.str "1") :=
    .literal (l := .str "1") (by simp) (Literal.fits_str_iff.mpr rfl)
  exact ⟨by decide, rfl, hk, by cbv, by cbv, by cbv, by cbv, by simp [Value.same]⟩

end ShapeCodec
