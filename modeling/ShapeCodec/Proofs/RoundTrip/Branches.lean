import ShapeCodec.Proofs.RoundTrip.Passage

/-! # Round trips of literals and unions

A literal comes back as the first one that takes its encoding, which is the same value. A union
comes back through the branch that it went through: no earlier branch takes an instance of that one
or its encoding.
-/

namespace ShapeCodec

namespace Shape

variable {o : Settings} {s t : Shape} {ss : List Shape} {v : Value} {c j : Json}

/-! ## Literals -/

theorem accepts_encodeLiteral {l : Literal} (h : encodeLiteral l = .ok c) (p : Passage)
    (m : Literal) : m.accepts (p.apply c) = m.toValue.same l.toValue := by
  cases l with
  | float x =>
    rw [encodeLiteral] at h
    obtain ⟨n, rfl, hf, hb⟩ := exists_of_encodeFloat h
    rw [Passage.apply_fractional hf]
    cases m with
    | float y =>
      have hs := Value.same_comm (a := .float x) (b := .float y)
        (Value.wellFormed_of_parts_eq_nil rfl) (Value.wellFormed_of_parts_eq_nil rfl)
      simpa only [Literal.accepts, hb, Option.any_some, Literal.toValue, Value.same] using hs
    | _ => simp only [Literal.accepts, Literal.toValue, Value.same]
  | _ =>
    cases h
    cases p <;> cases m <;>
      simp only [Passage.apply, Json.withIntegers, Literal.accepts, Literal.toValue, Value.same]

theorem roundTrips_literal {ls : List Literal} {l : Literal}
    (he : (literal ls).encodable = true) (hl : l ∈ ls) (hf : l.fits v = true)
    (hw : v.WellFormed) : RoundTrips o (literal ls) v := by
  have hwl : ∀ m : Literal, m.toValue.WellFormed := fun m =>
    Value.wellFormed_of_parts_eq_nil (parts_toValue m)
  obtain ⟨m, hm⟩ : ∃ m, ls.find? (·.fits v) = some m :=
    Option.isSome_iff_exists.mp (List.find?_isSome.mpr ⟨l, hl, hf⟩)
  have hmv : m.fits v = true := by simpa using List.find?_some hm
  obtain ⟨c, hc⟩ : ∃ c, encodeLiteral m = .ok c := by
    rw [Shape.encodable, List.all_eq_true] at he
    cases hc : encodeLiteral m with
    | ok c => exact ⟨c, rfl⟩
    | error r => exact (encodeLiteral_ne_error (he m (List.mem_of_find?_eq_some hm)) hc).elim
  refine ⟨c, encodeValue_literal_eq_ok_iff.mpr ⟨m, hm, hc⟩,
    Json.uniqueKeys_of_parts_eq_nil
      (Json.scalar_of_scalarText? (isSome_scalarText_of_encodeLiteral hc)).1, fun p _ => ?_⟩
  obtain ⟨n, hn⟩ : ∃ n, ls.find? (·.accepts (p.apply c)) = some n := by
    refine Option.isSome_iff_exists.mp (List.find?_isSome.mpr
      ⟨m, List.mem_of_find?_eq_some hm, ?_⟩)
    rw [accepts_encodeLiteral hc]
    exact Value.same_refl _
  have hnm : n.toValue.same m.toValue = true := by
    have hn : n.accepts (p.apply c) = true := by simpa using List.find?_some hn
    rwa [accepts_encodeLiteral hc] at hn
  have hnv : n.toValue.same v = true := Value.same_trans (hwl n) (hwl m) hw hnm hmv
  -- the literals that fit the value are those that fit the one that comes back
  have hfits : (fun k : Literal => k.fits n.toValue) = fun k => k.fits v := funext fun k =>
    Value.same_congr (hwl k) (hwl k) hw (hwl n) (Value.same_refl _) hnv
  exact ⟨n.toValue, decodeJson_literal_eq_ok_iff.mpr ⟨n, hn, rfl⟩, hnv,
    .literal (List.mem_of_find?_eq_some hn) (Value.same_refl _), hwl n,
    encodeValue_literal_eq_ok_iff.mpr ⟨m, hfits ▸ hm, hc⟩⟩

/-! ## Unions -/

/-- An exact instance of a branch is taken by that branch when no earlier one overlaps with it. -/
theorem find?_of_exact (hs : ∀ u ∈ ss, u.satisfies .encodable = true)
    (hu : ss.Pairwise fun a b => ¬ Overlaps o a b) (ht : t ∈ ss) (hx : t.Exact v)
    (hw : v.WellFormed) : ss.find? (conforms o · v) = some t := by
  obtain ⟨pre, post, rfl⟩ := List.append_of_mem ht
  have hpre : pre.find? (conforms o · v) = Option.none := List.find?_eq_none.mpr fun a ha hc =>
    (List.pairwise_append.mp hu).2.2 a ha t List.mem_cons_self ⟨v, hx, hw, .inl hc⟩
  have hv : t.conforms o v = true := hx.conforms (satisfies_encodable_iff.mp (hs t ht)).1
  rw [List.find?_append, hpre, Option.none_or]
  exact List.find?_cons_of_pos hv

/-- A value comes back through its branch when no earlier branch overlaps with that. -/
theorem roundTrips_branch (hb : s.branches? = some ss)
    (hs : ∀ u ∈ ss, u.satisfies .encodable = true)
    (hu : ss.Pairwise fun a b => ¬ Overlaps o a b) (ht : t ∈ ss)
    (hts : ∀ w, t.Exact w → s.Exact w) (hx : t.Exact v) (hw : v.WellFormed)
    (h : RoundTrips o t v) : RoundTrips o s v := by
  obtain ⟨c, hc, hk, hr⟩ := h
  have hencode : ∀ w, t.Exact w → w.WellFormed → encodeValue o s w = encodeValue o t w :=
    fun w hx hw => encodeValue_of_branches? hb (find?_of_exact hs hu ht hx hw)
  refine ⟨c, (hencode v hx hw).trans hc, hk, fun p hp => ?_⟩
  obtain ⟨w, hr⟩ := hr p hp
  obtain ⟨pre, post, rfl⟩ := List.append_of_mem ht
  have hj : encode o t v = .ok c := encode_eq_ok_iff.mpr
    ⟨hs t ht, hx.conforms (satisfies_encodable_iff.mp (hs t ht)).1, hc⟩
  have hpre : ∀ a ∈ pre, ∀ u, decodeJson o a (p.apply c) ≠ .ok u := by
    intro a ha u hd
    have hd : decode o a (p.apply c) = .ok u :=
      decode_eq_ok_iff.mpr ⟨hs a (List.mem_append_left _ ha), hd⟩
    refine (List.pairwise_append.mp hu).2.2 a ha t List.mem_cons_self
      ⟨v, hx, hw, .inr ⟨c, hj, ?_⟩⟩
    cases p with
    | memory => exact .inl ⟨u, hd⟩
    | text => exact .inr ⟨_, u, Json.read_write hk hp, hd⟩
  exact ⟨w, decodeJson_of_branches? hb hpre hr.decode, hr.same, hts w hr.exact, hr.wellFormed,
    (hencode w hr.exact hr.wellFormed).trans hr.encode⟩

end Shape

end ShapeCodec
