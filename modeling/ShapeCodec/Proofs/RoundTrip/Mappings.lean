import ShapeCodec.Proofs.RoundTrip.Collections

/-! # Round trips of mappings

The key of a mapping makes the round trip through its text. A plain scalar is its own text, and
every other key is read from the JSON text that it was written as. Keys with one text come back as
one key, so that keys that differ have texts that differ.
-/

namespace ShapeCodec

theorem Json.scalarText?_eq_write {c : Json} (hc : c.scalarText?.isSome = true)
    (hs : ∀ s, c ≠ .str s) :
    c.scalarText? = some c.write ∧ c.withIntegers.scalarText?.isSome = true := by
  cases c with
  | null => exact ⟨rfl, rfl⟩
  | bool b => cases b <;> exact ⟨rfl, rfl⟩
  | int i => exact ⟨rfl, rfl⟩
  | number n =>
    refine ⟨rfl, ?_⟩
    rw [withIntegers, ofNumeral]
    split <;> rfl
  | str s => exact (hs s rfl).elim
  | list xs => cases hc
  | map es => cases hc

namespace Shape

variable {o : Settings} {key value : Shape} {k w : Value} {c j : Json} {t : String}

/-- A key that its text stands for is as good as the one that was encoded. -/
structure KeyReturns (o : Settings) (key : Shape) (k : Value) (t : String) (w : Value) :
    Prop where
  decode : decodeKeyText key (decodeJson o key) t = .ok w
  same : w.same k = true
  exact : key.Exact w
  wellFormed : w.WellFormed
  encode : keyTextOf o key w = .ok t

def KeyRoundTrips (o : Settings) (key : Shape) (k : Value) : Prop :=
  ∃ t w, keyTextOf o key k = .ok t ∧ KeyReturns o key k t w

theorem keyRoundTrips_of_returns (hk : encodeValue o key k = .ok c)
    (ht : ∀ x, keyText key x c = .ok t) (h : Returns o key k c j w)
    (hd : decodeKeyText key (decodeJson o key) t = .ok w) : KeyRoundTrips o key k :=
  ⟨t, w, bind_eq_ok_iff.mpr ⟨c, hk, ht k⟩, hd, h.same, h.exact, h.wellFormed,
    bind_eq_ok_iff.mpr ⟨c, h.encode, ht w⟩⟩

theorem decodeKeyText_of_read (hf : key.keyForm = .direct) (hs : key ≠ str)
    (he : ∀ n ms, key ≠ enum n ms) (hr : Json.read t = .ok j)
    (hj : j.scalarText?.isSome = true) (hd : decodeJson o key j = .ok w) :
    decodeKeyText key (decodeJson o key) t = .ok w := by
  have hc : keyCandidates key t = j :: [.str t] := by
    cases key with
    | str => exact (hs rfl).elim
    | enum n ms => exact (he n ms rfl).elim
    | _ => simp [keyCandidates, hr, hj]
  rw [decodeKeyText, hf]
  dsimp only
  rw [hc]
  exact firstDecoded_of_head hd

theorem keyRoundTrips_of_plain (hf : key.keyForm = .direct) (hs : key ≠ str)
    (he : ∀ n ms, key ≠ enum n ms) (hc : c.scalarText?.isSome = true) (hn : ∀ s, c ≠ .str s)
    (hk : encodeValue o key k = .ok c) (h : RoundTrips o key k) : KeyRoundTrips o key k := by
  obtain ⟨c', hk', hu, hr⟩ := h
  obtain rfl : c = c' := Except.ok.inj (hk.symm.trans hk')
  obtain ⟨ht, hi⟩ := Json.scalarText?_eq_write hc hn
  have hd : c.Readable := Json.readable_of_scalarText? hc
  obtain ⟨w, hw⟩ := hr .text hd
  refine keyRoundTrips_of_returns hk (fun x => ?_) hw
    (decodeKeyText_of_read hf hs he (Json.read_write hu hd) hi hw.decode)
  rw [keyText, hf]
  simp only [ht]

theorem keyRoundTrips_of_str {s : String} (hf : key.keyForm = .direct)
    (he : keyCandidates key s = [.str s]) (hk : encodeValue o key k = .ok (.str s))
    (h : RoundTrips o key k) : KeyRoundTrips o key k := by
  obtain ⟨c, hk', _, hr⟩ := h
  obtain rfl : Json.str s = c := Except.ok.inj (hk.symm.trans hk')
  obtain ⟨w, hw⟩ := hr .memory trivial
  refine keyRoundTrips_of_returns (t := s) hk (fun x => ?_) hw ?_
  · rw [keyText, hf]
    rfl
  · rw [decodeKeyText, hf]
    dsimp only
    rw [he]
    exact firstDecoded_of_head hw.decode

theorem keyRoundTrips_of_stringified (hf : key.keyForm = .stringified)
    (hd : ∀ j, encodeValue o key k = .ok j → j.Readable)
    (h : RoundTrips o key k) : KeyRoundTrips o key k := by
  obtain ⟨c, hk, hu, hr⟩ := h
  obtain ⟨w, hw⟩ := hr .text (hd c hk)
  refine keyRoundTrips_of_returns (t := c.write) hk (fun x => ?_) hw ?_
  · rw [keyText, hf]
  · rw [decodeKeyText, hf]
    dsimp only
    rw [Json.read_write hu (hd c hk)]
    exact hw.decode

attribute [local simp] encodeValue

/-- Every exact key but a literal that comes back from its encoding comes back from its text. -/
theorem keyRoundTrips (hl : ∀ ls, key ≠ literal ls) (hx : key.Exact k)
    (hd : key.keyForm = .stringified → ∀ j, encodeValue o key k = .ok j → j.Readable)
    (h : RoundTrips o key k) : KeyRoundTrips o key k := by
  cases hf : key.keyForm with
  | stringified => exact keyRoundTrips_of_stringified hf (hd hf) h
  | direct =>
    cases hx with
    | bool b =>
      exact keyRoundTrips_of_plain (c := .bool b) rfl nofun nofun (by cases b <;> rfl) nofun
        (by simp) h
    | int i =>
      exact keyRoundTrips_of_plain (c := .int i) rfl nofun nofun rfl nofun (by simp) h
    | float hx =>
      obtain ⟨n, hn⟩ := exists_toNumeral? hx
      exact keyRoundTrips_of_plain (c := .number n) rfl nofun nofun rfl nofun
        (by simp [encodeFloat, hn]) h
    | str t => exact keyRoundTrips_of_str (s := t) rfl rfl (by simp) h
    | none =>
      exact keyRoundTrips_of_plain (c := .null) rfl nofun nofun rfl nofun (by simp) h
    | literal => exact (hl _ rfl).elim
    | @enum name m ms => exact keyRoundTrips_of_str (s := m) rfl rfl (by simp) h
    | _ => cases hf

/-- A map makes the round trip when its keys and values do. -/
theorem roundTrips_mapping {kind : MappingKind} {es : List (Value × Value)}
    (hw : (Value.map kind.built es).WellFormed) (hk : ∀ e ∈ es, KeyRoundTrips o key e.1)
    (hv : ∀ e ∈ es, RoundTrips o value e.2) :
    RoundTrips o (mapping kind key value) (.map kind.built es) := by
  obtain ⟨hd, hm⟩ := Value.wellFormed_map_iff.mp hw
  have hkeys : ∀ e ∈ es, ∃ r : String × Value, keyTextOf o key e.1 = .ok r.1 ∧
      KeyReturns o key e.1 r.1 r.2 := by
    intro e he
    obtain ⟨t, w, h⟩ := hk e he
    exact ⟨(t, w), h⟩
  have : Nonempty (String × Value) := ⟨("", .none)⟩
  choose! r ht hr using hkeys
  obtain ⟨c, hc⟩ := exists_encodings (f := fun _ => value) (g := Prod.snd) hv
  have hpair : es.Pairwise fun a b => (r b).2.same (r a).2 = false :=
    pairwise_of_same (g := Prod.fst) (fun e he => (hm e he).1)
      (fun e he => ⟨(hr e he).wellFormed, (hr e he).same⟩) hd
  -- keys with one text would come back as one
  have htext : es.Pairwise fun a b => (r a).1 ≠ (r b).1 := by
    refine hpair.imp_of_mem fun {a b} ha hb h he => ?_
    have hab : (r a).2 = (r b).2 :=
      Except.ok.inj ((hr a ha).decode.symm.trans (he ▸ (hr b hb).decode))
    rw [hab, Value.same_refl] at h
    cases h
  have hencode : ∀ b : Value × Value → Value × Value,
      (∀ e ∈ es, keyTextOf o key (b e).1 = .ok (r e).1 ∧
        encodeValue o value (b e).2 = .ok (c e)) →
      encodeValue o (mapping kind key value) (.map kind.built (es.map b)) =
        .ok (.map (es.map fun e => ((r e).1, c e))) := by
    intro b hb
    exact encodeValue_mapping_eq_ok_iff.mpr ⟨_, _, _, rfl, rfl,
      List.forall₂_map_map_iff.mpr hb, List.pairwise_map.mpr htext⟩
  refine ⟨_, by simpa using hencode id fun e he => ⟨ht e he, (hc e he).1⟩,
    Json.uniqueKeys_map_iff.mpr ⟨?_, List.forall_mem_map.mpr fun e he => (hc e he).2.1⟩,
    fun p hp => ?_⟩
  · rw [List.map_map]
    exact List.pairwise_map.mpr htext
  obtain ⟨b, hb⟩ := exists_returns
    (fun e he => hp.entry (List.mem_map.mpr ⟨e, he, rfl⟩)) fun e he => (hc e he).2.2
  refine ⟨.map kind.built (es.map fun e => ((r e).2, b e)), ?_, ?_, ?_, ?_, ?_⟩
  · rw [Passage.apply_map, List.map_map]
    refine decodeJson_mapping_eq_ok_iff.mpr ⟨_, _, rfl, ?_, List.pairwise_map.mpr hpair, rfl⟩
    exact List.forall₂_map_map_iff.mpr fun e he => ⟨(hr e he).decode, (hb e he).decode⟩
  · exact Value.map_same_iff.mpr ⟨es, rfl, List.length_map _,
      List.forall_mem_map.mpr fun e he => ⟨e, he, (hr e he).same, (hb e he).same⟩⟩
  · exact .mapping (List.forall_mem_map.mpr fun e he => (hr e he).exact)
      (List.forall_mem_map.mpr fun e he => (hb e he).exact)
  · exact Value.wellFormed_map_iff.mpr ⟨List.pairwise_map.mpr hpair,
      List.forall_mem_map.mpr fun e he => ⟨(hr e he).wellFormed, (hb e he).wellFormed⟩⟩
  · exact hencode _ fun e he => ⟨(hr e he).encode, (hb e he).encode⟩

end Shape

end ShapeCodec
