import Mathlib
import ShapeCodec.Proofs.Decoding.Soundness
import ShapeCodec.Proofs.RoundTrip.Decodes
import ShapeCodec.Proofs.RoundTrip.Plain
import ShapeCodec.Proofs.RoundTrip.Whole

/-! # Branches on the way back

A union is encoded by its first branch that the value conforms to and decoded by its first branch
that takes the tree. The branch that was encoded by takes it, so the one that decodes is no later
one. Without mappings nothing else can keep an encoding from being decoded.
-/

namespace ShapeCodec

namespace Shape

variable {o : Settings} {s t : Shape} {ss : List Shape} {v w : Value} {j : Json}

theorem Mapless.keysApart (h : s.Mapless) : s.KeysApart o v :=
  fun _ _ _ _ _ hm => (h.not_meets hm).elim

/-- Where the branch that a value is encoded by takes the encoding, a union is decoded by that
branch or an earlier one. -/
theorem exists_branch_le (hb : s.branches? = some ss) (hs : ∀ u ∈ ss, u.satisfies .encodable = true)
    (ht : ss.find? (conforms o · v) = some t) (hd : ∃ w, decodeJson o t j = .ok w) :
    ∃ i k b w, ss.findIdx? (conforms o · v) = some i ∧ ss[i]? = some t ∧
      ss.findIdx? (fun u => (decode o u j).isOk) = some k ∧ ss[k]? = some b ∧ k ≤ i ∧
      decode o b j = .ok w ∧ decodeJson o s j = .ok w := by
  obtain ⟨i, hi, hit⟩ := List.exists_findIdx?_of_find? ht
  obtain ⟨pre, b, post, w, rfl, hpre, hw⟩ := exists_first_decodes (List.mem_of_find?_eq_some ht) hd
  have hdecode : decode o b j = .ok w := decode_eq_ok_iff.mpr ⟨hs b (by simp), hw⟩
  have hfirst : (pre ++ b :: post).find? (fun u => (decode o u j).isOk) = some b := by
    refine List.find?_eq_some_iff_append.mpr ⟨by rw [hdecode]; rfl, pre, post, rfl, fun a ha => ?_⟩
    cases h : decode o a j with
    | ok x => exact (hpre a ha x (decode_eq_ok_iff.mp h).2).elim
    | error e => rfl
  obtain ⟨k, hk, hkb⟩ := List.exists_findIdx?_of_find? hfirst
  -- the branch that was encoded by takes the tree, so the first one that does is no later
  have htake : (decode o t j).isOk = true := by
    obtain ⟨x, hx⟩ := hd
    rw [decode_eq_ok_iff.mpr ⟨hs t (List.mem_of_find?_eq_some ht), hx⟩]
    rfl
  exact ⟨i, k, b, w, hi, hit, hk, hkb, List.findIdx?_le hk hit htake, hdecode,
    decodeJson_of_branches? hb hpre hw⟩

end Shape

/-- What is encoded under a shape without mappings decodes to an instance, from memory and from its
text if that can be read back, and a union decodes by the branch that it was encoded by or by an
earlier one. -/
theorem exists_decode_of_encode (o : Settings) (s : Shape) (v : Value) (j : Json)
    (ho : o.castDecimal = true) (hm : s.Mapless) (h : encode o s v = .ok j) :
    ∃ w, decode o s j = .ok w ∧
      (∃ verdict, isInstance o s w = .ok verdict ∧ verdict.holds = true) ∧
      (j.Readable → ∃ text u, dump o s v = .ok text ∧ load o s text = .ok u) ∧
      ∀ ss, s.branches? = some ss → ∃ i k t b,
        ss.findIdx? (·.conforms o v) = some i ∧ ss[i]? = some t ∧ encode o t v = .ok j ∧
        ss.findIdx? (fun u => (decode o u j).isOk) = some k ∧ ss[k]? = some b ∧
        decode o b j = .ok w ∧ k ≤ i := by
  obtain ⟨hs, hv, hj⟩ := encode_eq_ok_iff.mp h
  obtain ⟨hc, he⟩ := Shape.satisfies_encodable_iff.mp hs
  have hd : s.Decodes o j :=
    Shape.decodes_encodeValue ho hc hv hm.keysAll hm.keysApart hj
  obtain ⟨w, hw⟩ := hd .memory trivial
  refine ⟨w, decode_eq_ok_iff.mpr ⟨hs, hw⟩,
    ⟨_, isInstance_of_checkable hc, Shape.conforms_of_decodeJson hc hw⟩, fun hr => ?_,
    fun ss hb => ?_⟩
  · obtain ⟨u, hu⟩ := hd .text hr
    exact ⟨j.write, u, dump_eq_ok_iff.mpr ⟨j, h, rfl⟩,
      (load_write_eq_ok_iff h hr).mpr (decode_eq_ok_iff.mpr ⟨hs, hu⟩)⟩
  · obtain ⟨t, ht⟩ := Shape.exists_branch hb hv
    have hst : Shape.Steps o s v t v := .branch hb ht
    have hjt : t.encodeValue o v = .ok j := Shape.encodeValue_of_branches? hb ht ▸ hj
    have hss : ∀ u ∈ ss, u.satisfies .encodable = true :=
      fun u => Shape.satisfies_of_mem_branches? hc he hb
    have htd : ∃ w, t.decodeJson o j = .ok w :=
      Shape.decodes_encodeValue ho (hst.checkable hc) (hst.conforms hc hv)
        (hm.keysAll.step hst) (hm.keysApart.step hst) hjt .memory trivial
    obtain ⟨i, k, b, x, hi, hit, hk, hkb, hle, hb', hx⟩ := Shape.exists_branch_le hb hss ht htd
    obtain rfl : w = x := Except.ok.inj (hw.symm.trans hx)
    exact ⟨i, k, t, b, hi, hit, encode_eq_ok_iff.mpr
      ⟨hss t (List.mem_of_find?_eq_some ht), hst.conforms hc hv, hjt⟩, hk, hkb, hb', hle⟩

/-- A frozen set of two integers comes back as the pair that an earlier branch asks for. -/
theorem exists_decode_of_encode_frozenSet :
    ∃ j text u, encode .standard (.union [.tuple [.int, .int], .sequence .frozenSet .int])
        (.sequence .frozenSet [.int 1, .int 3]) = .ok j ∧
      decode .standard (.union [.tuple [.int, .int], .sequence .frozenSet .int]) j =
        .ok (.sequence .tuple [.int 1, .int 3]) ∧
      dump .standard (.union [.tuple [.int, .int], .sequence .frozenSet .int])
        (.sequence .frozenSet [.int 1, .int 3]) = .ok text ∧
      load .standard (.union [.tuple [.int, .int], .sequence .frozenSet .int]) text = .ok u := by
  have h : encode .standard (.union [.tuple [.int, .int], .sequence .frozenSet .int])
      (.sequence .frozenSet [.int 1, .int 3]) = .ok (.list [.int 1, .int 3]) := by cbv
  have hint : Shape.int.Mapless := Shape.mapless_iff.mpr ⟨rfl, List.forall_mem_nil _⟩
  have hm : (Shape.union [.tuple [.int, .int], .sequence .frozenSet .int]).Mapless := by
    refine Shape.mapless_iff.mpr ⟨rfl, List.forall_mem_pair.mpr ⟨?_, ?_⟩⟩
    · exact Shape.mapless_iff.mpr ⟨rfl, List.forall_mem_pair.mpr ⟨hint, hint⟩⟩
    · exact Shape.mapless_iff.mpr ⟨rfl, List.forall_mem_singleton.mpr hint⟩
  obtain ⟨_, -, -, hload, -⟩ := exists_decode_of_encode _ _ _ _ rfl hm h
  have hfree : (Json.list [.int 1, .int 3]).NumberMapFree := Json.numberMapFree_list_iff.mpr
    (List.forall_mem_pair.mpr ⟨Json.numberMapFree_of_parts_eq_nil rfl,
      Json.numberMapFree_of_parts_eq_nil rfl⟩)
  obtain ⟨text, u, ht, hu⟩ := hload ⟨by decide, hfree⟩
  exact ⟨_, text, u, h, by cbv, ht, hu⟩

/-- A record with one field decodes from memory, but its text is read as the number five. -/
theorem decode_not_load_of_numberKey :
    (Shape.record "Note" [⟨Json.numberKey, .str, none⟩]).Mapless ∧
    ∃ j text, encode .standard (.record "Note" [⟨Json.numberKey, .str, none⟩])
        (.record "Note" [(Json.numberKey, .str "5")]) = .ok j ∧ j.depth ≤ Reading.maxDepth ∧
      (∃ w, decode .standard (.record "Note" [⟨Json.numberKey, .str, none⟩]) j = .ok w) ∧
      dump .standard (.record "Note" [⟨Json.numberKey, .str, none⟩])
        (.record "Note" [(Json.numberKey, .str "5")]) = .ok text ∧
      ∀ w, load .standard (.record "Note" [⟨Json.numberKey, .str, none⟩]) text ≠ .ok w := by
  have hm : (Shape.record "Note" [⟨Json.numberKey, .str, none⟩]).Mapless := Shape.mapless_iff.mpr
    ⟨rfl, List.forall_mem_singleton.mpr (Shape.mapless_of_parts_eq_nil rfl rfl)⟩
  have h : encode .standard (.record "Note" [⟨Json.numberKey, .str, none⟩])
      (.record "Note" [(Json.numberKey, .str "5")]) =
        .ok (.map [(Json.numberKey, .str "5")]) := by cbv
  have ht : dump .standard (.record "Note" [⟨Json.numberKey, .str, none⟩])
      (.record "Note" [(Json.numberKey, .str "5")]) =
        .ok (Json.map [(Json.numberKey, .str "5")]).write := dump_eq_ok_iff.mpr ⟨_, h, rfl⟩
  exact ⟨hm, _, _, h, by decide, ⟨_, by cbv⟩, ht,
    fun w => load_dump_ne_ok_of_numberKey rfl rfl ht⟩

end ShapeCodec
