import Mathlib
import ShapeCodec.Proofs.RoundTrip.Branches
import ShapeCodec.Proofs.RoundTrip.Depth
import ShapeCodec.Proofs.RoundTrip.Mappings

/-! # Round trips of whole values

An exact instance makes the round trip because its parts do. The induction is on the shape: every
part of the value is met under a part of the shape, and what is asked of shape and value is passed
on to their parts.
-/

namespace ShapeCodec

namespace Shape

variable {o : Settings} {s : Shape} {v : Value}

theorem satisfies_of_mem_branches? {ss : List Shape} {t : Shape} (hc : s.checkable = true)
    (he : s.encodable = true) (hb : s.branches? = some ss) (ht : t ∈ ss) :
    t.satisfies .encodable = true := by
  rcases mem_parts_of_branches? hb ht with ht | rfl
  · exact satisfies_of_mem_parts (satisfies_encodable_iff.mpr ⟨hc, he⟩) ht
  · rfl

theorem roundTrips_of_floats (ho : ∀ x, Meets o s v float (.float x) → o.castDecimal = true)
    (hc : s.checkable = true) (he : s.encodable = true) (hu : s.Unambiguous o)
    (hl : s.NoLiteralKeys) (hk : s.KeysReadable o v) (hx : s.Exact v) (hw : v.WellFormed) :
    RoundTrips o s v := by
  induction s using inductionParts generalizing v with
  | step s ih =>
  have part : ∀ p ∈ s.parts, ∀ w, Steps o s v p w → p.Exact w → RoundTrips o p w :=
    fun p hp w hst hx => ih p hp (fun x hm => ho x (.step hst hm)) (checkable_of_mem_parts hc hp)
      (encodable_of_mem_parts he hp) ((unambiguous_iff.mp hu).2 p hp)
      ((noLiteralKeys_iff.mp hl).2 p hp) (hk.step hst) hx (hst.wellFormed hw)
  have branches := (unambiguous_iff.mp hu).1
  cases hx with
  | bool b => exact roundTrips_bool b
  | int i => exact roundTrips_int i
  | float hx => exact roundTrips_float (ho _ .here) hx
  | str t => exact roundTrips_str t
  | none => exact roundTrips_none
  | ellipsis => exact roundTrips_ellipsis
  | any v => cases he
  | decimal d => exact roundTrips_decimal d
  | sequence hx =>
    exact roundTrips_sequence hw fun x hm => part _ (by simp) x (.item hm) (hx x hm)
  | tuple hlen hx =>
    exact roundTrips_tuple hlen fun q hq =>
      part q.1 (List.of_mem_zip hq).1 q.2 (.position hq) (hx q hq)
  | @mapping k key value es hxk hxv =>
    refine roundTrips_mapping hw (fun e hm => ?_) fun e hm =>
      part value (by simp) e.2 (.value hm) (hxv e hm)
    refine keyRoundTrips (fun ls h => (noLiteralKeys_iff.mp hl).1 k ls value (h ▸ rfl))
      (hxk e hm) (fun hf j hj => ?_) (part key (by simp) e.1 (.key hm) (hxk e hm))
    exact hk k key value k.built es e j .here hm hf hj
  | @some t _ hx =>
    have hb : (optional t).branches? = some [t, none] := rfl
    have hs := fun u => satisfies_of_mem_branches? (t := u) hc he hb
    refine roundTrips_branch hb hs (branches _ hb) List.mem_cons_self (fun _ => .some) hx hw ?_
    exact part t (by simp) v
      (.branch hb (find?_of_exact hs (branches _ hb) List.mem_cons_self hx hw)) hx
  | @empty t =>
    have hb : (optional t).branches? = some [t, none] := rfl
    refine roundTrips_branch hb (fun u => satisfies_of_mem_branches? hc he hb) (branches _ hb)
      (t := none) (by simp) (fun w hx => ?_) .none hw roundTrips_none
    cases hx
    exact .empty
  | @union ss t _ ht hx =>
    have hb : (union ss).branches? = some ss := rfl
    have hs := fun u => satisfies_of_mem_branches? (t := u) hc he hb
    refine roundTrips_branch hb hs (branches _ hb) ht (fun _ => .union ht) hx hw ?_
    exact part t ht v (.branch hb (find?_of_exact hs (branches _ hb) ht hx hw)) hx
  | literal hm hf => exact roundTrips_literal he hm hf hw
  | record hlen hn hx =>
    exact roundTrips_record (nodup_of_checkable_record hc) hlen hn fun q hq =>
      part _ (mem_parts_record (List.of_mem_zip hq).1) q.2.2 (.field hq) (hx q hq)
  | enum hm => exact roundTrips_enum hm
  | typedDict hks hx hr =>
    refine roundTrips_typedDict (nodup_of_checkable_typedDict hc) hw hks hr fun q hq => ?_
    obtain ⟨hk, hv⟩ := mem_declared.mp hq
    exact part _ (mem_parts_typedDict hk) q.2 (.entry hq)
      (hx _ (mem_of_lookup? hv) q.1 hk rfl)

/-- An exact instance comes back from its encoding. -/
theorem roundTrips (ho : o.castDecimal = true) (hc : s.checkable = true)
    (he : s.encodable = true) (hu : s.Unambiguous o) (hl : s.NoLiteralKeys)
    (hk : s.KeysReadable o v) (hx : s.Exact v) (hw : v.WellFormed) : RoundTrips o s v :=
  roundTrips_of_floats (fun _ _ => ho) hc he hu hl hk hx hw

theorem not_overlaps_int_str : ¬ Overlaps o int str := by
  have hdecode : ∀ t w, decode o int (.str t) ≠ .ok w := by
    intro t w h
    obtain ⟨i, hi, _⟩ := decodeJson_int_eq_ok_iff.mp (decode_eq_ok_iff.mp h).2
    cases hi
  rintro ⟨w, hx, _, h⟩
  cases hx with
  | str t =>
  rcases h with h | ⟨j, hj, h⟩
  · rcases conforms_int_iff.mp h with ⟨_, h⟩ | ⟨_, _, h, _⟩ <;> cases h
  have hj := (encode_eq_ok_iff.mp hj).2.2
  obtain rfl : Json.str t = j := by simpa [encodeValue] using hj
  rcases h with ⟨u, hu⟩ | ⟨j', u, hr, hu⟩
  · exact hdecode t u hu
  · rw [Json.read_write_of_scalarText? rfl] at hr
    cases hr
    exact hdecode t u hu

end Shape

/-- An exact instance of an unambiguous shape is encoded, and its encoding decodes to the same
value, whenever decimals are cast and the keys can be read. -/
theorem exists_decode_encode (o : Settings) (s : Shape) (v : Value) (ho : o.castDecimal = true)
    (hs : s.satisfies .encodable = true) (hu : s.Unambiguous o) (hl : s.NoLiteralKeys)
    (hx : s.Exact v) (hw : v.WellFormed) (hk : s.KeysReadable o v) :
    ∃ j w, encode o s v = .ok j ∧ decode o s j = .ok w ∧ w.same v = true := by
  obtain ⟨hc, he⟩ := Shape.satisfies_encodable_iff.mp hs
  obtain ⟨j, hj, _, hr⟩ := Shape.roundTrips ho hc he hu hl hk hx hw
  obtain ⟨w, hr⟩ := hr .memory trivial
  exact ⟨j, w, encode_eq_ok_iff.mpr ⟨hs, hx.conforms hc, hj⟩, decode_eq_ok_iff.mpr ⟨hs, hr.decode⟩,
    hr.same⟩

theorem exists_decode_encode_pairs :
    ∃ j w, encode .standard (.mapping .dict (.tuple [.int, .bool]) (.union [.int, .str]))
        (.map .dict [(.sequence .tuple [.int 1, .bool true], .str "a")]) = .ok j ∧
      decode .standard (.mapping .dict (.tuple [.int, .bool]) (.union [.int, .str])) j = .ok w ∧
      w.same (.map .dict [(.sequence .tuple [.int 1, .bool true], .str "a")]) = true := by
  have hwithin : ∀ t, Shape.Within t (.mapping .dict (.tuple [.int, .bool]) (.union [.int, .str])) →
      t = .mapping .dict (.tuple [.int, .bool]) (.union [.int, .str]) ∨
        t = .tuple [.int, .bool] ∨ t = .union [.int, .str] ∨ t = .int ∨ t = .bool ∨ t = .str := by
    rintro t (_ | ⟨hp, ht⟩)
    · exact .inl rfl
    simp only [Shape.parts, List.mem_cons, List.not_mem_nil, or_false] at hp
    rcases hp with rfl | rfl <;> rcases ht with _ | ⟨hq, ht⟩
    · simp
    · simp only [Shape.parts, List.mem_cons, List.not_mem_nil, or_false] at hq
      rcases hq with rfl | rfl <;> simp [ht.eq_of_parts_eq_nil rfl]
    · simp
    · simp only [Shape.parts, List.mem_cons, List.not_mem_nil, or_false] at hq
      rcases hq with rfl | rfl <;> simp [ht.eq_of_parts_eq_nil rfl]
  have hkeys : (Shape.mapping .dict (.tuple [.int, .bool]) (.union [.int, .str])).KeysReadable
      .standard (.map .dict [(.sequence .tuple [.int 1, .bool true], .str "a")]) := by
    have pair : (Shape.tuple [.int, .bool]).Mapless := Shape.mapless_iff.mpr
      ⟨rfl, List.forall_mem_pair.mpr ⟨Shape.mapless_of_parts_eq_nil rfl rfl,
        Shape.mapless_of_parts_eq_nil rfl rfl⟩⟩
    have union : (Shape.union [.int, .str]).Mapless := Shape.mapless_iff.mpr
      ⟨rfl, List.forall_mem_pair.mpr ⟨Shape.mapless_of_parts_eq_nil rfl rfl,
        Shape.mapless_of_parts_eq_nil rfl rfl⟩⟩
    refine Shape.keysAll_mapping pair union (List.forall_mem_singleton.mpr fun _ j hj => ?_)
    have hkey : Shape.encodeValue .standard (.tuple [.int, .bool])
        (.sequence .tuple [.int 1, .bool true]) = .ok (.list [.int 1, .bool true]) := by cbv
    obtain rfl := Except.ok.inj (hkey.symm.trans hj)
    exact ⟨by decide, Json.numberMapFree_list_iff.mpr (List.forall_mem_pair.mpr
      ⟨Json.numberMapFree_of_parts_eq_nil rfl, Json.numberMapFree_of_parts_eq_nil rfl⟩)⟩
  refine exists_decode_encode _ _ _ rfl (by decide) (fun t ht ss hb => ?_) (fun t ht => ?_) ?_ ?_
    hkeys
  · rcases hwithin t ht with rfl | rfl | rfl | rfl | rfl | rfl <;> cases hb
    exact List.pairwise_pair.mpr Shape.not_overlaps_int_str
  · rcases hwithin t ht with rfl | rfl | rfl | rfl | rfl | rfl <;> simp
  · refine .mapping (List.forall_mem_singleton.mpr (.tuple rfl ?_))
      (List.forall_mem_singleton.mpr (.union (by simp) (.str "a")))
    exact List.forall_mem_pair.mpr ⟨.int 1, .bool true⟩
  · refine Value.wellFormed_map_iff.mpr ⟨List.pairwise_singleton _ _,
      List.forall_mem_singleton.mpr ⟨?_, Value.wellFormed_of_parts_eq_nil rfl⟩⟩
    exact Value.wellFormed_sequence_iff.mpr ⟨fun hk => (by cases hk), List.forall_mem_pair.mpr
      ⟨Value.wellFormed_of_parts_eq_nil rfl, Value.wellFormed_of_parts_eq_nil rfl⟩⟩

end ShapeCodec
