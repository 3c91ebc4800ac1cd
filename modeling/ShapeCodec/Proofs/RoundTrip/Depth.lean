import ShapeCodec.Proofs.RoundTrip.Records

/-! # The depth of encodings

An encoding is nested no deeper than its shape is high, with one level more for a collection without
parts. Where a shape is not too high, every text that is written for it can be read.
-/

namespace ShapeCodec

namespace Shape

variable {o : Settings} {s t : Shape} {v w : Value} {c : Json}

theorem depth_laidOut_le {n : Nat} (b : Bool) {es : List (String × Json)}
    (h : ∀ e ∈ es, e.2.depth ≤ n) : (laidOut b es).depth ≤ n + 1 := by
  cases b
  · exact Json.depth_map_le_iff.mpr h
  · exact Json.depth_list_le_iff.mpr (List.forall_mem_map.mpr h)

theorem parts_eq_nil_of_encodeValue (hp : s.parts = []) (hb : s.branches? = Option.none)
    (h : encodeValue o s v = .ok c) : c.parts = [] := by
  cases s with
  | sequence => cases hp
  | mapping => cases hp
  | optional => cases hb
  | union => cases hb
  | tuple ss =>
    obtain rfl : ss = [] := hp
    obtain ⟨_, js, -, -, rfl, hj⟩ := encodeValue_tuple_eq_ok_iff.mp h
    exact List.forall₂_nil_left_iff.mp hj
  | record name fs =>
    obtain rfl := List.map_eq_nil_iff.mp hp
    obtain ⟨_, _, ps, -, rfl, hj⟩ := encodeValue_record_eq_ok_iff.mp h
    obtain rfl := List.forall₂_nil_left_iff.mp hj
    cases o.recordsAsLists <;> rfl
  | typedDict name ks =>
    obtain rfl := List.map_eq_nil_iff.mp hp
    obtain ⟨_, _, ps, -, rfl, hj⟩ := encodeValue_typedDict_eq_ok_iff.mp h
    obtain rfl := List.forall₂_nil_left_iff.mp hj
    rfl
  | literal =>
    obtain ⟨l, -, hl⟩ := encodeValue_literal_eq_ok_iff.mp h
    exact (Json.scalar_of_scalarText? (isSome_scalarText_of_encodeLiteral hl)).1
  | float =>
    rw [encodeValue.eq_def] at h
    dsimp only at h
    split at h
    · cases h; rfl
    · exact (Json.scalar_of_scalarText? (isSome_scalarText_of_encodeFloat h)).1
    · cases h; rfl
    · cases h
  | _ =>
    rw [encodeValue.eq_def] at h
    dsimp only at h
    repeat' split at h
    all_goals first
      | (cases h; rfl)
      | cases h

theorem depth_encodeValue_le (h : encodeValue o s v = .ok c) : c.depth ≤ s.height + 1 := by
  induction s using inductionParts generalizing v c with
  | step s ih =>
  have part : ∀ p ∈ s.parts, ∀ w j, encodeValue o p w = .ok j → j.depth ≤ s.height :=
    fun p hp w j hj => (ih p hp hj).trans (height_lt_of_mem_parts hp)
  cases s with
  | sequence k s =>
    obtain ⟨_, _, js, -, rfl, hj⟩ := encodeValue_sequence_eq_ok_iff.mp h
    refine Json.depth_list_le_iff.mpr fun j hm => ?_
    obtain ⟨x, _, hx⟩ := hj.exists_of_mem_right hm
    exact part s (by simp) x j hx
  | tuple ss =>
    obtain ⟨_, js, -, -, rfl, hj⟩ := encodeValue_tuple_eq_ok_iff.mp h
    refine Json.depth_list_le_iff.mpr fun j hm => ?_
    obtain ⟨q, hq, hx⟩ := hj.exists_of_mem_right hm
    exact part q.1 (List.of_mem_zip hq).1 q.2 j hx
  | mapping k key value =>
    obtain ⟨_, _, ps, -, rfl, hp, -⟩ := encodeValue_mapping_eq_ok_iff.mp h
    refine Json.depth_map_le_iff.mpr fun e hm => ?_
    obtain ⟨x, _, _, hx⟩ := hp.exists_of_mem_right hm
    exact part value (by simp) x.2 e.2 hx
  | record name fs =>
    obtain ⟨_, _, ps, -, rfl, hp⟩ := encodeValue_record_eq_ok_iff.mp h
    refine depth_laidOut_le _ fun e hm => ?_
    obtain ⟨q, hq, _, hx⟩ := hp.exists_of_mem_right hm
    exact part _ (mem_parts_record (List.of_mem_zip hq).1) q.2.2 e.2 hx
  | typedDict name ks =>
    obtain ⟨_, _, ps, -, rfl, hp⟩ := encodeValue_typedDict_eq_ok_iff.mp h
    refine Json.depth_map_le_iff.mpr fun e hm => ?_
    obtain ⟨q, hq, _, hx⟩ := hp.exists_of_mem_right hm
    exact part _ (mem_parts_typedDict (mem_declared.mp hq).1) q.2 e.2 hx
  | optional s =>
    rw [encodeValue.eq_def] at h
    dsimp only at h
    split at h
    · exact (part s (by simp) v c h).trans (Nat.le_succ _)
    · split at h <;> cases h
      exact Nat.zero_le _
  | union ss =>
    rw [encodeValue, encodeBranch_eq] at h
    split at h
    · rename_i t ht
      exact (part t (List.mem_of_find?_eq_some ht) v c h).trans (Nat.le_succ _)
    · cases h
  | _ =>
    have hparts : c.parts = [] := parts_eq_nil_of_encodeValue rfl rfl h
    exact (Json.depth_le_one_of_parts_eq_nil hparts).trans (Nat.le_add_left 1 _)

theorem Meets.height_le (h : Meets o s v t w) : t.height ≤ s.height := by
  induction h with
  | here => exact le_rfl
  | step hs _ ih =>
    rcases hs.shape_mem_parts with ht | rfl
    · exact ih.trans (height_lt_of_mem_parts ht).le
    · exact ih.trans (Nat.zero_le _)

theorem keysReadable_of_height (h : s.height < Reading.maxDepth) (hp : s.KeysPlain o v) :
    s.KeysReadable o v := by
  intro k key value l es e j hm he hf hj
  refine ⟨?_, hp k key value l es e j hm he hf hj⟩
  have hkey : key.height < (mapping k key value).height := height_lt_of_mem_parts (by simp)
  have hwhole := hm.height_le
  have hdepth := depth_encodeValue_le hj
  omega

theorem Plain.readable (h : s.height < Reading.maxDepth) (hp : s.Plain o v)
    (hc : encodeValue o s v = .ok c) : c.Readable :=
  ⟨(depth_encodeValue_le hc).trans h, hp.whole c hc⟩

end Shape

end ShapeCodec
