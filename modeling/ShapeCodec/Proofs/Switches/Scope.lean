import ShapeCodec.Proofs.Decoding.Cases
import ShapeCodec.Proofs.Encoding.Failure

/-! # What a switch has a say in

Decimal casting is all that conformance and decoding look at. The two switches of the encoder are
seen by records and decimals only: direct keys do not depend on them, and whether an encoding is
null does not either.
-/

namespace ShapeCodec

variable {o o' : Settings}

theorem Json.toInt64_congr (ho : o.castDecimal = o'.castDecimal) (j : Json) :
    j.toInt64 o = j.toInt64 o' := by
  cases j with
  | number n => rw [toInt64, toInt64, ho]
  | _ => rfl

theorem Json.toBinary64_congr (ho : o.castDecimal = o'.castDecimal) (j : Json) :
    j.toBinary64 o = j.toBinary64 o' := by
  cases j with
  | number n => rw [toBinary64, toBinary64, ho]
  | _ => rfl

namespace Shape

variable {s : Shape} {v : Value} {c : Json}

theorem conforms_congr (ho : o.castDecimal = o'.castDecimal) (s : Shape) (v : Value) :
    conforms o s v = conforms o' s v :=
  Bool.eq_iff_iff.mpr ⟨conforms_mono (ho ▸ id), conforms_mono (ho ▸ id)⟩

/-! ## Decoding -/

section Decoding

variable {ss : List Shape} {fs : List (Field Shape)} {ks : List (Key Shape)}

theorem decodeBranch_congr {j : Json} (h : ∀ s ∈ ss, decodeJson o s j = decodeJson o' s j) :
    decodeBranch o ss j = decodeBranch o' ss j := by
  induction ss with
  | nil => rfl
  | cons s ss ih =>
    obtain ⟨hs, hss⟩ := List.forall_mem_cons.mp h
    rw [decodeBranch, decodeBranch, hs, ih hss]

theorem decodeFields_congr (h : ∀ f ∈ fs, ∀ j, decodeJson o f.shape j = decodeJson o' f.shape j)
    (given : List (Option Json)) : decodeFields o fs given = decodeFields o' fs given := by
  induction fs generalizing given with
  | nil => cases given <;> rfl
  | cons f fs ih =>
    obtain ⟨hf, hfs⟩ := List.forall_mem_cons.mp h
    cases given with
    | nil => rfl
    | cons g given =>
      simp only [decodeFields, hf, ih hfs]

theorem decodeKey_congr (h : ∀ k ∈ ks, ∀ j, decodeJson o k.shape j = decodeJson o' k.shape j)
    (name : String) (j : Json) : decodeKey o ks name j = decodeKey o' ks name j := by
  induction ks with
  | nil => rfl
  | cons k ks ih =>
    obtain ⟨hk, hks⟩ := List.forall_mem_cons.mp h
    rw [decodeKey, decodeKey, hk, ih hks]

/-- Decoding looks at decimal casting and at no other switch. -/
theorem decodeJson_congr (ho : o.castDecimal = o'.castDecimal) (s : Shape) (j : Json) :
    decodeJson o s j = decodeJson o' s j := by
  induction s using inductionParts generalizing j with
  | step s ih =>
  cases s with
  | int => rw [decodeJson, decodeJson, Json.toInt64_congr ho]
  | float => rw [decodeJson, decodeJson, Json.toBinary64_congr ho]
  | sequence k s =>
    have item : decodeJson o s = decodeJson o' s := funext (ih s (List.mem_singleton.mpr rfl))
    cases j <;> simp only [decodeJson, item]
  | tuple ss =>
    have items : ∀ xs, decodeItems o ss xs = decodeItems o' ss xs := fun xs => by
      rw [decodeItems_eq, decodeItems_eq]
      exact List.map_congr_left fun p hp => ih p.1 (List.of_mem_zip hp).1 p.2
    cases j <;> simp only [decodeJson, items]
  | mapping k key value =>
    have hk : decodeJson o key = decodeJson o' key := funext (ih key (by simp))
    have hv : decodeJson o value = decodeJson o' value := funext (ih value (by simp))
    cases j <;> simp only [decodeJson, hk, hv]
  | optional s => rw [decodeJson, decodeJson, ih s (List.mem_singleton.mpr rfl)]
  | union ss =>
    have branch : decodeBranch o ss j = decodeBranch o' ss j :=
      decodeBranch_congr fun s hs => ih s hs j
    rw [decodeJson, decodeJson, branch]
  | record name fs =>
    have fields : ∀ given, decodeFields o fs given = decodeFields o' fs given :=
      decodeFields_congr fun f hf => ih f.shape (mem_parts_record hf)
    cases j <;> simp only [decodeJson, fields]
  | typedDict name ks =>
    have entry : ∀ n j, decodeKey o ks n j = decodeKey o' ks n j :=
      decodeKey_congr fun k hk => ih k.shape (mem_parts_typedDict hk)
    cases j <;> simp only [decodeJson, entry]
  | _ => cases j <;> simp only [decodeJson]

end Decoding

/-! ## Encoding -/

theorem encodeValue_congr_of_direct (hf : s.keyForm = .direct) (v : Value) :
    encodeValue o s v = encodeValue o' s v := by
  cases s with
  | bool | int | float | str | none | literal | enum => simp only [encodeValue]
  | _ => cases hf

/-- Away from unions an encoding is put together from those of the parts, so it is passed on where
they are. -/
theorem encodeValue_of_parts (hd : o.decimalsAsNumbers = o'.decimalsAsNumbers)
    (hr : o.recordsAsLists = o'.recordsAsLists) (hb : s.branches? = Option.none)
    (hp : ∀ p ∈ s.parts, ∀ w j, encodeValue o p w = .ok j → encodeValue o' p w = .ok j)
    (h : encodeValue o s v = .ok c) : encodeValue o' s v = .ok c := by
  cases s with
  | optional s => cases hb
  | union ss => cases hb
  | decimal =>
    rw [← h]
    cases v <;> simp only [encodeValue, hd]
  | sequence k s =>
    rw [encodeValue_sequence_eq_ok_iff] at h ⊢
    obtain ⟨l, xs, js, rfl, rfl, hj⟩ := h
    exact ⟨l, xs, js, rfl, rfl, hj.imp (hp s (by simp))⟩
  | tuple ss =>
    rw [encodeValue_tuple_eq_ok_iff] at h ⊢
    obtain ⟨xs, js, rfl, hl, rfl, hj⟩ := h
    exact ⟨xs, js, rfl, hl, rfl,
      hj.imp_of_mem fun q hq j => hp q.1 (List.of_mem_zip hq).1 q.2 j⟩
  | mapping k key value =>
    rw [encodeValue_mapping_eq_ok_iff] at h ⊢
    obtain ⟨l, es, ps, rfl, rfl, hj, hn⟩ := h
    have hkey : ∀ x t, keyTextOf o key x = .ok t → keyTextOf o' key x = .ok t := by
      intro x t
      simp only [keyTextOf_eq_ok_iff]
      exact Exists.imp fun j => And.imp_left (hp key (by simp) x j)
    exact ⟨l, es, ps, rfl, rfl,
      hj.imp fun _ _ => And.imp (hkey _ _) (hp value (by simp) _ _), hn⟩
  | record name fs =>
    rw [encodeValue_record_eq_ok_iff] at h ⊢
    obtain ⟨n, vs, ps, rfl, rfl, hj⟩ := h
    exact ⟨n, vs, ps, rfl, by rw [hr], hj.imp_of_mem fun q hq p => And.imp_right
      (hp _ (mem_parts_record (List.of_mem_zip hq).1) q.2.2 p.2)⟩
  | typedDict name ks =>
    rw [encodeValue_typedDict_eq_ok_iff] at h ⊢
    obtain ⟨l, es, ps, rfl, rfl, hj⟩ := h
    exact ⟨l, es, ps, rfl, rfl, hj.imp_of_mem fun q hq p => And.imp_right
      (hp _ (mem_parts_typedDict (mem_declared.mp hq).1) q.2 p.2)⟩
  | _ => simpa only [encodeValue] using h

theorem encodeValue_eq_null (ho : o.castDecimal = o'.castDecimal)
    (h : encodeValue o s v = .ok .null) : encodeValue o' s v = .ok .null := by
  induction s, v using inductionSteps o with
  | step s v ih =>
  have branch : ∀ {ss}, s.branches? = some ss → encodeValue o' s v = .ok .null := by
    intro ss hb
    obtain ⟨t, ht, hn⟩ := (encodeValue_branches?_eq_ok_iff hb).mp h
    refine (encodeValue_branches?_eq_ok_iff hb).mpr ⟨t, ?_, ih t v (.branch hb ht) hn⟩
    simpa only [conforms_congr ho] using ht
  cases s with
  | any => cases h
  | ellipsis => rw [encodeValue]
  | decimal =>
    rw [encodeValue.eq_def] at h
    dsimp only at h
    split at h
    · split at h <;> cases h
    · cases h
  | sequence k s =>
    obtain ⟨_, _, _, _, ⟨⟩, _⟩ := encodeValue_sequence_eq_ok_iff.mp h
  | tuple ss =>
    obtain ⟨_, _, _, _, ⟨⟩, _⟩ := encodeValue_tuple_eq_ok_iff.mp h
  | mapping k key value =>
    obtain ⟨_, _, _, _, ⟨⟩, _⟩ := encodeValue_mapping_eq_ok_iff.mp h
  | optional s => exact branch rfl
  | union ss => exact branch rfl
  | record name fs =>
    obtain ⟨_, _, _, _, hj, _⟩ := encodeValue_record_eq_ok_iff.mp h
    cases hb : o.recordsAsLists <;> rw [hb] at hj <;> cases hj
  | typedDict name ks =>
    obtain ⟨_, _, _, _, ⟨⟩, _⟩ := encodeValue_typedDict_eq_ok_iff.mp h
  | _ => rwa [← encodeValue_congr_of_direct rfl]

end Shape

end ShapeCodec
