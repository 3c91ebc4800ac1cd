import ShapeCodec.Proofs.RoundTrip.Decodes
import ShapeCodec.Proofs.RoundTrip.Exact

/-! # Decoding goes where encoding went

Without unions the decoder has no choice: where the encoding of a value decodes, so do the encodings
of all that was met when it was built. What cannot come back at one place keeps the whole from
coming back.
-/

namespace ShapeCodec

namespace Shape

variable {o : Settings} {s t key : Shape} {v w k : Value}

/-- The encoding of a value decodes on some way. -/
def ComesBack (o : Settings) (s : Shape) (v : Value) : Prop :=
  ∃ (c : Json) (p : Passage) (w : Value), encodeValue o s v = .ok c ∧
    decodeJson o s (p.apply c) = .ok w

/-- A key whose text stands for some key comes back from its encoding. -/
theorem comesBack_of_decodeKeyText {text : String} (hc : key.checkable = true)
    (hv : key.conforms o k = true)
    (hr : key.keyForm = .stringified → ∀ j, encodeValue o key k = .ok j → j.Readable)
    (ht : keyTextOf o key k = .ok text) (h : decodeKeyText key (decodeJson o key) text = .ok w) :
    ComesBack o key k := by
  obtain ⟨j, hj, ht⟩ := bind_eq_ok_iff.mp ht
  have hu : j.UniqueKeys := (tidy_encodeValue hc hv hj).uniqueKeys
  cases hf : key.keyForm with
  | stringified =>
    rw [keyText, hf] at ht
    obtain rfl := Except.ok.inj ht
    rw [decodeKeyText, hf] at h
    simp only [Json.read_write hu (hr hf j hj)] at h
    exact ⟨j, .text, w, hj, h⟩
  | direct =>
    by_cases hfloat : key = float
    · -- a float key is no string, so its text stands for a number that is read from it
      subst hfloat
      have hstr : ∀ t w, decodeJson o float (.str t) ≠ .ok w := by
        intro t w hw
        obtain ⟨x, hx, -⟩ := decodeJson_float_eq_ok_iff.mp hw
        cases hx
      have hs := isSome_scalarText hf hv hj
      have hn : ∀ t, j ≠ .str t := by
        rintro t rfl
        rcases conforms_float_iff.mp hv with ⟨i, rfl⟩ | ⟨x, rfl⟩ | ⟨d, rfl, -⟩
        · simp [encodeValue] at hj
        · rw [encodeValue] at hj
          obtain ⟨n, hn, -⟩ := exists_of_encodeFloat hj
          cases hn
        · simp [encodeValue] at hj
      obtain ⟨hw, -⟩ := Json.scalarText?_eq_write hs hn
      obtain rfl : j.write = text := by simpa [keyText, hf, hw] using ht
      obtain ⟨d, hd, hw⟩ := exists_of_decodeKeyText h
      rcases hd with rfl | hd
      · exact (hstr _ _ hw).elim
      · obtain rfl := Except.ok.inj ((Json.read_write_of_scalarText? hs).symm.trans hd)
        exact ⟨j, .text, w, hj, hw⟩
    · obtain ⟨x, hx⟩ := decodes_direct hf hfloat hv hj .memory trivial
      exact ⟨j, .memory, x, hj, hx⟩

/-- Where a value comes back, so does all that is stepped to, except to the branch of a union. -/
theorem Steps.comesBack (hst : Steps o s v t w) (hb : s.branches? = Option.none)
    (hc : s.checkable = true) (hv : s.conforms o v = true) (hk : s.KeysReadable o v)
    (h : ComesBack o s v) : ComesBack o t w := by
  have hct := hst.checkable hc
  have hvt := hst.conforms hc hv
  obtain ⟨c, p, u, he, hd⟩ := h
  cases hst with
  | item hx =>
    obtain ⟨_, _, js, ⟨⟩, rfl, hj⟩ := encodeValue_sequence_eq_ok_iff.mp he
    rw [Passage.apply_list] at hd
    obtain ⟨_, _, ⟨⟩, hd, -⟩ := decodeJson_sequence_eq_ok_iff.mp hd
    obtain ⟨j, hm, hj⟩ := hj.exists_of_mem_left hx
    obtain ⟨y, -, hy⟩ := hd.exists_of_mem_left (List.mem_map_of_mem hm)
    exact ⟨j, p, y, hj, hy⟩
  | position hx =>
    obtain ⟨_, js, ⟨⟩, -, rfl, hj⟩ := encodeValue_tuple_eq_ok_iff.mp he
    rw [Passage.apply_list] at hd
    obtain ⟨_, _, ⟨⟩, -, hd, -⟩ := decodeJson_tuple_eq_ok_iff.mp hd
    rw [List.zip_map_right, List.forall₂_map_left_iff] at hd
    obtain ⟨j, hm, hj⟩ := hj.exists_mem_zip_left hx
    obtain ⟨y, -, hy⟩ := hd.exists_of_mem_left hm
    exact ⟨j, p, y, hj, hy⟩
  | key hm =>
    obtain ⟨_, _, ps, ⟨⟩, rfl, hp, -⟩ := encodeValue_mapping_eq_ok_iff.mp he
    rw [Passage.apply_map] at hd
    obtain ⟨_, _, ⟨⟩, hd, -⟩ := decodeJson_mapping_eq_ok_iff.mp hd
    rw [List.forall₂_map_left_iff] at hd
    obtain ⟨q, hq, ht, -⟩ := hp.exists_of_mem_left hm
    obtain ⟨y, -, hy, -⟩ := hd.exists_of_mem_left hq
    exact comesBack_of_decodeKeyText hct hvt
      (fun hf j hj => hk _ _ _ _ _ _ j .here hm hf hj) ht hy
  | value hm =>
    obtain ⟨_, _, ps, ⟨⟩, rfl, hp, -⟩ := encodeValue_mapping_eq_ok_iff.mp he
    rw [Passage.apply_map] at hd
    obtain ⟨_, _, ⟨⟩, hd, -⟩ := decodeJson_mapping_eq_ok_iff.mp hd
    rw [List.forall₂_map_left_iff] at hd
    obtain ⟨q, hq, -, hj⟩ := hp.exists_of_mem_left hm
    obtain ⟨y, -, -, hy⟩ := hd.exists_of_mem_left hq
    exact ⟨q.2, p, y.2, hj, hy⟩
  | branch hb' =>
    rw [hb] at hb'
    cases hb'
  | field hm =>
    obtain ⟨_, _, ps, ⟨⟩, rfl, hp⟩ := encodeValue_record_eq_ok_iff.mp he
    rw [apply_laidOut] at hd
    obtain ⟨given, _, hl, hd, -⟩ := decodeJson_record_eq_ok_iff.mp hd
    have hnames := names_of_conforms hv hp
    obtain rfl := hl.unique (lays_laidOut _ (nodup_of_checkable_record hc) (by rwa [List.map_map]))
    rw [List.map_map, List.zip_map_right, List.forall₂_map_left_iff] at hd
    obtain ⟨q, hq, -, hj⟩ := hp.exists_mem_zip_left hm
    obtain ⟨y, -, -, ⟨x, hx, hy⟩ | ⟨hx, -⟩⟩ := hd.exists_of_mem_left hq
    · obtain rfl := Option.some.inj hx
      exact ⟨q.2, p, y.2, hj, hy⟩
    · cases hx
  | entry hm =>
    obtain ⟨_, _, ps, ⟨⟩, rfl, hp⟩ := encodeValue_typedDict_eq_ok_iff.mp he
    rw [Passage.apply_map] at hd
    obtain ⟨_, _, ⟨⟩, -, hd, -⟩ := decodeJson_typedDict_eq_ok_iff.mp hd
    rw [List.forall₂_map_left_iff] at hd
    obtain ⟨q, hq, hn, hj⟩ := hp.exists_of_mem_left hm
    obtain ⟨y, -, -, k, hk, hy⟩ := hd.exists_of_mem_left hq
    have hfind := List.find?_of_nodup_map (nodup_of_checkable_typedDict hc) (mem_declared.mp hm).1
    obtain rfl := Option.some.inj ((hn ▸ hfind).symm.trans hk)
    exact ⟨q.2, p, y.2, hj, hy⟩

theorem Steps.unionless (hst : Steps o s v t w) (hu : s.Unionless) : t.Unionless := by
  rcases hst.shape_mem_parts with ht | rfl
  · exact fun u hw => hu u (.part ht hw)
  · intro u hw
    rw [hw.eq_of_parts_eq_nil rfl]
    rfl

theorem Meets.unionless (hm : Meets o s v t w) (hu : s.Unionless) : t.Unionless := by
  induction hm with
  | here => exact hu
  | step hst _ ih => exact ih (hst.unionless hu)

/-- Where a value comes back under a shape without unions, so does all that is met. -/
theorem Meets.comesBack (hm : Meets o s v t w) (hu : s.Unionless) (hc : s.checkable = true)
    (hv : s.conforms o v = true) (hk : s.KeysReadable o v) (h : ComesBack o s v) :
    ComesBack o t w := by
  induction hm with
  | here => exact h
  | step hst _ ih =>
    exact ih (hst.unionless hu) (hst.checkable hc) (hst.conforms hc hv) (hk.step hst)
      (hst.comesBack (hu _ .here) hc hv hk h)

end Shape

end ShapeCodec
