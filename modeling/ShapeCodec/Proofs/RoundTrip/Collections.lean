import ShapeCodec.Proofs.RoundTrip.Passage

/-! # Round trips of collections

A collection makes the round trip when its members do. The members of a set and the keys of a map
stay different on the way: what comes back is the same as what went, and two keys with one text
would come back as one.
-/

namespace ShapeCodec

namespace Shape

variable {o : Settings} {s : Shape}

section Members

variable {α : Type} {f : α → Shape} {g : α → Value} {c : α → Json} {xs : List α}

theorem exists_encodings (h : ∀ x ∈ xs, RoundTrips o (f x) (g x)) :
    ∃ c : α → Json, ∀ x ∈ xs, encodeValue o (f x) (g x) = .ok (c x) ∧ (c x).UniqueKeys ∧
      ∀ p : Passage, p.Fits (c x) → ∃ w, Returns o (f x) (g x) (c x) (p.apply (c x)) w := by
  have : Nonempty Json := ⟨.null⟩
  choose! c hc using h
  exact ⟨c, hc⟩

theorem exists_returns {p : Passage} (hp : ∀ x ∈ xs, p.Fits (c x))
    (h : ∀ x ∈ xs, ∀ p : Passage, p.Fits (c x) →
      ∃ w, Returns o (f x) (g x) (c x) (p.apply (c x)) w) :
    ∃ b : α → Value, ∀ x ∈ xs, Returns o (f x) (g x) (c x) (p.apply (c x)) (b x) := by
  have : Nonempty Value := ⟨.none⟩
  have h : ∀ x ∈ xs, ∃ w, Returns o (f x) (g x) (c x) (p.apply (c x)) w :=
    fun x hx => h x hx p (hp x hx)
  choose! b hb using h
  exact ⟨b, hb⟩

end Members

/-- Values that come back stay as different as they were. -/
theorem pairwise_of_same {α : Type} {xs : List α} {g b : α → Value}
    (hw : ∀ x ∈ xs, (g x).WellFormed) (hb : ∀ x ∈ xs, (b x).WellFormed ∧ (b x).same (g x) = true)
    (hd : xs.Pairwise fun x y => (g y).same (g x) = false) :
    xs.Pairwise fun x y => (b y).same (b x) = false := by
  refine hd.imp_of_mem fun hx hy h => ?_
  rwa [Value.same_congr (hw _ hy) (hb _ hy).1 (hw _ hx) (hb _ hx).1 (hb _ hy).2 (hb _ hx).2]

theorem roundTrips_sequence {k : SequenceKind} {xs : List Value}
    (hw : (Value.sequence k xs).WellFormed) (h : ∀ x ∈ xs, RoundTrips o s x) :
    RoundTrips o (sequence k s) (.sequence k xs) := by
  obtain ⟨hd, hm⟩ := Value.wellFormed_sequence_iff.mp hw
  obtain ⟨c, hc⟩ := exists_encodings (f := fun _ => s) (g := id) h
  have hencode : ∀ b : Value → Value, (∀ x ∈ xs, encodeValue o s (b x) = .ok (c x)) →
      encodeValue o (sequence k s) (.sequence k (xs.map b)) = .ok (.list (xs.map c)) := by
    intro b hb
    exact encodeValue_sequence_eq_ok_iff.mpr
      ⟨k, xs.map b, xs.map c, rfl, rfl, List.forall₂_map_map_iff.mpr hb⟩
  refine ⟨_, by simpa using hencode id fun x hx => (hc x hx).1, Json.uniqueKeys_list_iff.mpr
    (List.forall_mem_map.mpr fun x hx => (hc x hx).2.1), fun p hp => ?_⟩
  obtain ⟨b, hb⟩ := exists_returns (fun x hx => hp.item (List.mem_map_of_mem hx))
    fun x hx => (hc x hx).2.2
  have hpair : k.isSet = true → (xs.map b).Pairwise fun x y => y.same x = false := fun hk =>
    List.pairwise_map.mpr (pairwise_of_same hm
      (fun x hx => ⟨(hb x hx).wellFormed, (hb x hx).same⟩) (hd hk))
  have hitems : Value.ofItems k (xs.map b) = .sequence k (xs.map b) := by
    rw [Value.ofItems]
    split
    · rename_i hk
      rw [Value.distinct_eq_self (hpair hk)]
    · rfl
  refine ⟨.sequence k (xs.map b), ?_, ?_, ?_, ?_, ?_⟩
  · rw [Passage.apply_list, List.map_map]
    exact decodeJson_sequence_eq_ok_iff.mpr ⟨_, xs.map b, rfl,
      List.forall₂_map_map_iff.mpr fun x hx => (hb x hx).decode, hitems.symm⟩
  · refine Value.sequence_same_iff.mpr ⟨xs, rfl, ?_⟩
    split
    · refine ⟨List.length_map _, List.forall_mem_map.mpr fun x hx => ⟨x, hx, (hb x hx).same⟩⟩
    · rw [List.forall₂_map_left_iff, List.forall₂_same]
      exact fun x hx => (hb x hx).same
  · exact .sequence (List.forall_mem_map.mpr fun x hx => (hb x hx).exact)
  · exact Value.wellFormed_sequence_iff.mpr
      ⟨hpair, List.forall_mem_map.mpr fun x hx => (hb x hx).wellFormed⟩
  · exact hencode b fun x hx => (hb x hx).encode

theorem roundTrips_tuple {ss : List Shape} {xs : List Value} (hl : ss.length = xs.length)
    (h : ∀ q ∈ ss.zip xs, RoundTrips o q.1 q.2) :
    RoundTrips o (tuple ss) (.sequence .tuple xs) := by
  obtain ⟨qs, hqs⟩ : ∃ qs, qs = ss.zip xs := ⟨_, rfl⟩
  have hxs : xs = qs.map Prod.snd := by rw [hqs, List.map_snd_zip hl.ge]
  have hlen : qs.length = ss.length := by rw [hqs, List.length_zip, hl, min_self]
  have hzip : ∀ {γ : Type} (f : Shape × Value → γ),
      ss.zip (qs.map f) = qs.map fun q => (q.1, f q) := by
    intro γ f
    rw [hqs, List.zip_map_zip]
  rw [← hqs] at h
  obtain ⟨c, hc⟩ := exists_encodings h
  have hencode : ∀ b : Shape × Value → Value,
      (∀ q ∈ qs, encodeValue o q.1 (b q) = .ok (c q)) →
      encodeValue o (tuple ss) (.sequence .tuple (qs.map b)) = .ok (.list (qs.map c)) := by
    intro b hb
    refine encodeValue_tuple_eq_ok_iff.mpr
      ⟨qs.map b, qs.map c, rfl, by rw [List.length_map, hlen], rfl, ?_⟩
    rw [hzip]
    exact List.forall₂_map_map_iff.mpr hb
  refine ⟨_, by rw [hxs]; exact hencode _ fun q hq => (hc q hq).1,
    Json.uniqueKeys_list_iff.mpr (List.forall_mem_map.mpr fun q hq => (hc q hq).2.1),
    fun p hp => ?_⟩
  obtain ⟨b, hb⟩ := exists_returns (fun x hx => hp.item (List.mem_map_of_mem hx))
    fun x hx => (hc x hx).2.2
  refine ⟨.sequence .tuple (qs.map b), ?_, ?_, ?_, ?_, ?_⟩
  · rw [Passage.apply_list, List.map_map]
    refine decodeJson_tuple_eq_ok_iff.mpr ⟨_, qs.map b, rfl, ?_, ?_, rfl⟩
    · rw [List.length_map, hlen]
    · rw [hzip]
      exact List.forall₂_map_map_iff.mpr fun q hq => (hb q hq).decode
  · refine Value.sequence_same_iff.mpr ⟨xs, rfl, ?_⟩
    rw [if_neg (by decide), hxs]
    exact List.forall₂_map_map_iff.mpr fun q hq => (hb q hq).same
  · refine .tuple (by rw [List.length_map, hlen]) ?_
    rw [hzip]
    exact List.forall_mem_map.mpr fun q hq => (hb q hq).exact
  · exact Value.wellFormed_sequence_iff.mpr
      ⟨nofun, List.forall_mem_map.mpr fun q hq => (hb q hq).wellFormed⟩
  · exact hencode b fun q hq => (hb q hq).encode

end Shape

end ShapeCodec
