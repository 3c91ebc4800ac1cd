import ShapeCodec.Proofs.Json.Unambiguous
import ShapeCodec.Proofs.Number.Widening
import ShapeCodec.Proofs.RoundTrip.Records

/-! # Tidy trees

What the encoder builds can be read back from its text: no map repeats a key. A number without
fraction and exponent is spelled in it as the integer that it becomes in the text.
-/

namespace ShapeCodec

namespace Json

/-- No map of a tree repeats a key, and each of its numbers that is an integer is spelled as one. -/
inductive Tidy : Json → Prop
  | mk {j : Json} : (∀ es, j = map es → (es.map (·.1)).Nodup) →
    (∀ n i, j = number n → n.toInt64? = some i → n = .ofInt i.toInt) → (∀ p ∈ j.parts, Tidy p) →
    Tidy j

variable {j : Json}

theorem Tidy.part {p : Json} (h : j.Tidy) (hp : p ∈ j.parts) : p.Tidy := by
  obtain ⟨_, _, h⟩ := h
  exact h p hp

theorem Tidy.uniqueKeys (h : j.Tidy) : j.UniqueKeys := by
  induction h with
  | mk hk _ _ ih => exact .mk hk ih

theorem Tidy.eq_ofInt {n : Numeral} {i : Int64} (h : (number n).Tidy) (hi : n.toInt64? = some i) :
    n = .ofInt i.toInt := by
  obtain ⟨_, h, _⟩ := h
  exact h n i rfl hi

theorem tidy_list {xs : List Json} (h : ∀ x ∈ xs, x.Tidy) : (list xs).Tidy :=
  .mk (by simp) (by simp) h

theorem tidy_map {es : List (String × Json)} (hn : (es.map (·.1)).Nodup)
    (h : ∀ e ∈ es, e.2.Tidy) : (map es).Tidy := by
  refine .mk (fun fs hf => ?_) (by simp) (List.forall_mem_map.mpr h)
  obtain rfl := map.inj hf
  exact hn

theorem tidy_of_parts_eq_nil (hp : j.parts = []) (hn : ∀ n, j ≠ number n) : j.Tidy := by
  obtain ⟨hk, _⟩ := uniqueKeys_of_parts_eq_nil hp
  exact .mk hk (fun n _ h => (hn n h).elim) (by simp [hp])

theorem tidy_of_isFractional {n : Numeral} (h : n.isFractional = true) : (number n).Tidy := by
  refine .mk (by simp) (fun m i hm hi => ?_) (List.forall_mem_nil _)
  obtain rfl := number.inj hm
  rw [Numeral.toInt64?, if_pos h] at hi
  cases hi

theorem tidy_toNumeral (d : Decimal) : (number d.toNumeral).Tidy := by
  refine .mk (by simp) (fun n i hn hi => ?_) (List.forall_mem_nil _)
  obtain rfl := number.inj hn
  exact Decimal.toNumeral_eq_ofInt hi

theorem charsItems_map {xs : List Json} {f : Json → Json} (h : ∀ x ∈ xs, (f x).chars = x.chars) :
    charsItems (xs.map f) = charsItems xs := by
  induction xs with
  | nil => rfl
  | cons x xs ih =>
    obtain ⟨hx, hxs⟩ := List.forall_mem_cons.mp h
    rw [List.map_cons, charsItems, charsItems, hx, ih hxs]

theorem charsEntries_map {es : List (String × Json)} {f : Json → Json}
    (h : ∀ e ∈ es, (f e.2).chars = e.2.chars) :
    charsEntries (es.map fun e => (e.1, f e.2)) = charsEntries es := by
  induction es with
  | nil => rfl
  | cons e es ih =>
    obtain ⟨he, hes⟩ := List.forall_mem_cons.mp h
    rw [List.map_cons, charsEntries, charsEntries, he, ih hes]

theorem Tidy.chars_withIntegers (h : j.Tidy) : j.withIntegers.chars = j.chars := by
  induction j using inductionParts with
  | step j ih =>
  have part : ∀ p ∈ j.parts, p.withIntegers.chars = p.chars := fun p hp => ih p hp (h.part hp)
  cases j with
  | number n =>
    rw [withIntegers, ofNumeral]
    cases hi : n.toInt64? with
    | none => rfl
    | some i =>
      obtain rfl := h.eq_ofInt hi
      exact (Numeral.chars_ofInt i.toInt).symm
  | list xs =>
    rw [withIntegers_list]
    cases xs with
    | nil => rfl
    | cons x xs =>
      obtain ⟨hx, hxs⟩ := List.forall_mem_cons.mp part
      rw [List.map_cons, chars, chars, hx, charsItems_map hxs]
  | map es =>
    rw [withIntegers_map]
    cases es with
    | nil => rfl
    | cons e es =>
      obtain ⟨he, hes⟩ := List.forall_mem_cons.mp part
      rw [List.map_cons, chars, chars, he, charsEntries_map (List.forall_mem_map.mp hes)]
  | _ => rfl

/-- Tidy trees have one text exactly when they are read back as one tree. -/
theorem Tidy.write_eq_write_iff {k : Json} (hj : j.Tidy) (hk : k.Tidy) :
    j.write = k.write ↔ j.withIntegers = k.withIntegers := by
  refine ⟨withIntegers_eq_of_write_eq, fun h => ?_⟩
  rw [write, write, ← hj.chars_withIntegers, ← hk.chars_withIntegers, h]

end Json

namespace Shape

variable {o : Settings} {s : Shape} {v : Value} {c : Json}

theorem tidy_laidOut {b : Bool} {es : List (String × Json)} (hn : (es.map (·.1)).Nodup)
    (h : ∀ e ∈ es, e.2.Tidy) : (laidOut b es).Tidy := by
  cases b
  · exact Json.tidy_map hn h
  · exact Json.tidy_list (List.forall_mem_map.mpr h)

theorem tidy_encodeFloat {x : Binary64} (h : encodeFloat x = .ok c) : c.Tidy := by
  obtain ⟨n, rfl, hf, -⟩ := exists_of_encodeFloat h
  exact Json.tidy_of_isFractional hf

theorem tidy_encodeLiteral {l : Literal} (h : encodeLiteral l = .ok c) : c.Tidy := by
  cases l with
  | float x => exact tidy_encodeFloat h
  | _ =>
    cases h
    exact Json.tidy_of_parts_eq_nil rfl (by simp)

theorem names_of_conforms {name n : String} {fs : List (Field Shape)} {vs : List (String × Value)}
    {es : List (String × Json)} (hv : (record name fs).conforms o (.record n vs) = true)
    (h : List.Forall₂ (fun q p => q.2.1 = p.1 ∧ encodeValue o q.1.shape q.2.2 = .ok p.2)
      (fs.zip vs) es) : es.map (·.1) = fs.map (·.name) := by
  obtain ⟨_, _, ⟨⟩, hvs⟩ := conforms_record_iff.mp hv
  have hes : List.Forall₂ (fun f e => f.name = e.1) fs es :=
    h.of_zip hvs.length_eq fun f p e hm he =>
      ((List.forall₂_iff_zip.mp hvs).2 hm).1.trans he.1
  symm
  rw [← List.forall₂_eq_eq_eq, List.forall₂_map_left_iff, List.forall₂_map_right_iff]
  exact hes

/-- An encoding is tidy. -/
theorem tidy_encodeValue (hc : s.checkable = true) (hv : s.conforms o v = true)
    (h : encodeValue o s v = .ok c) : c.Tidy := by
  induction s, v using inductionSteps o generalizing c with
  | step s v ih =>
  have part : ∀ {t w j}, Steps o s v t w → encodeValue o t w = .ok j → j.Tidy :=
    fun hst => ih _ _ hst (hst.checkable hc) (hst.conforms hc hv)
  have branch : ∀ {ss}, s.branches? = some ss → c.Tidy := by
    intro ss hb
    obtain ⟨t, ht⟩ := exists_branch hb hv
    exact part (.branch hb ht) (encodeValue_of_branches? hb ht ▸ h)
  cases s with
  | sequence k s =>
    obtain ⟨_, _, js, rfl, rfl, hj⟩ := encodeValue_sequence_eq_ok_iff.mp h
    refine Json.tidy_list fun j hm => ?_
    obtain ⟨x, hx, he⟩ := hj.exists_of_mem_right hm
    exact part (.item hx) he
  | tuple ss =>
    obtain ⟨_, js, rfl, -, rfl, hj⟩ := encodeValue_tuple_eq_ok_iff.mp h
    refine Json.tidy_list fun j hm => ?_
    obtain ⟨q, hq, he⟩ := hj.exists_of_mem_right hm
    exact part (.position hq) he
  | mapping k key value =>
    obtain ⟨_, _, ps, rfl, rfl, hp, hn⟩ := encodeValue_mapping_eq_ok_iff.mp h
    refine Json.tidy_map (List.pairwise_map.mpr hn) fun e hm => ?_
    obtain ⟨x, hx, -, he⟩ := hp.exists_of_mem_right hm
    exact part (.value hx) he
  | record name fs =>
    obtain ⟨_, _, ps, rfl, rfl, hp⟩ := encodeValue_record_eq_ok_iff.mp h
    refine tidy_laidOut (names_of_conforms hv hp ▸ nodup_of_checkable_record hc) fun e hm => ?_
    obtain ⟨q, hq, -, he⟩ := hp.exists_of_mem_right hm
    exact part (.field hq) he
  | typedDict name ks =>
    obtain ⟨_, es, ps, rfl, rfl, hp⟩ := encodeValue_typedDict_eq_ok_iff.mp h
    have hnames : (declared ks es).Pairwise fun a b => a.1.name ≠ b.1.name :=
      pairwise_declared (nodup_of_checkable_typedDict hc)
    refine Json.tidy_map (List.pairwise_map.mpr ?_) fun e hm => ?_
    · exact hp.flip.pairwise hnames fun a b c d hac hbd hcd => hac.1 ▸ hbd.1 ▸ hcd
    · obtain ⟨q, hq, -, he⟩ := hp.exists_of_mem_right hm
      exact part (.entry hq) he
  | optional s => exact branch rfl
  | union ss => exact branch rfl
  | literal ls =>
    obtain ⟨l, -, hl⟩ := encodeValue_literal_eq_ok_iff.mp h
    exact tidy_encodeLiteral hl
  | float =>
    rw [encodeValue.eq_def] at h
    dsimp only at h
    split at h
    · cases h
      exact Json.tidy_of_parts_eq_nil rfl (by simp)
    · exact tidy_encodeFloat h
    · cases h
      exact Json.tidy_toNumeral _
    · cases h
  | decimal =>
    obtain ⟨d, rfl⟩ := conforms_decimal_iff.mp hv
    rw [encodeValue] at h
    cases h
    split
    · exact Json.tidy_toNumeral d
    · exact Json.tidy_of_parts_eq_nil rfl (by simp)
  | _ =>
    rw [encodeValue.eq_def] at h
    dsimp only at h
    repeat' split at h
    all_goals first
      | (cases h; exact Json.tidy_of_parts_eq_nil rfl (by simp))
      | cases h

end Shape

/-- The text of an encoding that can be read back is loaded by decoding the tree that it is read
back as. -/
theorem load_write_eq_ok_iff {o : Settings} {s : Shape} {v w : Value} {j : Json}
    (h : encode o s v = .ok j) (hr : j.Readable) :
    load o s j.write = .ok w ↔ decode o s j.withIntegers = .ok w := by
  obtain ⟨hs, hv, hj⟩ := encode_eq_ok_iff.mp h
  have hc := (Shape.satisfies_encodable_iff.mp hs).1
  have hread := Json.read_write (Shape.tidy_encodeValue hc hv hj).uniqueKeys hr
  rw [load_eq_ok_iff]
  constructor
  · rintro ⟨c, hc, hw⟩
    exact Except.ok.inj (hc.symm.trans hread) ▸ hw
  · exact fun hw => ⟨_, hread, hw⟩

end ShapeCodec
