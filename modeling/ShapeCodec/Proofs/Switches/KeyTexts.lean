import ShapeCodec.Proofs.RoundTrip.Tidy
import ShapeCodec.Proofs.Switches.Scope

/-! # Keys with one text

Two keys of one shape have the same text under all switches or under none. Their encodings are
walked side by side, and read back as one tree under one setting exactly when they are so under the
other. A union could tell two keys apart by its branches, so none may occur.
-/

namespace ShapeCodec

theorem Json.eq_null_of_withIntegers {j : Json} (h : j.withIntegers = .null) : j = .null := by
  cases j with
  | number n =>
    rw [withIntegers, ofNumeral] at h
    split at h <;> cases h
  | list xs => cases h
  | map es => cases h
  | _ => exact h

namespace Shape

/-- No union occurs in a shape; optional shapes are none. -/
def UnionFree (s : Shape) : Prop := ∀ t, Within t s → ∀ ss, t ≠ union ss

variable {o o' : Settings} {s key : Shape} {v w : Value}

theorem unionFree_iff : s.UnionFree ↔ (∀ ss, s ≠ union ss) ∧ ∀ p ∈ s.parts, p.UnionFree :=
  forall_within_iff

theorem UnionFree.part {p : Shape} (h : s.UnionFree) (hp : p ∈ s.parts) : p.UnionFree :=
  (unionFree_iff.mp h).2 p hp

theorem unionFree_of_parts_eq_nil (hp : s.parts = []) (hs : ∀ ss, s ≠ union ss) : s.UnionFree :=
  unionFree_iff.mpr ⟨hs, by simp [hp]⟩

/-- Two values whose encodings are read back as one tree under the first setting have encodings
that are so under the second one. -/
def Merges (o o' : Settings) (s : Shape) (v w : Value) : Prop :=
  ∀ a b c d, encodeValue o s v = .ok a → encodeValue o s w = .ok b →
    encodeValue o' s v = .ok c → encodeValue o' s w = .ok d →
      a.withIntegers = b.withIntegers → c.withIntegers = d.withIntegers

theorem merges_of_direct (hf : s.keyForm = .direct) : Merges o o' s v w := by
  intro a b c d ha hb hc hd he
  rw [encodeValue_congr_of_direct hf] at ha hb
  obtain rfl := Except.ok.inj (ha.symm.trans hc)
  obtain rfl := Except.ok.inj (hb.symm.trans hd)
  exact he

theorem merges_decimal (d e : Decimal) : Merges o o' decimal (.decimal d) (.decimal e) := by
  intro a b a' b' ha hb ha' hb' he
  have hd : a.withIntegers.toDecimal = .ok d := toDecimal_of_encodeValue ha .text
  have hd' : b.withIntegers.toDecimal = .ok e := toDecimal_of_encodeValue hb .text
  rw [he, hd'] at hd
  obtain rfl := Except.ok.inj hd
  rw [Except.ok.inj (ha'.symm.trans hb')]

theorem merges_sequence {k : SequenceKind} {l m : SequenceKind} {xs ys : List Value}
    (h : ∀ x ∈ xs, ∀ y ∈ ys, Merges o o' s x y) :
    Merges o o' (sequence k s) (.sequence l xs) (.sequence m ys) := by
  intro a b c d ha hb hc hd he
  obtain ⟨_, _, as, ⟨⟩, rfl, has⟩ := encodeValue_sequence_eq_ok_iff.mp ha
  obtain ⟨_, _, bs, ⟨⟩, rfl, hbs⟩ := encodeValue_sequence_eq_ok_iff.mp hb
  obtain ⟨_, _, cs, ⟨⟩, rfl, hcs⟩ := encodeValue_sequence_eq_ok_iff.mp hc
  obtain ⟨_, _, ds, ⟨⟩, rfl, hds⟩ := encodeValue_sequence_eq_ok_iff.mp hd
  simp only [Json.withIntegers_list, Json.list.injEq] at he ⊢
  refine List.map_eq_map_of_forall₂ has hbs hcs hds (fun p hp => ?_) he
  exact h _ (List.of_mem_zip hp).1 _ (List.of_mem_zip hp).2

theorem merges_tuple {ss : List Shape} {xs ys : List Value}
    (h : ∀ s x y, (s, x) ∈ ss.zip xs → (s, y) ∈ ss.zip ys → Merges o o' s x y) :
    Merges o o' (tuple ss) (.sequence .tuple xs) (.sequence .tuple ys) := by
  intro a b c d ha hb hc hd he
  obtain ⟨_, as, ⟨⟩, -, rfl, has⟩ := encodeValue_tuple_eq_ok_iff.mp ha
  obtain ⟨_, bs, ⟨⟩, -, rfl, hbs⟩ := encodeValue_tuple_eq_ok_iff.mp hb
  obtain ⟨_, cs, ⟨⟩, -, rfl, hcs⟩ := encodeValue_tuple_eq_ok_iff.mp hc
  obtain ⟨_, ds, ⟨⟩, -, rfl, hds⟩ := encodeValue_tuple_eq_ok_iff.mp hd
  simp only [Json.withIntegers_list, Json.list.injEq] at he ⊢
  refine List.map_eq_map_of_forall₂ has hbs hcs hds (fun p hp => ?_) he
  obtain ⟨s, x, y, rfl, hx, hy⟩ := List.exists_of_mem_zip_zip hp
  exact h s x y hx hy

theorem withIntegers_laidOut (b : Bool) (es : List (String × Json)) :
    (laidOut b es).withIntegers = laidOut b (es.map fun e => (e.1, e.2.withIntegers)) :=
  apply_laidOut (p := .text)

theorem laidOut_eq_laidOut_iff {b : Bool} {es fs : List (String × Json)}
    (hn : es.map (·.1) = fs.map (·.1)) :
    laidOut b es = laidOut b fs ↔ es.map (·.2) = fs.map (·.2) := by
  cases b with
  | true => simp [laidOut]
  | false =>
    have halves : ∀ l : List (String × Json), l = (l.map (·.1)).zip (l.map (·.2)) :=
      fun _ => List.zip_of_prod rfl rfl
    refine ⟨fun h => by rw [Json.map.inj h], fun h => congrArg Json.map ?_⟩
    rw [halves es, halves fs, hn, h]

theorem merges_record (ho : o.castDecimal = o'.castDecimal) {name m n : String}
    {fs : List (Field Shape)} {vs ws : List (String × Value)}
    (hv : (record name fs).conforms o (.record m vs) = true)
    (hw : (record name fs).conforms o (.record n ws) = true)
    (h : ∀ f p q, (f, p) ∈ fs.zip vs → (f, q) ∈ fs.zip ws → Merges o o' f.shape p.2 q.2) :
    Merges o o' (record name fs) (.record m vs) (.record n ws) := by
  intro a b c d ha hb hc hd he
  obtain ⟨_, _, as, ⟨⟩, rfl, has⟩ := encodeValue_record_eq_ok_iff.mp ha
  obtain ⟨_, _, bs, ⟨⟩, rfl, hbs⟩ := encodeValue_record_eq_ok_iff.mp hb
  obtain ⟨_, _, cs, ⟨⟩, rfl, hcs⟩ := encodeValue_record_eq_ok_iff.mp hc
  obtain ⟨_, _, ds, ⟨⟩, rfl, hds⟩ := encodeValue_record_eq_ok_iff.mp hd
  -- both settings put the declared names into the layout
  have layout : ∀ {r es es'}, es.map (·.1) = fs.map (·.name) → es'.map (·.1) = fs.map (·.name) →
      ((laidOut r es).withIntegers = (laidOut r es').withIntegers ↔
        es.map (·.2.withIntegers) = es'.map (·.2.withIntegers)) := by
    intro r es es' hn hn'
    rw [withIntegers_laidOut, withIntegers_laidOut, laidOut_eq_laidOut_iff, List.map_map,
      List.map_map]
    · rfl
    · rw [List.map_map, List.map_map]
      exact hn.trans hn'.symm
  rw [layout (names_of_conforms hv has) (names_of_conforms hw hbs)] at he
  rw [conforms_congr ho] at hv hw
  rw [layout (names_of_conforms hv hcs) (names_of_conforms hw hds)]
  refine List.map_eq_map_of_forall₂ has hbs hcs hds (fun p hp a b c d ha hb hc hd => ?_) he
  obtain ⟨f, x, y, rfl, hx, hy⟩ := List.exists_of_mem_zip_zip hp
  exact h f x y hx hy _ _ _ _ ha.2 hb.2 hc.2 hd.2

theorem encodeValue_optional_cases {c : Json} (h : encodeValue o (optional s) v = .ok c) :
    s.conforms o v = true ∧ encodeValue o s v = .ok c ∨ s.conforms o v = false ∧ c = .null := by
  rw [encodeValue.eq_def] at h
  dsimp only at h
  split at h
  · rename_i hv
    exact .inl ⟨hv, h⟩
  · rename_i hv
    split at h <;> cases h
    exact .inr ⟨by simpa using hv, rfl⟩

theorem merges_optional (ho : o.castDecimal = o'.castDecimal)
    (h : s.conforms o v = true → s.conforms o w = true → Merges o o' s v w) :
    Merges o o' (optional s) v w := by
  intro a b c d ha hb hc hd he
  have hnull : ∀ {x j}, encodeValue o s x = .ok j → Json.null.withIntegers = j.withIntegers →
      encodeValue o' s x = .ok .null := fun hj hn =>
    encodeValue_eq_null ho (hj.trans (congrArg _ (Json.eq_null_of_withIntegers hn.symm)))
  have hc' := encodeValue_optional_cases hc
  have hd' := encodeValue_optional_cases hd
  rw [← conforms_congr ho] at hc' hd'
  rcases encodeValue_optional_cases ha with ⟨hv, ha⟩ | ⟨hv, rfl⟩ <;>
    rcases encodeValue_optional_cases hb with ⟨hw, hb⟩ | ⟨hw, rfl⟩ <;>
    simp only [hv, hw, true_and, false_and, or_false, false_or, Bool.true_eq_false,
      Bool.false_eq_true] at hc' hd'
  · exact h hv hw a b c d ha hb hc' hd' he
  · rw [hd', Except.ok.inj (hc'.symm.trans (hnull ha he.symm))]
  · rw [hc', Except.ok.inj (hd'.symm.trans (hnull hb he))]
  · rw [hc', hd']

/-- Encodings that merge under one setting do so under all that cast decimals alike. -/
theorem merges (ho : o.castDecimal = o'.castDecimal) (hc : s.checkable = true)
    (hh : s.hashable = true) (hu : s.UnionFree) (hv : s.conforms o v = true)
    (hw : s.conforms o w = true) : Merges o o' s v w := by
  induction s using inductionParts generalizing v w with
  | step s ih =>
  obtain ⟨hmutable, hparts⟩ := hashable_iff.mp hh
  have part : ∀ p ∈ s.parts, ∀ x y, p.conforms o x = true → p.conforms o y = true →
      Merges o o' p x y := fun p hp _ _ =>
    ih p hp (checkable_of_mem_parts hc hp) (hparts p hp) (hu.part hp)
  cases s with
  | any => exact (hmutable trivial).elim
  | mapping => exact (hmutable trivial).elim
  | typedDict => exact (hmutable trivial).elim
  | union ss => exact ((unionFree_iff.mp hu).1 ss rfl).elim
  | ellipsis =>
    intro a b c d _ _ hc hd _
    rw [encodeValue] at hc hd
    rw [← Except.ok.inj hc, ← Except.ok.inj hd]
  | decimal =>
    obtain ⟨d, rfl⟩ := conforms_decimal_iff.mp hv
    obtain ⟨e, rfl⟩ := conforms_decimal_iff.mp hw
    exact merges_decimal d e
  | sequence k s =>
    obtain ⟨xs, rfl, hx⟩ := conforms_sequence_iff.mp hv
    obtain ⟨ys, rfl, hy⟩ := conforms_sequence_iff.mp hw
    exact merges_sequence fun x hxm y hym =>
      part s (List.mem_singleton.mpr rfl) x y (hx x hxm) (hy y hym)
  | tuple ss =>
    obtain ⟨xs, rfl, hx⟩ := conforms_tuple_iff.mp hv
    obtain ⟨ys, rfl, hy⟩ := conforms_tuple_iff.mp hw
    exact merges_tuple fun s x y hxm hym => part s (List.of_mem_zip hxm).1 x y
      ((List.forall₂_iff_zip.mp hx).2 hxm) ((List.forall₂_iff_zip.mp hy).2 hym)
  | optional s => exact merges_optional ho (part s (List.mem_singleton.mpr rfl) v w)
  | record name fs =>
    obtain ⟨m, vs, rfl, hvs⟩ := conforms_record_iff.mp hv
    obtain ⟨n, ws, rfl, hws⟩ := conforms_record_iff.mp hw
    exact merges_record ho hv hw fun f p q hp hq => part f.shape
      (mem_parts_record (List.of_mem_zip hp).1) p.2 q.2
      ((List.forall₂_iff_zip.mp hvs).2 hp).2 ((List.forall₂_iff_zip.mp hws).2 hq).2
  | _ => exact merges_of_direct rfl

end Shape

end ShapeCodec
