import ShapeCodec.Decoding
import ShapeCodec.Proofs.Lists
import ShapeCodec.Proofs.Results

/-! # Results put together from parts

When the results of the parts of a JSON tree make a result of the whole: exactly when every part has
one, and in a map also when no key comes twice.
-/

namespace ShapeCodec

namespace Shape

section Results

variable {ε α β : Type}

theorem errors_eq_nil_iff {parts : List (Except ε α)} :
    errors parts = [] ↔ ∃ vs : List α, parts = vs.map .ok := by
  induction parts with
  | nil => exact ⟨fun _ => ⟨[], rfl⟩, fun _ => rfl⟩
  | cons p parts ih =>
    cases p with
    | ok v =>
      constructor
      · intro h
        obtain ⟨vs, hv⟩ := ih.mp (by simpa [errors] using h)
        exact ⟨v :: vs, by rw [hv, List.map_cons]⟩
      · rintro ⟨_ | ⟨w, vs⟩, hv⟩
        · cases hv
        · simpa [errors] using ih.mpr ⟨vs, (List.cons.inj hv).2⟩
    | error e =>
      constructor
      · intro h
        simp [errors] at h
      · rintro ⟨_ | ⟨w, vs⟩, hv⟩
        · cases hv
        · cases (List.cons.inj hv).1

@[simp] theorem errors_map_ok (vs : List α) : errors (vs.map (.ok : α → Except ε α)) = [] :=
  errors_eq_nil_iff.mpr ⟨vs, rfl⟩

@[simp] theorem values_map_ok (vs : List α) : values (vs.map (.ok : α → Except ε α)) = vs := by
  simp [values, List.filterMap_map]

theorem map_eq_map_ok_iff {f : β → Except ε α} {xs : List β} {vs : List α} :
    xs.map f = vs.map .ok ↔ List.Forall₂ (fun x v => f x = .ok v) xs vs := by
  induction xs generalizing vs with
  | nil => cases vs <;> simp
  | cons x xs ih => cases vs <;> simp [ih]

end Results

variable {s : Shape} {j : Json} {v : Value}

@[simp] theorem ofScalar_eq_ok_iff {r : Except Obstacle Value} :
    ofScalar s j r = .ok v ↔ r = .ok v :=
  mapError_eq_ok_iff

theorem ofMembers_eq_ok_iff {kind : SequenceKind} {parts : List (Decoded Value)} :
    ofMembers s j kind parts = .ok v ↔ ∃ vs, parts = vs.map .ok ∧ v = .ofItems kind vs := by
  constructor
  · intro h
    unfold ofMembers at h
    split at h
    · rename_i he
      obtain ⟨vs, rfl⟩ := errors_eq_nil_iff.mp he
      rw [values_map_ok] at h
      exact ⟨vs, rfl, (Except.ok.inj h).symm⟩
    · cases h
  · rintro ⟨vs, rfl, rfl⟩
    simp [ofMembers]

theorem ofPositions_eq_ok_iff {parts : List (Decoded Value)} :
    ofPositions s j parts = .ok v ↔ ∃ vs, parts = vs.map .ok ∧ v = .sequence .tuple vs := by
  constructor
  · intro h
    unfold ofPositions at h
    split at h
    · rename_i he
      obtain ⟨vs, rfl⟩ := errors_eq_nil_iff.mp he
      rw [values_map_ok] at h
      exact ⟨vs, rfl, (Except.ok.inj h).symm⟩
    · cases h
  · rintro ⟨vs, rfl, rfl⟩
    simp [ofPositions]

theorem ofSlots_eq_ok_iff {α : Type} {before after : List Problem} {slots : List (Slot α)}
    {build : List α → Value} :
    ofSlots s j before after slots build = .ok v ↔
      before = [] ∧ after = [] ∧ ∃ vs, slots = vs.map .ok ∧ v = build vs := by
  constructor
  · intro h
    unfold ofSlots at h
    split at h
    · rename_i he
      simp only [List.append_eq_nil_iff, List.map_eq_nil_iff] at he
      obtain ⟨⟨hb, hs⟩, ha⟩ := he
      obtain ⟨vs, rfl⟩ := errors_eq_nil_iff.mp hs
      rw [values_map_ok] at h
      exact ⟨hb, ha, vs, rfl, (Except.ok.inj h).symm⟩
    · cases h
  · rintro ⟨rfl, rfl, vs, rfl, rfl⟩
    simp [ofSlots]

theorem ofEntries_eq_ok_iff {kind : MapKind}
    {r : Except (List Reason × Obstacle) (List (Value × Value))} :
    ofEntries s j kind r = .ok v ↔ ∃ es, r = .ok es ∧ v = .map kind es := by
  cases r with
  | ok es => simp [ofEntries, eq_comm]
  | error e => simp [ofEntries]

/-! ## Keys and entries -/

section Entries

variable {decode : Json → Decoded Value} {key : String → Decoded Value}
  {value : Json → Decoded Value}

theorem firstDecoded_eq_ok_iff {cs : List Json} :
    firstDecoded decode cs = .ok v ↔ cs.findSome? (fun c => (decode c).toOption) = some v := by
  cases cs with
  | nil => simp [firstDecoded]
  | cons c cs =>
    cases hc : decode c with
    | ok w => simp [firstDecoded, hc, Except.toOption]
    | error rs =>
      have hn : (decode c).toOption = Option.none := by rw [hc]; rfl
      rw [firstDecoded, List.findSome?_cons, hn, hc]
      cases cs.findSome? fun c => (decode c).toOption <;> simp

theorem exists_of_firstDecoded {cs : List Json} (h : firstDecoded decode cs = .ok v) :
    ∃ c ∈ cs, decode c = .ok v := by
  obtain ⟨c, hc, hv⟩ := List.exists_of_findSome?_eq_some (firstDecoded_eq_ok_iff.mp h)
  exact ⟨c, hc, toOption_eq_some_iff.mp hv⟩

theorem firstDecoded_of_head {c : Json} {cs : List Json} (h : decode c = .ok v) :
    firstDecoded decode (c :: cs) = .ok v := by
  rw [firstDecoded, h]

theorem exists_of_decodeKeyText {text : String} (h : decodeKeyText s decode text = .ok v) :
    ∃ c, (c = .str text ∨ Json.read text = .ok c) ∧ decode c = .ok v := by
  unfold decodeKeyText at h
  split at h
  · obtain ⟨c, hc, hv⟩ := exists_of_firstDecoded h
    refine ⟨c, ?_, hv⟩
    rcases List.mem_append.mp hc with hc | hc
    · right
      split at hc
      · cases hc
      · cases hc
      · split at hc
        · rename_i j hj
          split at hc
          · rwa [List.mem_singleton.mp hc]
          · cases hc
        · cases hc
    · exact .inl (List.mem_singleton.mp hc)
  · split at h
    · rename_i j hj
      exact ⟨j, .inr hj, h⟩
    · cases h

/-- Entries decode when each of them does and no key is the same as one before it. -/
theorem decodeEntries_eq_ok_iff {done out : List (Value × Value)} {failed : List String}
    {log : List Reason} {es : List (String × Json)} :
    decodeEntries key value done failed log es = .ok out ↔ failed = [] ∧ ∃ ps,
      List.Forall₂ (fun e p => key e.1 = .ok p.1 ∧ value e.2 = .ok p.2) es ps ∧
      (∀ p ∈ ps, Value.hasKey done p.1 = false) ∧
      ps.Pairwise (fun a b => b.1.same a.1 = false) ∧ out = done ++ ps := by
  induction es generalizing done failed log with
  | nil =>
    cases failed with
    | nil =>
      simp only [decodeEntries, List.isEmpty_nil, if_true, Except.ok.injEq, true_and]
      constructor
      · rintro rfl
        exact ⟨[], .nil, by simp, .nil, by simp⟩
      · rintro ⟨_, ⟨⟩, _, _, rfl⟩
        simp
    | cons t failed => simp [decodeEntries]
  | cons e es ih =>
    obtain ⟨t, x⟩ := e
    unfold decodeEntries
    split
    · rename_i k w hk hw
      have hany : ∀ a : Value × Value, Value.hasKey (done ++ [(k, w)]) a.1 = false ↔
          Value.hasKey done a.1 = false ∧ a.1.same k = false := by
        simp [Value.hasKey]
      split
      · rename_i hd
        simp only [reduceCtorEq, false_iff, not_and, not_exists]
        rintro - _ (_ | @⟨_, p, _, ps, ⟨hk', hw'⟩, _⟩) hf _ _
        obtain rfl : k = p.1 := Except.ok.inj (hk.symm.trans hk')
        rw [hf p List.mem_cons_self] at hd
        cases hd
      · rename_i hd
        rw [ih]
        refine and_congr_right fun _ => ⟨?_, ?_⟩
        · rintro ⟨ps, hp, hf, hd', rfl⟩
          refine ⟨(k, w) :: ps, .cons ⟨hk, hw⟩ hp, ?_, ?_, by simp⟩
          · rintro p (_ | ⟨_, hm⟩)
            · simpa using hd
            · exact ((hany p).mp (hf p hm)).1
          · exact .cons (fun p hm => ((hany p).mp (hf p hm)).2) hd'
        · rintro ⟨_, _ | @⟨_, ⟨k', w'⟩, _, ps, ⟨hk', hw'⟩, hp⟩, hf, hd', rfl⟩
          obtain rfl : k = k' := Except.ok.inj (hk.symm.trans hk')
          obtain rfl : w = w' := Except.ok.inj (hw.symm.trans hw')
          rw [List.pairwise_cons] at hd'
          exact ⟨ps, hp, fun p hm => (hany p).mpr
            ⟨hf p (List.mem_cons_of_mem _ hm), hd'.1 p hm⟩, hd'.2, by simp⟩
    · rename_i hne
      rw [ih]
      constructor
      · rintro ⟨h, _⟩
        simp at h
      · rintro ⟨_, _, _ | ⟨⟨hk', hw'⟩, _⟩, _⟩
        exact (hne _ _ hk' hw').elim

end Entries

end Shape

end ShapeCodec
