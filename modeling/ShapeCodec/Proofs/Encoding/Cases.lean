import ShapeCodec.Encoding
import ShapeCodec.Proofs.Decoding.Parts

/-! # Encoding by cases

The recursions of the encoder through lists of parts as one traversal, whose result or first error
comes from its members, and when the keys and values of a map make up its entries.
-/

namespace ShapeCodec

namespace Shape

variable {o : Settings}

attribute [local simp] encodeItems encodeBranch encodeFields encodeKeys

theorem encodeItems_eq {ss : List Shape} {xs : List Value} :
    encodeItems o ss xs = (ss.zip xs).mapM fun p => encodeValue o p.1 p.2 := by
  induction ss generalizing xs with
  | nil => simp [pure, Except.pure]
  | cons s ss ih => cases xs <;> simp [ih, pure, Except.pure]

theorem encodeFields_eq {fs : List (Field Shape)} {vs : List (String × Value)} :
    encodeFields o fs vs =
      (fs.zip vs).mapM fun p => (encodeValue o p.1.shape p.2.2).map (p.2.1, ·) := by
  induction fs generalizing vs with
  | nil => simp [pure, Except.pure]
  | cons f fs ih =>
    cases vs with
    | nil => simp [pure, Except.pure]
    | cons p vs =>
      rw [List.zip_cons_cons, List.mapM_cons, ← ih]
      cases h : encodeValue o f.shape p.2 <;> simp [h, Except.map, bind, Except.bind]

/-- The values of the declared keys that are there, in the order of the declarations. -/
def declared (ks : List (Key Shape)) (es : List (Value × Value)) : List (Key Shape × Value) :=
  ks.filterMap fun k => (Value.lookup? es (.str k.name)).map (k, ·)

theorem mem_declared {ks : List (Key Shape)} {es : List (Value × Value)} {k : Key Shape}
    {v : Value} :
    (k, v) ∈ declared ks es ↔ k ∈ ks ∧ Value.lookup? es (.str k.name) = some v := by
  simp [declared]

theorem encodeKeys_eq {ks : List (Key Shape)} {es : List (Value × Value)} :
    encodeKeys o ks es =
      (declared ks es).mapM fun p => (encodeValue o p.1.shape p.2).map (p.1.name, ·) := by
  induction ks with
  | nil => simp [declared, pure, Except.pure]
  | cons k ks ih =>
    cases hv : Value.lookup? es (.str k.name) with
    | none =>
      rw [show declared (k :: ks) es = declared ks es by simp [declared, hv]]
      simp [hv, ih]
    | some v =>
      rw [show declared (k :: ks) es = (k, v) :: declared ks es by simp [declared, hv],
        List.mapM_cons, ← ih]
      cases h : encodeValue o k.shape v <;> simp [hv, h, Except.map, bind, Except.bind]

theorem encodeBranch_eq {whole : Shape} {ss : List Shape} {v : Value} :
    encodeBranch o whole ss v = match ss.find? (conforms o · v) with
      | some s => encodeValue o s v
      | Option.none => .error (.notInstance v whole) := by
  induction ss with
  | nil => simp
  | cons s ss ih => cases h : conforms o s v <;> simp [h, ih]

/-! ## Keys and entries -/

def keyTextOf (o : Settings) (key : Shape) (x : Value) : Except Reason String :=
  encodeValue o key x >>= keyText key x

theorem keyTextOf_eq_ok_iff {key : Shape} {x : Value} {text : String} :
    keyTextOf o key x = .ok text ↔ ∃ j, encodeValue o key x = .ok j ∧
      (key.keyForm = .stringified ∧ j.write = text ∨
        key.keyForm = .direct ∧ j.scalarText? = some text) := by
  rw [keyTextOf, bind_eq_ok_iff]
  refine exists_congr fun j => and_congr_right fun _ => ?_
  rw [keyText]
  cases key.keyForm with
  | stringified => simp
  | direct => cases j.scalarText? <;> simp

variable {whole : List (Value × Value)} {key : Value → Except Reason String}
  {value : Value → Except Reason Json}

/-- Entries are encoded when each of them is and no text comes twice. -/
theorem encodeEntries_eq_ok_iff {done out : List (String × Json)} {es : List (Value × Value)} :
    encodeEntries whole key value done es = .ok out ↔ ∃ ps,
      List.Forall₂ (fun e p => key e.1 = .ok p.1 ∧ value e.2 = .ok p.2) es ps ∧
      (∀ p ∈ ps, ∀ q ∈ done, q.1 ≠ p.1) ∧ ps.Pairwise (fun a b => a.1 ≠ b.1) ∧
      out = done.reverse ++ ps := by
  induction es generalizing done with
  | nil =>
    constructor
    · intro h
      exact ⟨[], .nil, by simp, .nil, by simpa [encodeEntries] using h.symm⟩
    · rintro ⟨_, ⟨⟩, _, _, rfl⟩
      simp [encodeEntries]
  | cons e es ih =>
    rw [encodeEntries]
    simp only [bind_eq_ok_iff]
    constructor
    · rintro ⟨t, ht, j, hj, h⟩
      split at h
      · cases h
      · rename_i hd
        obtain ⟨ps, hp, hf, hn, rfl⟩ := ih.mp h
        refine ⟨(t, j) :: ps, .cons ⟨ht, hj⟩ hp, ?_, ?_, by simp⟩
        · rintro p (_ | ⟨_, hm⟩) q hq
          · exact fun he => hd (List.any_eq_true.mpr ⟨q, hq, by simpa using he⟩)
          · exact hf p hm q (List.mem_cons_of_mem _ hq)
        · exact .cons (fun p hm => hf p hm (t, j) List.mem_cons_self) hn
    · rintro ⟨_, _ | @⟨_, p, _, ps, ⟨ht, hj⟩, hp⟩, hf, hn, rfl⟩
      rw [List.pairwise_cons] at hn
      have hd : ¬ done.any (·.1 == p.1) = true := by
        intro h
        obtain ⟨q, hq, he⟩ := List.any_eq_true.mp h
        exact hf p List.mem_cons_self q hq (by simpa using he)
      refine ⟨p.1, ht, p.2, hj, ?_⟩
      rw [if_neg hd, ih]
      refine ⟨ps, hp, fun x hx q hq => ?_, hn.2, by simp⟩
      rcases List.mem_cons.mp hq with rfl | hq
      · exact hn.1 x hx
      · exact hf x (List.mem_cons_of_mem _ hx) q hq

/-- Entries fail to be encoded by one of them, or by a text that comes twice. -/
theorem exists_of_encodeEntries_eq_error {done : List (String × Json)}
    {es : List (Value × Value)} {r : Reason}
    (h : encodeEntries whole key value done es = .error r) :
    (∃ e ∈ es, key e.1 = .error r ∨ value e.2 = .error r) ∨
      ∃ t, r = .collidingKeys whole t ∧ ((∃ q ∈ done, q.1 = t ∧ ∃ e ∈ es, key e.1 = .ok t) ∨
        ∃ a b, [a, b].Sublist es ∧ key a.1 = .ok t ∧ key b.1 = .ok t) := by
  induction es generalizing done with
  | nil => cases h
  | cons e es ih =>
    rw [encodeEntries] at h
    simp only [bind_eq_error_iff] at h
    rcases h with h | ⟨t, ht, h | ⟨j, _, h⟩⟩
    · exact .inl ⟨_, List.mem_cons_self, .inl h⟩
    · exact .inl ⟨_, List.mem_cons_self, .inr h⟩
    split at h
    · rename_i hd
      obtain ⟨q, hq, he⟩ := List.any_eq_true.mp hd
      obtain rfl := Except.error.inj h
      exact .inr ⟨t, rfl, .inl ⟨q, hq, by simpa using he, _, List.mem_cons_self, ht⟩⟩
    rcases ih h with ⟨x, hx, hr⟩ | ⟨u, rfl, ⟨q, hq, rfl, x, hx, hu⟩ | ⟨a, b, hs, ha, hb⟩⟩
    · exact .inl ⟨x, List.mem_cons_of_mem _ hx, hr⟩
    · refine .inr ⟨_, rfl, ?_⟩
      rcases List.mem_cons.mp hq with rfl | hq
      · exact .inr ⟨_, x, .cons_cons _ (List.singleton_sublist.mpr hx), ht, hu⟩
      · exact .inl ⟨q, hq, rfl, x, List.mem_cons_of_mem _ hx, hu⟩
    · exact .inr ⟨u, rfl, .inr ⟨a, b, hs.cons _, ha, hb⟩⟩

/-! ## Constructors -/

section Constructors

attribute [local simp] encodeValue

variable {v : Value} {j : Json}

theorem encodeValue_sequence_eq_ok_iff {k : SequenceKind} {s : Shape} :
    encodeValue o (sequence k s) v = .ok j ↔ ∃ l xs js, v = .sequence l xs ∧ j = .list js ∧
      List.Forall₂ (fun x y => encodeValue o s x = .ok y) xs js := by
  cases v with
  | sequence l xs =>
    rw [encodeValue, map_eq_ok_iff]
    constructor
    · rintro ⟨js, hj, rfl⟩
      exact ⟨l, xs, js, rfl, rfl, mapM_eq_ok_iff.mp hj⟩
    · rintro ⟨_, _, js, ⟨⟩, rfl, hj⟩
      exact ⟨js, mapM_eq_ok_iff.mpr hj, rfl⟩
  | _ => simp

theorem encodeValue_tuple_eq_ok_iff {ss : List Shape} :
    encodeValue o (tuple ss) v = .ok j ↔ ∃ xs js, v = .sequence .tuple xs ∧
      xs.length = ss.length ∧ j = .list js ∧
      List.Forall₂ (fun p y => encodeValue o p.1 p.2 = .ok y) (ss.zip xs) js := by
  constructor
  · intro h
    rw [encodeValue.eq_def] at h
    dsimp only at h
    split at h
    · rename_i xs
      split at h
      · rename_i hl
        rw [encodeItems_eq] at h
        obtain ⟨js, hj, rfl⟩ := map_eq_ok_iff.mp h
        exact ⟨xs, js, rfl, hl, rfl, mapM_eq_ok_iff.mp hj⟩
      · cases h
    · cases h
  · rintro ⟨xs, js, rfl, hl, rfl, hj⟩
    rw [encodeValue, if_pos hl, encodeItems_eq, map_eq_ok_iff]
    exact ⟨js, mapM_eq_ok_iff.mpr hj, rfl⟩

theorem encodeValue_mapping_eq_ok_iff {k : MappingKind} {key value : Shape} :
    encodeValue o (mapping k key value) v = .ok j ↔ ∃ l es ps, v = .map l es ∧ j = .map ps ∧
      List.Forall₂ (fun e p => keyTextOf o key e.1 = .ok p.1 ∧ encodeValue o value e.2 = .ok p.2)
        es ps ∧ ps.Pairwise fun a b => a.1 ≠ b.1 := by
  cases v with
  | map l es =>
    rw [encodeValue, map_eq_ok_iff]
    constructor
    · rintro ⟨_, h, rfl⟩
      obtain ⟨ps, hp, -, hn, rfl⟩ := encodeEntries_eq_ok_iff.mp h
      exact ⟨l, es, _, rfl, rfl, hp, hn⟩
    · rintro ⟨_, _, ps, ⟨⟩, rfl, hp, hn⟩
      exact ⟨ps, encodeEntries_eq_ok_iff.mpr ⟨ps, hp, by simp, hn, rfl⟩, rfl⟩
  | _ => simp

def laidOut (asList : Bool) (es : List (String × Json)) : Json :=
  if asList then .list (es.map (·.2)) else .map es

theorem encodeValue_record_eq_ok_iff {name : String} {fs : List (Field Shape)} :
    encodeValue o (record name fs) v = .ok j ↔ ∃ n vs ps, v = .record n vs ∧
      j = laidOut o.recordsAsLists ps ∧
      List.Forall₂ (fun q p => q.2.1 = p.1 ∧ encodeValue o q.1.shape q.2.2 = .ok p.2)
        (fs.zip vs) ps := by
  cases v with
  | record n vs =>
    rw [encodeValue, map_eq_ok_iff, encodeFields_eq]
    simp only [mapM_eq_ok_iff, map_pair_eq_ok_iff]
    constructor
    · rintro ⟨ps, hp, rfl⟩
      exact ⟨n, vs, ps, rfl, rfl, hp⟩
    · rintro ⟨_, _, ps, ⟨⟩, rfl, hp⟩
      exact ⟨ps, hp, rfl⟩
  | _ => simp

theorem encodeValue_typedDict_eq_ok_iff {name : String} {ks : List (Key Shape)} :
    encodeValue o (typedDict name ks) v = .ok j ↔ ∃ l es ps, v = .map l es ∧ j = .map ps ∧
      List.Forall₂ (fun q p => q.1.name = p.1 ∧ encodeValue o q.1.shape q.2 = .ok p.2)
        (declared ks es) ps := by
  cases v with
  | map l es =>
    rw [encodeValue, map_eq_ok_iff, encodeKeys_eq]
    simp only [mapM_eq_ok_iff, map_pair_eq_ok_iff]
    constructor
    · rintro ⟨ps, hp, rfl⟩
      exact ⟨l, es, ps, rfl, rfl, hp⟩
    · rintro ⟨_, _, ps, ⟨⟩, rfl, hp⟩
      exact ⟨ps, hp, rfl⟩
  | _ => simp

theorem encodeValue_literal_eq_ok_iff {ls : List Literal} :
    encodeValue o (literal ls) v = .ok j ↔
      ∃ l, ls.find? (·.fits v) = some l ∧ encodeLiteral l = .ok j := by
  rw [encodeValue]
  cases ls.find? (·.fits v) <;> simp

end Constructors

end Shape

end ShapeCodec
