import Mathlib
import ShapeCodec.Proofs.Decoding.WellFormed
import ShapeCodec.Proofs.Gates

/-! # Entries of a map, one for one

A map decodes when the text of each key stands for a key, each value decodes and no two keys are
the same. The result has one entry for each entry of the tree, in the same order: nothing is lost,
merged or overwritten on the way.
-/

namespace ShapeCodec

namespace Shape

variable {o : Settings} {key : Shape} {text : String} {j : Json} {k : Value}

/-! ## The key that a text stands for -/

/-- The text of a key is also a JSON scalar. Strings and members of enums are never read in this
way. -/
structure ReadsScalar (key : Shape) (text : String) (j : Json) : Prop where
  direct : key.keyForm = .direct
  not_str : key ≠ str
  not_enum : ∀ name ms, key ≠ enum name ms
  read : Json.read text = .ok j
  scalar : j.scalarText?.isSome = true

/-- The key that a text stands for. A direct key decodes from the scalar that the text spells, or
else from the text as a string; any other key decodes from the tree that the text spells. -/
inductive StandsForKey (o : Settings) (key : Shape) (text : String) (k : Value) : Prop
  | scalar (j : Json) : ReadsScalar key text j → decode o key j = .ok k → StandsForKey o key text k
  | string : key.keyForm = .direct → (∀ j, ReadsScalar key text j → ∀ w, decode o key j ≠ .ok w) →
      decode o key (.str text) = .ok k → StandsForKey o key text k
  | tree (j : Json) : key.keyForm = .stringified → Json.read text = .ok j →
      decode o key j = .ok k → StandsForKey o key text k

theorem ReadsScalar.unique {i : Json} (hi : ReadsScalar key text i) (hj : ReadsScalar key text j) :
    i = j := Except.ok.inj (hi.read.symm.trans hj.read)

theorem standsForKey_iff_of_readsScalar (hr : ReadsScalar key text j) :
    StandsForKey o key text k ↔ decode o key j = .ok k ∨
      (∀ w, decode o key j ≠ .ok w) ∧ decode o key (.str text) = .ok k := by
  constructor
  · rintro (⟨i, hi, hk⟩ | ⟨-, hn, hk⟩ | ⟨_, hf, -, -⟩)
    · exact .inl (hi.unique hr ▸ hk)
    · exact .inr ⟨hn j hr, hk⟩
    · cases hr.direct.symm.trans hf
  · rintro (hk | ⟨hn, hk⟩)
    · exact .scalar j hr hk
    · exact .string hr.direct (fun i hi => hi.unique hr ▸ hn) hk

theorem standsForKey_iff_of_not_readsScalar (hf : key.keyForm = .direct)
    (hr : ∀ j, ¬ ReadsScalar key text j) :
    StandsForKey o key text k ↔ decode o key (.str text) = .ok k := by
  constructor
  · rintro (⟨i, hi, -⟩ | ⟨-, -, hk⟩ | ⟨_, ht, -, -⟩)
    · exact (hr i hi).elim
    · exact hk
    · cases hf.symm.trans ht
  · exact .string hf fun j hj => (hr j hj).elim

theorem standsForKey_iff_of_stringified (hf : key.keyForm = .stringified) :
    StandsForKey o key text k ↔ ∃ j, Json.read text = .ok j ∧ decode o key j = .ok k := by
  constructor
  · rintro (⟨_, hr, -⟩ | ⟨ht, -, -⟩ | ⟨j, -, hj, hk⟩)
    · cases hf.symm.trans hr.direct
    · cases hf.symm.trans ht
    · exact ⟨j, hj, hk⟩
  · rintro ⟨j, hj, hk⟩
    exact .tree j hf hj hk

/-! ## Key texts decode to what they stand for -/

theorem keyCandidates_of_readsScalar (h : ReadsScalar key text j) :
    keyCandidates key text = [j, .str text] := by
  cases key with
  | str => exact absurd rfl h.not_str
  | enum name ms => exact absurd rfl (h.not_enum name ms)
  | _ => simp [keyCandidates, h.read, h.scalar]

theorem keyCandidates_of_not_readsScalar (hf : key.keyForm = .direct)
    (h : ∀ j, ¬ ReadsScalar key text j) : keyCandidates key text = [.str text] := by
  have hs : key ≠ str → (∀ name ms, key ≠ enum name ms) → ∀ j, Json.read text = .ok j →
      j.scalarText?.isSome = false := fun hs he j hj =>
    Bool.eq_false_iff.mpr fun hsc => h j ⟨hf, hs, he, hj, hsc⟩
  cases key with
  | str => rfl
  | enum name ms => rfl
  | _ =>
    have hs := hs nofun nofun
    cases hj : Json.read text with
    | ok j => simp [keyCandidates, hj, hs j hj]
    | error e => simp [keyCandidates, hj]

theorem firstDecoded_pair_eq_ok_iff {decode : Json → Decoded Value} {c d : Json} :
    firstDecoded decode [c, d] = .ok k ↔
      decode c = .ok k ∨ (∀ w, decode c ≠ .ok w) ∧ decode d = .ok k := by
  rw [firstDecoded]
  cases hc : decode c with
  | ok w => simp
  | error rs => cases hd : decode d <;> simp [hd, Except.toOption]

theorem firstDecoded_singleton {decode : Json → Decoded Value} {c : Json} :
    firstDecoded decode [c] = decode c := by
  rw [firstDecoded]
  cases decode c <;> rfl

theorem decodeKeyText_eq_ok_iff (hs : key.satisfies .encodable = true) :
    decodeKeyText key (decodeJson o key) text = .ok k ↔ StandsForKey o key text k := by
  have hd : ∀ j w, decodeJson o key j = .ok w ↔ decode o key j = .ok w := fun j w =>
    (decode_eq_ok_iff.trans (and_iff_right hs)).symm
  rw [decodeKeyText]
  cases hf : key.keyForm with
  | direct =>
    by_cases hr : ∃ j, ReadsScalar key text j
    · obtain ⟨j, hr⟩ := hr
      simp only [standsForKey_iff_of_readsScalar hr, keyCandidates_of_readsScalar hr,
        firstDecoded_pair_eq_ok_iff, hd, ne_eq]
    · have hr : ∀ j, ¬ ReadsScalar key text j := not_exists.mp hr
      simp only [standsForKey_iff_of_not_readsScalar hf hr, keyCandidates_of_not_readsScalar hf hr,
        firstDecoded_singleton, hd]
  | stringified =>
    rw [standsForKey_iff_of_stringified hf]
    cases hj : Json.read text with
    | ok j => simp [hd]
    | error e => simp

theorem StandsForKey.unique (hs : key.satisfies .encodable = true) {k' : Value}
    (h : StandsForKey o key text k) (h' : StandsForKey o key text k') : k = k' :=
  Except.ok.inj (((decodeKeyText_eq_ok_iff hs).mpr h).symm.trans
    ((decodeKeyText_eq_ok_iff hs).mpr h'))

theorem StandsForKey.wellFormed (hs : key.satisfies .encodable = true)
    (hd : key.DefaultsWellFormed) (h : StandsForKey o key text k) : k.WellFormed := by
  obtain ⟨c, hc, hk⟩ := uniqueKeys_of_decodeKeyText ((decodeKeyText_eq_ok_iff hs).mpr h)
  exact wellFormed_of_decodeJson hd hc hk

/-! ## Maps -/

variable {kind : MappingKind} {value : Shape} {es : List (String × Json)} {v : Value}

theorem decode_mapping_eq_ok_iff (hs : (mapping kind key value).satisfies .encodable = true) :
    decode o (mapping kind key value) (.map es) = .ok v ↔ ∃ ps,
      List.Forall₂ (fun e p => StandsForKey o key e.1 p.1 ∧ decode o value e.2 = .ok p.2) es ps ∧
      ps.Pairwise (fun a b => b.1.same a.1 = false) ∧ v = .map kind.built ps := by
  have hkey : key.satisfies .encodable = true := satisfies_of_mem_parts hs (by simp)
  have hvalue : value.satisfies .encodable = true := satisfies_of_mem_parts hs (by simp)
  rw [decode_eq_ok_iff, and_iff_right hs, decodeJson_mapping_eq_ok_iff]
  simp only [decodeKeyText_eq_ok_iff hkey, decode_eq_ok_iff, hvalue, true_and]
  constructor
  · rintro ⟨_, ps, ⟨⟩, h⟩
    exact ⟨ps, h⟩
  · rintro ⟨ps, h⟩
    exact ⟨es, ps, rfl, h⟩

/-- The keys of a map are different from those that came before exactly when any two of them are
different, whichever is compared with the other. -/
theorem pairwise_keys_iff (hs : key.satisfies .encodable = true) (hd : key.DefaultsWellFormed)
    {ps : List (Value × Value)}
    (h : List.Forall₂ (fun e p => StandsForKey o key e.1 p.1 ∧ decode o value e.2 = .ok p.2)
      es ps) :
    ps.Pairwise (fun a b => b.1.same a.1 = false) ↔
      es.Pairwise fun d e => ∀ a b, StandsForKey o key d.1 a → StandsForKey o key e.1 b →
        a.same b = false ∧ b.same a = false := by
  constructor
  · intro hn
    apply h.pairwise hn
    rintro d e p q ⟨hp, -⟩ ⟨hq, -⟩ hqp a b ha hb
    obtain rfl := ha.unique hs hp
    obtain rfl := hb.unique hs hq
    have hcomm := Value.same_comm (ha.wellFormed hs hd) (hb.wellFormed hs hd)
    exact ⟨hcomm.trans hqp, hqp⟩
  · intro hn
    apply h.flip.pairwise hn
    rintro p q d e ⟨hp, -⟩ ⟨hq, -⟩ hne
    exact (hne p.1 q.1 hp hq).2

end Shape

/-- A map decodes exactly when every key text stands for a key, every value decodes and no two of
the keys are the same. What it decodes to has the decoded entries, one for each and in their
order. -/
theorem decode_map_one_for_one {o : Settings} {kind : MappingKind} {key value : Shape}
    (hs : (Shape.mapping kind key value).satisfies .encodable = true)
    (hd : key.DefaultsWellFormed) (es : List (String × Json)) :
    ((∃ v, decode o (.mapping kind key value) (.map es) = .ok v) ↔
      (∀ e ∈ es, ∃ k, Shape.StandsForKey o key e.1 k) ∧
      (∀ e ∈ es, ∃ x, decode o value e.2 = .ok x) ∧
      es.Pairwise fun d e => ∀ a b, Shape.StandsForKey o key d.1 a →
        Shape.StandsForKey o key e.1 b → a.same b = false ∧ b.same a = false) ∧
    ∀ v, decode o (.mapping kind key value) (.map es) = .ok v → ∃ ps, v = .map kind.built ps ∧
      List.Forall₂ (fun e p => Shape.StandsForKey o key e.1 p.1 ∧ decode o value e.2 = .ok p.2)
        es ps := by
  have hkey : key.satisfies .encodable = true :=
    Shape.satisfies_of_mem_parts hs (by simp)
  constructor
  · constructor
    · rintro ⟨v, hv⟩
      obtain ⟨ps, hps, hn, -⟩ := (Shape.decode_mapping_eq_ok_iff hs).mp hv
      have hentry : ∀ e ∈ es, ∃ p ∈ ps, Shape.StandsForKey o key e.1 p.1 ∧
          decode o value e.2 = .ok p.2 := fun e he => hps.exists_of_mem_left he
      constructor
      · intro e he
        obtain ⟨p, -, hk, -⟩ := hentry e he
        exact ⟨p.1, hk⟩
      constructor
      · intro e he
        obtain ⟨p, -, -, hx⟩ := hentry e he
        exact ⟨p.2, hx⟩
      · exact (Shape.pairwise_keys_iff hkey hd hps).mp hn
    · rintro ⟨hk, hx, hn⟩
      have hentry : ∀ e ∈ es, ∃ p : Value × Value, Shape.StandsForKey o key e.1 p.1 ∧
          decode o value e.2 = .ok p.2 := by
        intro e he
        obtain ⟨k, hk⟩ := hk e he
        obtain ⟨x, hx⟩ := hx e he
        exact ⟨(k, x), hk, hx⟩
      obtain ⟨ps, hps⟩ := List.exists_forall₂ hentry
      exact ⟨_, (Shape.decode_mapping_eq_ok_iff hs).mpr
        ⟨ps, hps, (Shape.pairwise_keys_iff hkey hd hps).mpr hn, rfl⟩⟩
  · intro v hv
    obtain ⟨ps, hps, -, rfl⟩ := (Shape.decode_mapping_eq_ok_iff hs).mp hv
    exact ⟨ps, rfl, hps⟩

/-- Frozen sets as keys. Two sets make two entries; one set in two spellings, with its members
exchanged and one of them repeated, makes none. -/
theorem decode_map_one_for_one_sets :
    let set (items : List Int64) : Value := .sequence .frozenSet (items.map .int)
    decode .standard (.mapping .ordered (.sequence .frozenSet .int) .str)
        (.map [("[1,2]", .str "a"), ("[1]", .str "b")]) =
      .ok (.map .ordered [(set [1, 2], .str "a"), (set [1], .str "b")]) ∧
    ∀ v, decode .standard (.mapping .ordered (.sequence .frozenSet .int) .str)
        (.map [("[1,2]", .str "a"), (" [2,1,1]", .str "b")]) ≠ .ok v := by
  intro set
  have hs : (Shape.mapping .ordered (.sequence .frozenSet .int) .str).satisfies .encodable =
      true := rfl
  have hd : (Shape.sequence .frozenSet .int).DefaultsWellFormed :=
    .sequence (Shape.defaultsWellFormed_of_parts_eq_nil rfl)
  have first : Shape.StandsForKey .standard (.sequence .frozenSet .int) "[1,2]" (set [1, 2]) :=
    .tree (.list [.int 1, .int 2]) rfl (by cbv) (by cbv)
  have second : Shape.StandsForKey .standard (.sequence .frozenSet .int) "[1]" (set [1]) :=
    .tree (.list [.int 1]) rfl (by cbv) (by cbv)
  have again : Shape.StandsForKey .standard (.sequence .frozenSet .int) " [2,1,1]" (set [2, 1]) :=
    .tree (.list [.int 2, .int 1, .int 1]) rfl (by cbv) (by cbv)
  have different : (set [1]).same (set [1, 2]) = false := by cbv
  have same : (set [1, 2]).same (set [2, 1]) = true := by cbv
  constructor
  · exact (Shape.decode_mapping_eq_ok_iff hs).mpr ⟨_, .cons ⟨first, by cbv⟩
      (.cons ⟨second, by cbv⟩ .nil), List.pairwise_pair.mpr different, rfl⟩
  · intro v hv
    obtain ⟨-, -, hn⟩ := (decode_map_one_for_one hs hd _).1.mp ⟨v, hv⟩
    have hne := (List.pairwise_pair.mp hn _ _ first again).1
    rw [same] at hne
    cases hne

end ShapeCodec
