import ShapeCodec.Proofs.Decoding.Parts

/-! # Decoding by cases

When a JSON tree decodes under a shape and to which value, constructor by constructor. The cases
speak of results only, and later proofs go through them instead of the definition.
-/

namespace ShapeCodec

namespace Shape

variable {o : Settings} {j : Json} {v : Value}

attribute [local simp] decodeJson decodeItems decodeBranch decodeFields decodeKey
  ofScalar_eq_ok_iff ofMembers_eq_ok_iff ofPositions_eq_ok_iff ofSlots_eq_ok_iff
  ofEntries_eq_ok_iff

/-! ## Lists of parts -/

theorem decodeItems_eq (ss : List Shape) (js : List Json) :
    decodeItems o ss js = (ss.zip js).map fun p => decodeJson o p.1 p.2 := by
  induction ss generalizing js with
  | nil => simp
  | cons s ss ih => cases js <;> simp [ih]

theorem decodeBranch_eq_ok_iff {ss : List Shape} :
    decodeBranch o ss j = .ok v ↔ ∃ pre s post, ss = pre ++ s :: post ∧
      (∀ t ∈ pre, ∀ w, decodeJson o t j ≠ .ok w) ∧ decodeJson o s j = .ok v := by
  induction ss with
  | nil => simp
  | cons s ss ih =>
    cases hs : decodeJson o s j with
    | ok w =>
      simp only [decodeBranch, hs, Except.ok.injEq]
      constructor
      · rintro rfl
        exact ⟨[], s, ss, rfl, by simp, hs⟩
      · rintro ⟨_ | ⟨t, pre⟩, u, post, he, hp, hu⟩
        · obtain ⟨rfl, rfl⟩ := List.cons.inj he
          exact Except.ok.inj (hs.symm.trans hu)
        · obtain ⟨rfl, -⟩ := List.cons.inj he
          exact (hp s List.mem_cons_self w hs).elim
    | error rs =>
      have hr : decodeBranch o (s :: ss) j = .ok v ↔ decodeBranch o ss j = .ok v := by
        rw [decodeBranch, hs]
        cases decodeBranch o ss j <;> simp
      rw [hr, ih]
      constructor
      · rintro ⟨pre, u, post, rfl, hp, hu⟩
        refine ⟨s :: pre, u, post, rfl, ?_, hu⟩
        rintro t (_ | ⟨_, ht⟩) w
        · simp [hs]
        · exact hp t ht w
      · rintro ⟨_ | ⟨t, pre⟩, u, post, he, hp, hu⟩
        · obtain ⟨rfl, rfl⟩ := List.cons.inj he
          rw [hs] at hu; cases hu
        · obtain ⟨rfl, rfl⟩ := List.cons.inj he
          exact ⟨pre, u, post, rfl, fun t ht => hp t (List.mem_cons_of_mem _ ht), hu⟩

/-- A field of a record is filled by what is given for it, or else by its default. -/
def Fills (o : Settings) (f : Field Shape) (given : Option Json) (v : Value) : Prop :=
  (∃ j, given = some j ∧ decodeJson o f.shape j = .ok v) ∨
    given = Option.none ∧ f.default? = some v

theorem decodeFields_eq_ok_iff {fs : List (Field Shape)} {given : List (Option Json)}
    {vs : List (String × Value)} :
    decodeFields o fs given = vs.map .ok ↔
      List.Forall₂ (fun p w => w.1 = p.1.name ∧ Fills o p.1 p.2 w.2) (fs.zip given) vs := by
  induction fs generalizing given vs with
  | nil => cases vs <;> simp
  | cons f fs ih =>
    cases given with
    | nil => cases vs <;> simp
    | cons g given =>
      cases vs with
      | nil => simp
      | cons w vs =>
        obtain ⟨n, w⟩ := w
        simp only [decodeFields, List.map_cons, List.cons.injEq, ih, List.zip_cons_cons,
          List.forall₂_cons, Fills]
        refine and_congr_left fun _ => ?_
        cases g with
        | some j => cases hj : decodeJson o f.shape j <;> simp [eq_comm, hj]
        | none => cases hd : f.default? <;> simp [eq_comm]

theorem decodeKey_eq_ok_iff {ks : List (Key Shape)} {name : String} :
    decodeKey o ks name j = .ok v ↔
      ∃ k, ks.find? (·.name == name) = some k ∧ decodeJson o k.shape j = .ok v := by
  induction ks with
  | nil => simp
  | cons k ks ih =>
    by_cases h : k.name = name
    · simp [h]
    · simp [h, ih]

/-! ## Constructors -/

@[simp] theorem decodeJson_any_ne_ok : decodeJson o any j ≠ .ok v := by simp

@[simp] theorem decodeJson_bool_eq_ok_iff :
    decodeJson o bool j = .ok v ↔ ∃ b, j = .bool b ∧ v = .bool b := by
  cases j with
  | bool b => simpa using eq_comm
  | _ => simp

@[simp] theorem decodeJson_int_eq_ok_iff :
    decodeJson o int j = .ok v ↔ ∃ i, j.toInt64 o = .ok i ∧ v = .int i := by
  cases h : j.toInt64 o with
  | ok x => simpa [h, Except.map] using eq_comm
  | error e => simp [h, Except.map]

@[simp] theorem decodeJson_float_eq_ok_iff :
    decodeJson o float j = .ok v ↔ ∃ x, j.toBinary64 o = .ok x ∧ v = .float x := by
  cases h : j.toBinary64 o with
  | ok x => simpa [h, Except.map] using eq_comm
  | error e => simp [h, Except.map]

@[simp] theorem decodeJson_str_eq_ok_iff :
    decodeJson o str j = .ok v ↔ ∃ s, j = .str s ∧ v = .str s := by
  cases j with
  | str s => simpa using eq_comm
  | _ => simp

@[simp] theorem decodeJson_none_eq_ok_iff :
    decodeJson o none j = .ok v ↔ j = .null ∧ v = .none := by
  cases j with
  | null => simpa using eq_comm
  | _ => simp

@[simp] theorem decodeJson_ellipsis_eq_ok_iff :
    decodeJson o ellipsis j = .ok v ↔ j = .null ∧ v = .ellipsis := by
  cases j with
  | null => simpa using eq_comm
  | _ => simp

@[simp] theorem decodeJson_decimal_eq_ok_iff :
    decodeJson o decimal j = .ok v ↔ ∃ d, j.toDecimal = .ok d ∧ v = .decimal d := by
  cases h : j.toDecimal with
  | ok x => simpa [h, Except.map] using eq_comm
  | error e => simp [h, Except.map]

@[simp] theorem decodeJson_sequence_eq_ok_iff {k : SequenceKind} {s : Shape} :
    decodeJson o (sequence k s) j = .ok v ↔ ∃ xs vs, j = .list xs ∧
      List.Forall₂ (fun x w => decodeJson o s x = .ok w) xs vs ∧ v = .ofItems k vs := by
  cases j <;> simp [map_eq_map_ok_iff]

@[simp] theorem decodeJson_tuple_eq_ok_iff {ss : List Shape} :
    decodeJson o (tuple ss) j = .ok v ↔ ∃ xs vs, j = .list xs ∧ xs.length = ss.length ∧
      List.Forall₂ (fun p w => decodeJson o p.1 p.2 = .ok w) (ss.zip xs) vs ∧
      v = .sequence .tuple vs := by
  cases j with
  | list xs =>
    by_cases h : xs.length = ss.length
    · simp [h, decodeItems_eq, map_eq_map_ok_iff]
    · simp [h]
  | _ => simp

@[simp] theorem decodeJson_mapping_eq_ok_iff {k : MappingKind} {key value : Shape} :
    decodeJson o (mapping k key value) j = .ok v ↔ ∃ es ps, j = .map es ∧
      List.Forall₂ (fun e p => decodeKeyText key (decodeJson o key) e.1 = .ok p.1 ∧
        decodeJson o value e.2 = .ok p.2) es ps ∧
      ps.Pairwise (fun a b => b.1.same a.1 = false) ∧ v = .map k.built ps := by
  cases j with
  | map es =>
    have hf : ∀ p : Value × Value, Value.hasKey [] p.1 = false := fun _ => rfl
    simp only [decodeJson, ofEntries_eq_ok_iff, decodeEntries_eq_ok_iff, true_and, hf,
      List.nil_append, implies_true, Json.map.injEq]
    constructor
    · rintro ⟨ps, ⟨_, hp, hd, rfl⟩, rfl⟩
      exact ⟨es, ps, rfl, hp, hd, rfl⟩
    · rintro ⟨_, ps, rfl, hp, hd, rfl⟩
      exact ⟨ps, ⟨ps, hp, hd, rfl⟩, rfl⟩
  | _ => simp

theorem decodeJson_optional_eq_ok_iff {s : Shape} :
    decodeJson o (optional s) j = .ok v ↔ decodeJson o s j = .ok v ∨
      (∀ w, decodeJson o s j ≠ .ok w) ∧ j = .null ∧ v = .none := by
  cases h : decodeJson o s j with
  | ok w => simp [h]
  | error rs =>
    cases j with
    | null => simpa [h] using eq_comm
    | _ => simp [h]

theorem decodeJson_union_eq_ok_iff {ss : List Shape} :
    decodeJson o (union ss) j = .ok v ↔ ∃ pre s post, ss = pre ++ s :: post ∧
      (∀ t ∈ pre, ∀ w, decodeJson o t j ≠ .ok w) ∧ decodeJson o s j = .ok v := by
  rw [← decodeBranch_eq_ok_iff, decodeJson]
  cases decodeBranch o ss j <;> simp

/-- The first branch that fits decides, for optional shapes and unions alike. -/
theorem decodeJson_of_branches? {s t : Shape} {pre post : List Shape}
    (hb : s.branches? = some (pre ++ t :: post)) (hp : ∀ u ∈ pre, ∀ w, decodeJson o u j ≠ .ok w)
    (ht : decodeJson o t j = .ok v) : decodeJson o s j = .ok v := by
  cases s with
  | union ss => exact decodeJson_union_eq_ok_iff.mpr ⟨pre, t, post, Option.some.inj hb, hp, ht⟩
  | optional s =>
    have hb : [s, none] = pre ++ t :: post := Option.some.inj hb
    rcases pre with _ | ⟨u, _ | ⟨u', pre⟩⟩
    · obtain ⟨rfl, -⟩ := List.cons.inj hb
      exact decodeJson_optional_eq_ok_iff.mpr (.inl ht)
    · simp only [List.cons_append, List.nil_append, List.cons.injEq] at hb
      obtain ⟨rfl, rfl, -⟩ := hb
      obtain ⟨hj, hv⟩ := decodeJson_none_eq_ok_iff.mp ht
      exact decodeJson_optional_eq_ok_iff.mpr (.inr ⟨hp s List.mem_cons_self, hj, hv⟩)
    · simp at hb
  | _ => cases hb

theorem decodeJson_branches?_eq_ok_iff {s : Shape} {ss : List Shape} (hb : s.branches? = some ss) :
    decodeJson o s j = .ok v ↔ ∃ pre t post, ss = pre ++ t :: post ∧
      (∀ u ∈ pre, ∀ w, decodeJson o u j ≠ .ok w) ∧ decodeJson o t j = .ok v := by
  constructor
  · intro h
    cases s <;> cases hb
    · rcases decodeJson_optional_eq_ok_iff.mp h with h | ⟨hn, rfl, rfl⟩
      · exact ⟨[], _, [none], rfl, List.forall_mem_nil _, h⟩
      · exact ⟨[_], none, [], rfl, List.forall_mem_singleton.mpr hn,
          decodeJson_none_eq_ok_iff.mpr ⟨rfl, rfl⟩⟩
    · exact decodeJson_union_eq_ok_iff.mp h
  · rintro ⟨pre, t, post, rfl, hp, ht⟩
    exact decodeJson_of_branches? hb hp ht

theorem decodeJson_branches?_eq_ok_iff_findSome? {s : Shape} {ss : List Shape}
    (hb : s.branches? = some ss) :
    decodeJson o s j = .ok v ↔ ss.findSome? (fun t => (decodeJson o t j).toOption) = some v := by
  rw [decodeJson_branches?_eq_ok_iff hb, List.findSome?_eq_some_iff]
  simp only [toOption_eq_none_iff, toOption_eq_some_iff, and_comm]

@[simp] theorem decodeJson_literal_eq_ok_iff {ls : List Literal} :
    decodeJson o (literal ls) j = .ok v ↔
      ∃ l, ls.find? (·.accepts j) = some l ∧ v = l.toValue := by
  cases h : ls.find? (·.accepts j) with
  | some l => simpa [h] using eq_comm
  | none => simp [h]

/-- What a JSON tree gives for each field of a record: a map by name, without other names, and a
list by position, up to the last field without a default at least. -/
def Lays (fs : List (Field Shape)) (j : Json) (given : List (Option Json)) : Prop :=
  (∃ es, j = .map es ∧ (∀ e ∈ es, ∃ f ∈ fs, f.name = e.1) ∧ given = fieldsOfMap fs es) ∨
    ∃ xs, j = .list xs ∧ leastFields fs ≤ xs.length ∧ xs.length ≤ fs.length ∧
      given = fieldsOfList fs xs

theorem Lays.length {fs : List (Field Shape)} {given : List (Option Json)}
    (h : Lays fs j given) : given.length = fs.length := by
  rcases h with ⟨es, rfl, -, rfl⟩ | ⟨xs, rfl, -, hl, rfl⟩
  · simp [fieldsOfMap]
  · simp [fieldsOfList]; omega

theorem Lays.mem {fs : List (Field Shape)} {given : List (Option Json)} {x : Json}
    (h : Lays fs j given) (hx : some x ∈ given) :
    (∃ es, j = .map es ∧ ∃ e ∈ es, e.2 = x) ∨ ∃ xs, j = .list xs ∧ x ∈ xs := by
  rcases h with ⟨es, rfl, -, rfl⟩ | ⟨xs, rfl, -, -, rfl⟩
  · obtain ⟨f, _, hf⟩ := List.mem_map.mp hx
    obtain ⟨e, he, rfl⟩ := Option.map_eq_some_iff.mp hf
    exact .inl ⟨es, rfl, e, List.mem_of_find?_eq_some he, rfl⟩
  · rcases List.mem_append.mp hx with hx | hx
    · exact .inr ⟨xs, rfl, by simpa using hx⟩
    · cases (List.mem_replicate.mp hx).2

@[simp] theorem decodeJson_record_eq_ok_iff {name : String} {fs : List (Field Shape)} :
    decodeJson o (record name fs) j = .ok v ↔ ∃ given vs, Lays fs j given ∧
      List.Forall₂ (fun p w => w.1 = p.1.name ∧ Fills o p.1 p.2 w.2) (fs.zip given) vs ∧
      v = .record name vs := by
  cases j with
  | map es =>
    have hb : (es.filter fun e => !fs.any (·.name == e.1)).map
        (fun e => Problem.unexpectedField e.1) = [] ↔ ∀ e ∈ es, ∃ f ∈ fs, f.name = e.1 := by
      simp [List.filter_eq_nil_iff]
    simp only [decodeJson, ofSlots_eq_ok_iff, hb, decodeFields_eq_ok_iff, true_and, Lays,
      Json.map.injEq]
    constructor
    · rintro ⟨hn, vs, hv, rfl⟩
      exact ⟨_, vs, .inl ⟨es, rfl, hn, rfl⟩, hv, rfl⟩
    · rintro ⟨_, vs, ⟨_, rfl, hn, rfl⟩ | ⟨_, hj, _⟩, hv, rfl⟩
      · exact ⟨hn, vs, hv, rfl⟩
      · cases hj
  | list xs =>
    simp only [decodeJson, Lays, Json.list.injEq]
    by_cases hl : xs.length < leastFields fs ∨ fs.length < xs.length
    · rw [if_pos (by simpa using hl)]
      simp only [reduceCtorEq, false_iff, not_exists, not_and]
      rintro _ vs (⟨_, hj, _⟩ | ⟨_, rfl, h₁, h₂, _⟩) _ _
      · cases hj
      · omega
    · rw [if_neg (by simpa using hl)]
      simp only [ofSlots_eq_ok_iff, decodeFields_eq_ok_iff, true_and]
      constructor
      · rintro ⟨vs, hv, rfl⟩
        exact ⟨_, vs, .inr ⟨xs, rfl, by omega, by omega, rfl⟩, hv, rfl⟩
      · rintro ⟨_, vs, ⟨_, hj, _⟩ | ⟨_, rfl, _, _, rfl⟩, hv, rfl⟩
        · cases hj
        · exact ⟨vs, hv, rfl⟩
  | _ => simp [Lays]

@[simp] theorem decodeJson_enum_eq_ok_iff {name : String} {ms : List EnumMember} :
    decodeJson o (enum name ms) j = .ok v ↔
      ∃ m, j = .str m ∧ ms.any (·.name == m) = true ∧ v = .member name m := by
  cases j with
  | str m =>
    cases h : ms.any (·.name == m) with
    | true =>
      simp only [decodeJson, ofScalar_eq_ok_iff, h, if_true, Except.ok.injEq, Json.str.injEq]
      constructor
      · rintro rfl
        exact ⟨m, rfl, h, rfl⟩
      · rintro ⟨_, rfl, -, rfl⟩
        rfl
    | false =>
      simp only [decodeJson, ofScalar_eq_ok_iff, h, Bool.false_eq_true, if_false, reduceCtorEq,
        Json.str.injEq, false_iff]
      rintro ⟨_, rfl, h', -⟩
      exact Bool.false_ne_true (h.symm.trans h')
  | _ => simp

@[simp] theorem decodeJson_typedDict_eq_ok_iff {name : String} {ks : List (Key Shape)} :
    decodeJson o (typedDict name ks) j = .ok v ↔ ∃ es vs, j = .map es ∧
      (∀ k ∈ ks, k.required = true → ∃ e ∈ es, e.1 = k.name) ∧
      List.Forall₂ (fun e w => w.1 = .str e.1 ∧
        ∃ k, ks.find? (·.name == e.1) = some k ∧ decodeJson o k.shape e.2 = .ok w.2) es vs ∧
      v = .map .dict vs := by
  cases j with
  | map es =>
    have ha : (ks.filter fun k => k.required && !es.any (·.1 == k.name)).map
        (fun k => Problem.missingKey k.name) = [] ↔
          ∀ k ∈ ks, k.required = true → ∃ e ∈ es, e.1 = k.name := by
      simp [List.filter_eq_nil_iff]
    have hs : ∀ (e : String × Json) (w : Value × Value),
        (decodeKey o ks e.1 e.2).map (fun v => (Value.str e.1, v)) = .ok w ↔
          w.1 = .str e.1 ∧
            ∃ k, ks.find? (·.name == e.1) = some k ∧ decodeJson o k.shape e.2 = .ok w.2 := by
      rintro e ⟨n, w⟩
      rw [← decodeKey_eq_ok_iff]
      cases decodeKey o ks e.1 e.2 <;> simp [Except.map, eq_comm]
    simp only [decodeJson, ofSlots_eq_ok_iff, ha, map_eq_map_ok_iff, hs, true_and,
      Json.map.injEq]
    constructor
    · rintro ⟨hr, vs, hv, rfl⟩
      exact ⟨es, vs, rfl, hr, hv, rfl⟩
    · rintro ⟨_, vs, rfl, hr, hv, rfl⟩
      exact ⟨hr, vs, hv, rfl⟩
  | _ => simp

end Shape

end ShapeCodec
