import ShapeCodec.Proofs.RoundTrip.Branches
import ShapeCodec.Proofs.RoundTrip.Tidy

/-! # Trees that decode alike

A text gives as an integer what the tree that was written may spell as a number. A tree decodes
alike when its parts do. Under shapes without number literals, and without floats unless these are
cast from numbers, every tidy tree decodes alike.
-/

namespace ShapeCodec

def Literal.isNumber : Literal → Bool
  | .int _ => true
  | .float _ => true
  | _ => false

theorem Literal.word_of_accepts {l : Literal} {j : Json} (hl : l.isNumber = false)
    (h : l.accepts j = true) : j = .null ∨ (∃ b, j = .bool b) ∨ ∃ t, j = .str t := by
  unfold Literal.accepts at h
  split at h
  · exact .inl rfl
  · exact .inr (.inl ⟨_, rfl⟩)
  · cases hl
  · cases hl
  · exact .inr (.inr ⟨_, rfl⟩)
  · cases h

namespace Shape

variable {o : Settings} {s t : Shape} {ss : List Shape} {v w : Value} {c j : Json}

/-- A tree decodes alike as it is and with the integers that its text gives. -/
def Alike (o : Settings) (s : Shape) (j : Json) : Prop :=
  ∀ w, decodeJson o s j = .ok w ↔ decodeJson o s j.withIntegers = .ok w

theorem alike_of_eq (h : j.withIntegers = j) : Alike o s j := fun w => by rw [h]

/-! ## Scalars -/

theorem alike_of_words (h : ∀ j w, decodeJson o s j = .ok w →
    j = .null ∨ (∃ b, j = .bool b) ∨ ∃ t, j = .str t) : Alike o s j := by
  intro w
  cases j with
  | number n =>
    constructor
    · intro hw
      simpa using h _ _ hw
    · intro hw
      have := h _ _ hw
      rw [Json.withIntegers, Json.ofNumeral] at this
      cases hn : n.toInt64? <;> simp [hn] at this
  | list xs =>
    rw [Json.withIntegers_list]
    exact ⟨fun hw => by simpa using h _ _ hw, fun hw => by simpa using h _ _ hw⟩
  | map es =>
    rw [Json.withIntegers_map]
    exact ⟨fun hw => by simpa using h _ _ hw, fun hw => by simpa using h _ _ hw⟩
  | _ => rfl

/-- A shape that takes no collections only has to agree on the two spellings of an integer. -/
theorem alike_of_numbers (hj : j.Tidy) (hl : ∀ xs w, decodeJson o s (.list xs) ≠ .ok w)
    (hm : ∀ es w, decodeJson o s (.map es) ≠ .ok w)
    (hn : ∀ i w, (Numeral.ofInt i.toInt).toInt64? = some i →
      (decodeJson o s (.number (.ofInt i.toInt)) = .ok w ↔ decodeJson o s (.int i) = .ok w)) :
    Alike o s j := by
  intro w
  cases j with
  | number n =>
    rw [Json.withIntegers, Json.ofNumeral]
    cases hi : n.toInt64? with
    | none => rfl
    | some i =>
      obtain rfl := hj.eq_ofInt hi
      exact hn i w hi
  | list xs => simp [hl]
  | map es => simp [hm]
  | _ => rfl

theorem alike_int (hj : j.Tidy) : Alike o int j := by
  refine alike_of_numbers hj ?_ ?_ fun i w hi => ?_
  · simp [Json.toInt64]
  · simp [Json.toInt64]
  · have hf : (Numeral.ofInt i.toInt).isFractional = false := rfl
    simp [Json.toInt64, hf, hi]

theorem alike_float (ho : o.castDecimal = true) (hj : j.Tidy) : Alike o float j := by
  refine alike_of_numbers hj ?_ ?_ fun i w _ => ?_
  · simp [Json.toBinary64]
  · simp [Json.toBinary64]
  · simp [Json.toBinary64, ho, Numeral.toBinary64?_ofInt]

theorem alike_decimal (hj : j.Tidy) : Alike o decimal j := by
  refine alike_of_numbers hj ?_ ?_ fun i w _ => ?_
  · simp [Json.toDecimal]
  · simp [Json.toDecimal]
  · have hd : Decimal.ofNumeral? (.ofInt i.toInt) = some (.ofInt64 i) := by
      rw [← Decimal.toNumeral_ofInt64, Decimal.ofNumeral?_toNumeral]
    simp [Json.toDecimal, hd]

/-! ## Collections -/

theorem alike_sequence {k : SequenceKind} (h : ∀ xs, j = .list xs → ∀ x ∈ xs, Alike o s x) :
    Alike o (sequence k s) j := by
  intro w
  simp only [decodeJson_sequence_eq_ok_iff, Json.withIntegers_eq_list_iff]
  constructor
  · rintro ⟨xs, vs, rfl, hv, rfl⟩
    refine ⟨_, vs, ⟨xs, rfl, rfl⟩, ?_, rfl⟩
    rw [List.forall₂_map_left_iff]
    exact (List.forall₂_congr_of_mem fun x hx => h xs rfl x hx).mp hv
  · rintro ⟨_, vs, ⟨xs, rfl, rfl⟩, hv, rfl⟩
    rw [List.forall₂_map_left_iff] at hv
    exact ⟨xs, vs, rfl, (List.forall₂_congr_of_mem fun x hx => h xs rfl x hx).mpr hv, rfl⟩

theorem alike_tuple (h : ∀ xs, j = .list xs → ∀ q ∈ ss.zip xs, Alike o q.1 q.2) :
    Alike o (tuple ss) j := by
  intro w
  simp only [decodeJson_tuple_eq_ok_iff, Json.withIntegers_eq_list_iff]
  constructor
  · rintro ⟨xs, vs, rfl, hl, hv, rfl⟩
    refine ⟨_, vs, ⟨xs, rfl, rfl⟩, by rwa [List.length_map], ?_, rfl⟩
    rw [List.zip_map_right, List.forall₂_map_left_iff]
    exact (List.forall₂_congr_of_mem fun q hq => h xs rfl q hq).mp hv
  · rintro ⟨_, vs, ⟨xs, rfl, rfl⟩, hl, hv, rfl⟩
    rw [List.length_map] at hl
    rw [List.zip_map_right, List.forall₂_map_left_iff] at hv
    exact ⟨xs, vs, rfl, hl, (List.forall₂_congr_of_mem fun q hq => h xs rfl q hq).mpr hv, rfl⟩

/-- Keys are texts, so a mapping has only its values to look at. -/
theorem alike_mapping {k : MappingKind} {key value : Shape}
    (h : ∀ es, j = .map es → ∀ e ∈ es, Alike o value e.2) : Alike o (mapping k key value) j := by
  intro w
  simp only [decodeJson_mapping_eq_ok_iff, Json.withIntegers_eq_map_iff]
  constructor
  · rintro ⟨es, ps, rfl, hp, hd, rfl⟩
    refine ⟨_, ps, ⟨es, rfl, rfl⟩, ?_, hd, rfl⟩
    rw [List.forall₂_map_left_iff]
    exact (List.forall₂_congr_of_mem fun e he q => and_congr_right' (h es rfl e he q.2)).mp hp
  · rintro ⟨_, ps, ⟨es, rfl, rfl⟩, hp, hd, rfl⟩
    rw [List.forall₂_map_left_iff] at hp
    exact ⟨es, ps, rfl, (List.forall₂_congr_of_mem fun e he q =>
      and_congr_right' (h es rfl e he q.2)).mpr hp, hd, rfl⟩

theorem fieldsOfMap_withIntegers (fs : List (Field Shape)) (es : List (String × Json)) :
    fieldsOfMap fs (es.map fun e => (e.1, e.2.withIntegers)) =
      (fieldsOfMap fs es).map (Option.map Json.withIntegers) := by
  simp only [fieldsOfMap, List.map_map, List.find?_map]
  refine List.map_congr_left fun f _ => ?_
  simp only [Function.comp_apply, Option.map_map]
  rfl

theorem fieldsOfList_withIntegers (fs : List (Field Shape)) (xs : List Json) :
    fieldsOfList fs (xs.map Json.withIntegers) =
      (fieldsOfList fs xs).map (Option.map Json.withIntegers) := by
  simp [fieldsOfList]

theorem lays_withIntegers_iff {fs : List (Field Shape)} {given : List (Option Json)} :
    Lays fs j.withIntegers given ↔
      ∃ given', Lays fs j given' ∧ given = given'.map (Option.map Json.withIntegers) := by
  simp only [Lays, Json.withIntegers_eq_list_iff, Json.withIntegers_eq_map_iff]
  constructor
  · rintro (⟨_, ⟨es, rfl, rfl⟩, hn, rfl⟩ | ⟨_, ⟨xs, rfl, rfl⟩, hl, hu, rfl⟩)
    · refine ⟨_, .inl ⟨es, rfl, fun e he => ?_, rfl⟩, fieldsOfMap_withIntegers fs es⟩
      exact hn (e.1, e.2.withIntegers) (List.mem_map.mpr ⟨e, he, rfl⟩)
    · rw [List.length_map] at hl hu
      exact ⟨_, .inr ⟨xs, rfl, hl, hu, rfl⟩, fieldsOfList_withIntegers fs xs⟩
  · rintro ⟨_, ⟨es, rfl, hn, rfl⟩ | ⟨xs, rfl, hl, hu, rfl⟩, rfl⟩
    · exact .inl ⟨_, ⟨es, rfl, rfl⟩, List.forall_mem_map.mpr hn,
        (fieldsOfMap_withIntegers fs es).symm⟩
    · exact .inr ⟨_, ⟨xs, rfl, rfl⟩, by rwa [List.length_map], by rwa [List.length_map],
        (fieldsOfList_withIntegers fs xs).symm⟩

theorem fills_withIntegers_iff {f : Field Shape} {given : Option Json}
    (h : ∀ x, given = some x → Alike o f.shape x) :
    Fills o f (given.map Json.withIntegers) v ↔ Fills o f given v := by
  cases given with
  | none => simp [Fills]
  | some x => simpa [Fills] using (h x rfl v).symm

theorem alike_record {name : String} {fs : List (Field Shape)}
    (h : ∀ given, Lays fs j given → ∀ q ∈ fs.zip given, ∀ x, q.2 = some x → Alike o q.1.shape x) :
    Alike o (record name fs) j := by
  intro w
  have fields : ∀ given, Lays fs j given → ∀ vs : List (String × Value),
      List.Forall₂ (fun p w => w.1 = p.1.name ∧ Fills o p.1 p.2 w.2) (fs.zip given) vs ↔
        List.Forall₂ (fun p w => w.1 = p.1.name ∧ Fills o p.1 p.2 w.2)
          (fs.zip (given.map (Option.map Json.withIntegers))) vs := by
    intro given hg vs
    rw [List.zip_map_right, List.forall₂_map_left_iff]
    exact List.forall₂_congr_of_mem fun q hq p =>
      and_congr_right' (fills_withIntegers_iff (h given hg q hq)).symm
  simp only [decodeJson_record_eq_ok_iff, lays_withIntegers_iff]
  constructor
  · rintro ⟨given, vs, hg, hv, rfl⟩
    exact ⟨_, vs, ⟨given, hg, rfl⟩, (fields given hg vs).mp hv, rfl⟩
  · rintro ⟨_, vs, ⟨given, hg, rfl⟩, hv, rfl⟩
    exact ⟨given, vs, hg, (fields given hg vs).mpr hv, rfl⟩

theorem alike_typedDict {name : String} {ks : List (Key Shape)} (h : ∀ es, j = .map es →
    ∀ e ∈ es, ∀ k, ks.find? (·.name == e.1) = some k → Alike o k.shape e.2) :
    Alike o (typedDict name ks) j := by
  intro w
  have entries : ∀ es, j = .map es → ∀ (vs : List (Value × Value)),
      List.Forall₂ (fun e w => w.1 = .str e.1 ∧
        ∃ k, ks.find? (·.name == e.1) = some k ∧ decodeJson o k.shape e.2 = .ok w.2) es vs ↔
      List.Forall₂ (fun e w => w.1 = .str e.1 ∧
        ∃ k, ks.find? (·.name == e.1) = some k ∧ decodeJson o k.shape e.2 = .ok w.2)
          (es.map fun e => (e.1, e.2.withIntegers)) vs := by
    intro es he vs
    rw [List.forall₂_map_left_iff]
    refine List.forall₂_congr_of_mem fun e hm p => and_congr_right' (exists_congr fun k => ?_)
    exact and_congr_right fun hk => h es he e hm k hk p.2
  simp only [decodeJson_typedDict_eq_ok_iff, Json.withIntegers_eq_map_iff]
  constructor
  · rintro ⟨es, vs, rfl, hr, hv, rfl⟩
    exact ⟨_, vs, ⟨es, rfl, rfl⟩, by simpa using hr, (entries es rfl vs).mp hv, rfl⟩
  · rintro ⟨_, vs, ⟨es, rfl, rfl⟩, hr, hv, rfl⟩
    exact ⟨es, vs, rfl, by simpa using hr, (entries es rfl vs).mpr hv, rfl⟩

/-! ## Unions -/

theorem alike_branches (hb : s.branches? = some ss) (h : ∀ t ∈ ss, Alike o t j) : Alike o s j := by
  intro w
  simp only [decodeJson_branches?_eq_ok_iff hb]
  refine exists_congr fun pre => exists_congr fun t => exists_congr fun post =>
    and_congr_right fun he => ?_
  subst he
  refine and_congr ?_ (h t (by simp) w)
  exact forall₂_congr fun u hu => forall_congr' fun x =>
    not_congr (h u (List.mem_append_left _ hu) x)

/-! ## Shapes that are blind to the spelling -/

/-- No literal in a shape is a number, and its floats are cast from numbers. -/
def SpellingBlind (o : Settings) (s : Shape) : Prop :=
  ∀ t, Within t s → (t = float → o.castDecimal = true) ∧
    ∀ ls, t = literal ls → ∀ l ∈ ls, l.isNumber = false

theorem spellingBlind_iff : SpellingBlind o s ↔ ((s = float → o.castDecimal = true) ∧
    ∀ ls, s = literal ls → ∀ l ∈ ls, l.isNumber = false) ∧ ∀ p ∈ s.parts, SpellingBlind o p :=
  forall_within_iff

/-- Under a blind shape every tidy tree decodes alike. -/
theorem alike_of_spellingBlind (hs : SpellingBlind o s) (hj : j.Tidy) : Alike o s j := by
  induction s using inductionParts generalizing j with
  | step s ih =>
  obtain ⟨⟨hfloat, hliteral⟩, hparts⟩ := spellingBlind_iff.mp hs
  have part : ∀ p ∈ s.parts, ∀ x, x.Tidy → Alike o p x := fun p hp x => ih p hp (hparts p hp)
  cases s with
  | any => exact alike_of_words fun j w h => (decodeJson_any_ne_ok h).elim
  | bool =>
    refine alike_of_words fun j w h => ?_
    obtain ⟨b, rfl, -⟩ := decodeJson_bool_eq_ok_iff.mp h
    exact .inr (.inl ⟨b, rfl⟩)
  | int => exact alike_int hj
  | float => exact alike_float (hfloat rfl) hj
  | str =>
    refine alike_of_words fun j w h => ?_
    obtain ⟨t, rfl, -⟩ := decodeJson_str_eq_ok_iff.mp h
    exact .inr (.inr ⟨t, rfl⟩)
  | none => exact alike_of_words fun j w h => .inl (decodeJson_none_eq_ok_iff.mp h).1
  | ellipsis => exact alike_of_words fun j w h => .inl (decodeJson_ellipsis_eq_ok_iff.mp h).1
  | decimal => exact alike_decimal hj
  | sequence k s =>
    refine alike_sequence fun xs hx x hm => ?_
    subst hx
    exact part s (by simp) x (hj.part hm)
  | tuple ss =>
    refine alike_tuple fun xs hx q hm => ?_
    subst hx
    exact part q.1 (List.of_mem_zip hm).1 q.2 (hj.part (List.of_mem_zip hm).2)
  | mapping k key value =>
    refine alike_mapping fun es he e hm => ?_
    subst he
    exact part value (by simp) e.2 (hj.part (Json.mem_parts_map hm))
  | optional s =>
    refine alike_branches rfl (List.forall_mem_pair.mpr ⟨part s (by simp) j hj, ?_⟩)
    exact alike_of_words fun j w h => .inl (decodeJson_none_eq_ok_iff.mp h).1
  | union ss => exact alike_branches rfl fun t ht => part t ht j hj
  | literal ls =>
    refine alike_of_words fun j w h => ?_
    obtain ⟨l, hl, -⟩ := decodeJson_literal_eq_ok_iff.mp h
    exact Literal.word_of_accepts (hliteral ls rfl l (List.mem_of_find?_eq_some hl))
      (by simpa using List.find?_some hl)
  | record name fs =>
    refine alike_record fun given hg q hq x hx => ?_
    obtain ⟨hf, hx'⟩ := List.of_mem_zip hq
    refine part _ (mem_parts_record hf) x ?_
    rcases hg.mem (hx ▸ hx') with ⟨es, rfl, e, he, rfl⟩ | ⟨xs, rfl, hm⟩
    · exact hj.part (Json.mem_parts_map he)
    · exact hj.part hm
  | enum name ms =>
    refine alike_of_words fun j w h => ?_
    obtain ⟨m, rfl, -⟩ := decodeJson_enum_eq_ok_iff.mp h
    exact .inr (.inr ⟨m, rfl⟩)
  | typedDict name ks =>
    refine alike_typedDict fun es he e hm k hk => ?_
    subst he
    exact part _ (mem_parts_typedDict (List.mem_of_find?_eq_some hk)) e.2
      (hj.part (Json.mem_parts_map hm))

end Shape

end ShapeCodec
