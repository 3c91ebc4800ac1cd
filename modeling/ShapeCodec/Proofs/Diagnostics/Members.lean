import ShapeCodec.Proofs.Decoding.Entries
import ShapeCodec.Proofs.Diagnostics.Verdicts

/-! # Members that do not decode

A container goes on after a member that does not decode, so that each of them has its say in one
piece before the line of the container. Only a key that is there already ends a map at once. What
comes after it is not looked at.
-/

namespace ShapeCodec

namespace Shape

/-! ## The reasons of a whole -/

section Parts

variable {α : Type} {s : Shape} {j : Json} {rs : List Reason}

theorem eq_of_ofMembers_eq_error {kind : SequenceKind} {parts : List (Decoded Value)}
    (h : ofMembers s j kind parts = .error rs) :
    ∃ why, rs = parts.flatMap reasonsOf ++ line s j why := by
  unfold ofMembers at h
  split at h
  · cases h
  · rename_i he
    cases h
    exact ⟨_, by rw [flatMap_reasonsOf, he]⟩

theorem eq_of_ofSlots_eq_error {before after : List Problem} {slots : List (Slot α)}
    {build : List α → Value} (h : ofSlots s j before after slots build = .error rs) :
    ∃ why, rs = slots.flatMap slotReasons ++ line s j why := by
  unfold ofSlots at h
  split at h
  · cases h
  · cases h
    exact ⟨_, by rw [flatMap_slotReasons]⟩

@[simp] theorem slotReasons_map {β : Type} {slot : Slot α} {f : α → β} :
    slotReasons (slot.map f) = slotReasons slot := by
  cases slot <;> rfl

end Parts

/-! ## Entries one after the other -/

section Entries

variable {key : String → Decoded Value} {value : Json → Decoded Value} {e : String × Json}
  {p : Value × Value} {done : List (Value × Value)} {failed : List String} {log : List Reason}
  {es before : List (String × Json)}

def pair? (key : String → Decoded Value) (value : Json → Decoded Value) (e : String × Json) :
    Option (Value × Value) :=
  match key e.1, value e.2 with
  | .ok k, .ok v => some (k, v)
  | _, _ => Option.none

/-- What an entry has to say: its key first. -/
def entryReasons (key : String → Decoded Value) (value : Json → Decoded Value)
    (e : String × Json) : List Reason := reasonsOf (key e.1) ++ reasonsOf (value e.2)

/-- No key is the same as one before it. -/
def Apart (ps : List (Value × Value)) : Prop := ps.Pairwise fun a b => b.1.same a.1 = false

theorem apart_concat_iff : Apart (done ++ [p]) ↔ Apart done ∧ Value.hasKey done p.1 = false := by
  simp [Apart, List.pairwise_append, Value.hasKey]

theorem Apart.of_append {qs : List (Value × Value)} (h : Apart (done ++ qs)) : Apart done :=
  (List.pairwise_append.mp h).1

theorem pair?_eq_some_iff :
    pair? key value e = some p ↔ key e.1 = .ok p.1 ∧ value e.2 = .ok p.2 := by
  unfold pair?
  split
  · rename_i k v hk hv
    simp [hk, hv, Prod.ext_iff]
  · rename_i hn
    simpa using fun hk hv => hn _ _ hk hv

theorem decodeEntries_cons_of_some (h : pair? key value e = some p) :
    decodeEntries key value done failed log (e :: es) =
      if Value.hasKey done p.1 then .error (log, .collision p.1)
      else decodeEntries key value (done ++ [p]) failed log es := by
  obtain ⟨hk, hv⟩ := pair?_eq_some_iff.mp h
  rw [decodeEntries, hk, hv]

theorem decodeEntries_cons_of_none (h : pair? key value e = Option.none) :
    decodeEntries key value done failed log (e :: es) =
      decodeEntries key value done (failed ++ [e.1]) (log ++ entryReasons key value e) es := by
  have hn : ∀ k v, key e.1 = .ok k → value e.2 = .ok v → False := fun k v hk hv =>
    Option.some_ne_none (k, v) ((pair?_eq_some_iff.mpr ⟨hk, hv⟩).symm.trans h)
  rw [decodeEntries, entryReasons, ← List.append_assoc]
  split
  · rename_i k v hk hv
    exact (hn k v hk hv).elim
  · rfl

theorem entryReasons_of_some (h : pair? key value e = some p) : entryReasons key value e = [] := by
  obtain ⟨hk, hv⟩ := pair?_eq_some_iff.mp h
  rw [entryReasons, hk, hv]
  rfl

/-- While the keys are apart each entry has its say, and the rest goes on from there. -/
theorem decodeEntries_append (h : Apart (done ++ before.filterMap (pair? key value))) :
    ∃ failed', ∀ rest, decodeEntries key value done failed log (before ++ rest) =
      decodeEntries key value (done ++ before.filterMap (pair? key value)) failed'
        (log ++ before.flatMap (entryReasons key value)) rest := by
  induction before generalizing done failed log with
  | nil => exact ⟨failed, fun rest => by simp⟩
  | cons e before ih =>
    cases he : pair? key value e with
    | none =>
      rw [List.filterMap_cons_none he] at h ⊢
      obtain ⟨failed', hr⟩ := ih h
      refine ⟨failed', fun rest => ?_⟩
      rw [List.cons_append, decodeEntries_cons_of_none he, hr, List.flatMap_cons, List.append_assoc]
    | some p =>
      rw [List.filterMap_cons_some he, List.append_cons] at h ⊢
      obtain ⟨failed', hr⟩ := ih h
      refine ⟨failed', fun rest => ?_⟩
      have hp := (apart_concat_iff.mp h.of_append).2
      rw [List.cons_append, decodeEntries_cons_of_some he, hp, if_neg Bool.false_ne_true, hr,
        List.flatMap_cons, entryReasons_of_some he, List.nil_append]

theorem decodeEntries_append_of_collision (hd : Apart done)
    (h : ¬ Apart (done ++ before.filterMap (pair? key value))) :
    ∃ body k, ∀ rest,
      decodeEntries key value done failed log (before ++ rest) = .error (body, .collision k) := by
  induction before generalizing done failed log with
  | nil => exact (h (by simpa using hd)).elim
  | cons e before ih =>
    cases he : pair? key value e with
    | none =>
      rw [List.filterMap_cons_none he] at h
      simp only [List.cons_append, decodeEntries_cons_of_none he]
      exact ih hd h
    | some p =>
      rw [List.filterMap_cons_some he, List.append_cons] at h
      simp only [List.cons_append, decodeEntries_cons_of_some he]
      cases hp : Value.hasKey done p.1 with
      | true => exact ⟨log, p.1, fun _ => rfl⟩
      | false => exact ih (apart_concat_iff.mpr ⟨hd, hp⟩) h

theorem prefix_of_decodeEntries {rs : List Reason} {why : Obstacle}
    (h : decodeEntries key value done failed log es = .error (rs, why)) : log <+: rs := by
  induction es generalizing done failed log with
  | nil =>
    rw [decodeEntries] at h
    split at h
    · cases h
    · cases h
      exact List.prefix_rfl
  | cons e es ih =>
    cases he : pair? key value e with
    | none =>
      rw [decodeEntries_cons_of_none he] at h
      exact (List.prefix_append _ _).trans (ih h)
    | some p =>
      rw [decodeEntries_cons_of_some he] at h
      split at h
      · cases h
        exact List.prefix_rfl
      · exact ih h

/-- With the keys before it apart, an entry that fails has its say in one piece. -/
theorem infix_of_decodeEntries {rs : List Reason} {why : Obstacle} {i : Nat}
    (h : decodeEntries key value [] [] [] es = .error (rs, why)) (he : es[i]? = some e)
    (hn : pair? key value e = Option.none)
    (ha : Apart ((es.take i).filterMap (pair? key value))) : entryReasons key value e <:+: rs := by
  obtain ⟨hi, rfl⟩ := List.getElem?_eq_some_iff.mp he
  have ha : Apart ([] ++ (es.take i).filterMap (pair? key value)) := ha
  obtain ⟨failed, hr⟩ := decodeEntries_append ha
  rw [← List.take_append_drop i es, hr, List.drop_eq_getElem_cons hi,
    decodeEntries_cons_of_none hn] at h
  exact (List.suffix_append _ _).isInfix.trans (prefix_of_decodeEntries h).isInfix

end Entries

/-! ## Members of containers -/

/-- A member of a tree, by its position, and the shape that a container has for it. -/
inductive MemberAt : Shape → Json → Nat → Shape → Json → Prop
  | item {kind : SequenceKind} {s : Shape} {xs : List Json} {i : Nat} {x : Json} :
      xs[i]? = some x → MemberAt (sequence kind s) (.list xs) i s x
  | value {kind : MappingKind} {key value : Shape} {es : List (String × Json)} {i : Nat}
      {text : String} {x : Json} :
      es[i]? = some (text, x) → MemberAt (mapping kind key value) (.map es) i value x
  | declared {name : String} {ks : List (Key Shape)} {es : List (String × Json)} {i : Nat}
      {k : Key Shape} {x : Json} : k ∈ ks → es[i]? = some (k.name, x) →
      MemberAt (typedDict name ks) (.map es) i k.shape x

/-- Two entries of a map decode, and the second has the key of the first. -/
structure Collide (o : Settings) (key value : Shape) (d e : String × Json) : Prop where
  keys : ∃ a b, StandsForKey o key d.1 a ∧ StandsForKey o key e.1 b ∧ b.same a = true
  first : ∃ v, decode o value d.2 = .ok v
  second : ∃ w, decode o value e.2 = .ok w

/-- Two entries before a position of a map collide. -/
inductive CollidesBefore (o : Settings) : Shape → Json → Nat → Prop
  | mk {kind : MappingKind} {key value : Shape} {es : List (String × Json)} {i : Nat}
      {d e : String × Json} : [d, e].Sublist (es.take i) → Collide o key value d e →
      CollidesBefore o (mapping kind key value) (.map es) i

variable {o : Settings} {s t : Shape} {j x : Json} {i : Nat}

theorem decodeKey_of_find? {ks : List (Key Shape)} {name : String} {k : Key Shape}
    (h : ks.find? (·.name == name) = some k) :
    decodeKey o ks name j = (decodeJson o k.shape j).mapError fun rs => (rs, .failedKey name) := by
  induction ks with
  | nil => cases h
  | cons l ks ih =>
    rw [decodeKey]
    by_cases hl : l.name = name
    · rw [List.find?_cons_of_pos (by simpa using hl)] at h
      rw [if_pos hl, Option.some.inj h]
    · rw [List.find?_cons_of_neg (by simpa using hl)] at h
      rw [if_neg hl, ih h]

/-- A container decodes only together with its members. -/
theorem MemberAt.ok_of_ok {v : Value} (hm : MemberAt s j i t x) (hs : s.checkable = true)
    (h : decodeJson o s j = .ok v) : ∃ w, decodeJson o t x = .ok w := by
  cases hm with
  | item hx =>
    obtain ⟨_, vs, ⟨⟩, hvs, -⟩ := decodeJson_sequence_eq_ok_iff.mp h
    obtain ⟨w, -, hw⟩ := hvs.exists_of_mem_left (List.mem_of_getElem? hx)
    exact ⟨w, hw⟩
  | value hx =>
    obtain ⟨_, ps, ⟨⟩, hps, -⟩ := decodeJson_mapping_eq_ok_iff.mp h
    obtain ⟨p, -, -, hp⟩ := hps.exists_of_mem_left (List.mem_of_getElem? hx)
    exact ⟨p.2, hp⟩
  | declared hk hx =>
    obtain ⟨_, vs, ⟨⟩, -, hvs, -⟩ := decodeJson_typedDict_eq_ok_iff.mp h
    obtain ⟨w, -, -, k, hf, hw⟩ := hvs.exists_of_mem_left (List.mem_of_getElem? hx)
    rw [List.find?_of_nodup_map (nodup_of_checkable_typedDict hs) hk] at hf
    exact ⟨w.2, Option.some.inj hf ▸ hw⟩

theorem apart_iff {key value : Shape} {es : List (String × Json)}
    (hk : key.satisfies .encodable = true) (hv : value.satisfies .encodable = true) :
    Apart (es.filterMap (pair? (decodeKeyText key (decodeJson o key)) (decodeJson o value))) ↔
      ∀ d e, [d, e].Sublist es → ¬ Collide o key value d e := by
  have hdecode : ∀ x v, decodeJson o value x = .ok v ↔ decode o value x = .ok v := fun x v =>
    (decode_eq_ok_iff.trans (and_iff_right hv)).symm
  rw [Apart, List.pairwise_filterMap, List.pairwise_iff_forall_sublist]
  simp only [pair?_eq_some_iff, decodeKeyText_eq_ok_iff hk, hdecode]
  constructor
  · rintro h d e hde ⟨⟨a, b, ha, hb, hab⟩, ⟨v, hv⟩, w, hw⟩
    exact Bool.false_ne_true ((h hde (a, v) ⟨ha, hv⟩ (b, w) ⟨hb, hw⟩).symm.trans hab)
  · rintro h d e hde p ⟨hp, hv⟩ q ⟨hq, hw⟩
    by_contra hab
    exact h d e hde ⟨⟨p.1, q.1, hp, hq, Bool.of_not_eq_false hab⟩, ⟨p.2, hv⟩, q.2, hw⟩

theorem MemberAt.infix_of_error {rs inner : List Reason} (hm : MemberAt s j i t x)
    (hs : s.satisfies .encodable = true) (h : decodeJson o s j = .error rs)
    (hx : decodeJson o t x = .error inner) (hn : ¬ CollidesBefore o s j i) :
    ∃ body why, inner <:+: body ∧ rs = body ++ line s j why := by
  cases hm with
  | item hi =>
    obtain ⟨why, rfl⟩ := eq_of_ofMembers_eq_error h
    refine ⟨_, why, ?_, rfl⟩
    have hpart := List.mem_map_of_mem (f := decodeJson o t) (List.mem_of_getElem? hi)
    have hpiece := List.infix_of_mem_flatten (List.mem_map_of_mem (f := reasonsOf) hpart)
    rwa [hx] at hpiece
  | @value kind key _ es _ text _ hi =>
    have hkey : key.satisfies .encodable = true := satisfies_of_mem_parts hs (by simp)
    have hvalue : t.satisfies .encodable = true := satisfies_of_mem_parts hs (by simp)
    rw [decodeJson] at h
    unfold ofEntries at h
    split at h
    · cases h
    · rename_i body why he
      cases h
      refine ⟨body, why, ?_, rfl⟩
      have hpiece := infix_of_decodeEntries he hi (by simp [pair?, hx])
        ((apart_iff hkey hvalue).mpr fun d e hde hc => hn (.mk hde hc))
      rw [entryReasons, hx] at hpiece
      exact (List.suffix_append _ _).isInfix.trans hpiece
  | @declared name ks es _ k _ hk hi =>
    obtain ⟨why, rfl⟩ := eq_of_ofSlots_eq_error h
    refine ⟨_, why, ?_, rfl⟩
    have hnd := nodup_of_checkable_typedDict (satisfies_encodable_iff.mp hs).1
    have hslot : decodeKey o ks k.name x = .error (inner, .failedKey k.name) := by
      rw [decodeKey_of_find? (List.find?_of_nodup_map hnd hk), hx]
      rfl
    have hpart := List.mem_map_of_mem
      (f := fun e => (decodeKey o ks e.1 e.2).map fun v => (Value.str e.1, v))
      (List.mem_of_getElem? hi)
    have hpiece := List.infix_of_mem_flatten (List.mem_map_of_mem (f := slotReasons) hpart)
    rwa [slotReasons_map, hslot] at hpiece

end Shape

theorem decode_eq_error_of_decodeJson {o : Settings} {s : Shape} {j : Json} {rs : List Reason}
    (hs : s.satisfies .encodable = true) (h : s.decodeJson o j = .error rs) :
    decode o s j = .error (.conformance ⟨rs⟩) := by
  rw [decode, Shape.ensure_of_satisfies hs]
  change (s.decodeJson o j).mapError _ = _
  rw [h]
  rfl

/-- A sequence, map or typed dict does not decode without its members. The reasons of a member that
does not decode stand in one piece before the last line of the container, unless the keys of two
entries before it in a map are the same. The second of these then ends the log, whatever the entries
after it are. -/
theorem failed_members_have_their_say {o : Settings} {s t : Shape} {j x : Json} {i : Nat}
    {inner : Log Reason} (hs : s.satisfies .encodable = true) (hm : s.MemberAt j i t x)
    (hx : decode o t x = .error (.conformance inner)) :
    (¬ s.CollidesBefore o j i → ∃ body why, inner.reasons <:+: body ∧
      decode o s j = .error (.conformance ⟨body ++ [.undecodable j s why]⟩)) ∧
    ∀ es, j = .map es → s.CollidesBefore o j i → ∃ body k, ∀ rest,
      decode o s (.map (es.take i ++ rest)) = .error (.conformance
        ⟨body ++ [.undecodable (.map (es.take i ++ rest)) s (.collision k)]⟩) := by
  have hx := decode_eq_conformance hx
  constructor
  · intro hn
    cases h : s.decodeJson o j with
    | ok v =>
      obtain ⟨w, hw⟩ := hm.ok_of_ok (Shape.satisfies_encodable_iff.mp hs).1 h
      cases hw.symm.trans hx
    | error rs =>
      obtain ⟨body, why, hpiece, rfl⟩ := hm.infix_of_error hs h hx hn
      exact ⟨body, why, hpiece, decode_eq_error_of_decodeJson hs h⟩
  · rintro es rfl hc
    obtain @⟨kind, key, value, _, _, d, e, hde, hde'⟩ := hc
    have hkey : key.satisfies .encodable = true :=
      Shape.satisfies_of_mem_parts hs (by simp)
    have hvalue : value.satisfies .encodable = true :=
      Shape.satisfies_of_mem_parts hs (by simp)
    have hn := mt (Shape.apart_iff hkey hvalue).mp fun h => h d e hde hde'
    obtain ⟨body, k, hr⟩ : ∃ body k, ∀ rest, Shape.decodeEntries
        (Shape.decodeKeyText key (key.decodeJson o)) (value.decodeJson o) [] [] []
          (List.take _ _ ++ rest) = .error (body, .collision k) :=
      Shape.decodeEntries_append_of_collision .nil hn
    refine ⟨body, k, fun rest => decode_eq_error_of_decodeJson hs ?_⟩
    rw [Shape.decodeJson, hr rest]
    rfl

theorem failed_members_have_their_say_last :
    let es : List (String × Json) := [("1", .str "x"), ("1.0", .int 0), ("2", .str "y")]
    ∃ body why, [.undecodable (.str "y") .int (.found (.str "y"))] <:+: body ∧
      decode .standard (.mapping .dict .int .int) (.map es) = .error (.conformance
        ⟨body ++ [.undecodable (.map es) (.mapping .dict .int .int) why]⟩) := by
  intro es
  have hx : decode .standard .int (.str "y") = .error (.conformance
      ⟨[.undecodable (.str "y") .int (.found (.str "y"))]⟩) := by cbv
  have hm : Shape.MemberAt (.mapping .dict .int .int) (.map es) 2 .int (.str "y") := .value rfl
  refine (failed_members_have_their_say (by decide) hm hx).1 ?_
  rintro ⟨hde, hc⟩
  obtain ⟨rfl, -⟩ := List.cons.inj (hde.eq_of_length rfl)
  obtain ⟨v, hv⟩ := hc.first
  have he : decode .standard .int (.str "x") = .error (.conformance
      ⟨[.undecodable (.str "x") .int (.found (.str "x"))]⟩) := by cbv
  cases hv.symm.trans he

/-- An entry with a value that does not decode is left unsaid when the keys of two entries before it
collide. -/
theorem failed_member_unsaid :
    let es : List (String × Json) := [("1", .int 0), ("1.0", .int 0), ("2", .str "x")]
    let said : Reason := .undecodable (.str "x") .int (.found (.str "x"))
    let last : Reason := .undecodable (.map es) (.mapping .dict .int .int) (.collision (.int 1))
    Shape.MemberAt (.mapping .dict .int .int) (.map es) 2 .int (.str "x") ∧
      decode .standard .int (.str "x") = .error (.conformance ⟨[said]⟩) ∧
      decode .standard (.mapping .dict .int .int) (.map es) = .error (.conformance ⟨[last]⟩) ∧
      ¬ [said] <:+: [last] := by
  intro es said last
  refine ⟨.value rfl, by cbv, by cbv, fun h => ?_⟩
  cases (Reason.undecodable.inj (List.mem_singleton.mp (h.mem List.mem_cons_self))).1

end ShapeCodec
