import ShapeCodec.Proofs.Switches.KeyTexts

/-! # Casting only adds

Decimal casting is the one switch that instances depend on, and turning it on loses none of them.
Where no union occurs it changes nothing that was encoded or decoded without it either: the null,
which an optional shape leaves to its empty branch, is never a matter of casting, and neither is the
text of a direct key that stands for itself.
-/

namespace ShapeCodec

theorem Json.toInt64_mono {o o' : Settings} {j : Json} {i : Int64}
    (ho : o.castDecimal = true → o'.castDecimal = true) (h : j.toInt64 o = .ok i) :
    j.toInt64 o' = .ok i := by
  cases j with
  | number n =>
    unfold toInt64 at h ⊢
    cases hf : n.isFractional with
    | false => simpa [hf] using h
    | true =>
      cases hc : o.castDecimal with
      | false => simp [hf, hc] at h
      | true => simpa [hf, hc, ho hc] using h
  | _ => exact h

theorem Json.toBinary64_mono {o o' : Settings} {j : Json} {x : Binary64}
    (ho : o.castDecimal = true → o'.castDecimal = true) (h : j.toBinary64 o = .ok x) :
    j.toBinary64 o' = .ok x := by
  cases j with
  | number n =>
    unfold toBinary64 at h ⊢
    cases hc : o.castDecimal with
    | false => simp [hc] at h
    | true => simpa [hc, ho hc] using h
  | _ => exact h

namespace Shape

variable {o o' : Settings} {s key : Shape} {v : Value} {j c : Json}

/-! ## Instances -/

section Complaints

variable {ss : List Shape} {fs : List (Field Shape)} {ks : List (Key Shape)}

theorem itemComplaints_congr (h : ∀ s ∈ ss, ∀ v, complaints o s v = complaints o' s v)
    (xs : List Value) : itemComplaints o ss xs = itemComplaints o' ss xs := by
  induction ss generalizing xs with
  | nil => cases xs <;> rfl
  | cons s ss ih =>
    obtain ⟨hs, hss⟩ := List.forall_mem_cons.mp h
    cases xs with
    | nil => rfl
    | cons x xs => exact congrArg₂ (· ++ ·) (hs x) (ih hss xs)

theorem branchComplaints_congr (h : ∀ s ∈ ss, ∀ v, complaints o s v = complaints o' s v)
    (v : Value) : branchComplaints o ss v = branchComplaints o' ss v := by
  induction ss with
  | nil => rfl
  | cons s ss ih =>
    obtain ⟨hs, hss⟩ := List.forall_mem_cons.mp h
    exact congrArg₂ (· ++ ·) (hs v) (ih hss)

theorem fieldComplaints_congr (h : ∀ f ∈ fs, ∀ v, complaints o f.shape v = complaints o' f.shape v)
    (vs : List (String × Value)) : fieldComplaints o fs vs = fieldComplaints o' fs vs := by
  induction fs generalizing vs with
  | nil => cases vs <;> rfl
  | cons f fs ih =>
    obtain ⟨hf, hfs⟩ := List.forall_mem_cons.mp h
    cases vs with
    | nil => rfl
    | cons p vs => exact congrArg₂ (· ++ ·) (hf p.2) (ih hfs vs)

theorem keyComplaints_congr (h : ∀ k ∈ ks, ∀ v, complaints o k.shape v = complaints o' k.shape v)
    (dict name : String) (v : Value) :
    keyComplaints o dict ks name v = keyComplaints o' dict ks name v := by
  induction ks with
  | nil => rfl
  | cons k ks ih =>
    obtain ⟨hk, hks⟩ := List.forall_mem_cons.mp h
    exact if_congr Iff.rfl (hk v) (ih hks)

/-- What is to be said against a value depends on decimal casting and on no other switch. -/
theorem complaints_congr (ho : o.castDecimal = o'.castDecimal) (s : Shape) (v : Value) :
    complaints o s v = complaints o' s v := by
  induction s using inductionParts generalizing v with
  | step s ih =>
  have inner : innerComplaints o s v = innerComplaints o' s v := by
    have line : ∀ p ∈ s.parts, ∀ x, withLine o p x (innerComplaints o p x) =
      withLine o' p x (innerComplaints o' p x) := ih
    cases s with
    | sequence k s =>
      simp only [innerComplaints, line s (by simp)]
    | tuple ss =>
      have items : ∀ xs, itemComplaints o ss xs = itemComplaints o' ss xs :=
        itemComplaints_congr ih
      simp only [innerComplaints, items]
    | mapping k key value =>
      simp only [innerComplaints, line key (by simp), line value (by simp)]
    | optional s =>
      have empty : withLine o none v [] = withLine o' none v [] := by
        rw [withLine, withLine, conforms_congr ho]
      simp only [innerComplaints, line s (by simp), empty]
    | union ss =>
      have branch : branchComplaints o ss v = branchComplaints o' ss v :=
        branchComplaints_congr ih v
      simp only [innerComplaints, branch]
    | record name fs =>
      simp only [innerComplaints, fieldComplaints_congr fun f hf => ih _ (mem_parts_record hf)]
    | typedDict name ks =>
      simp only [innerComplaints, keyComplaints_congr fun k hk => ih _ (mem_parts_typedDict hk)]
    | _ => simp only [innerComplaints]
  rw [complaints, complaints, inner, withLine, withLine, conforms_congr ho]

end Complaints

/-! ## Decoding -/

theorem decodeJson_null (o o' : Settings) (s : Shape) :
    decodeJson o s .null = decodeJson o' s .null := by
  induction s using inductionParts with
  | step s ih =>
  cases s with
  | optional s => rw [decodeJson, decodeJson, ih s (List.mem_singleton.mpr rfl)]
  | union ss =>
    have branch : decodeBranch o ss .null = decodeBranch o' ss .null := decodeBranch_congr ih
    rw [decodeJson, decodeJson, branch]
  | _ => simp only [decodeJson, Json.toInt64, Json.toBinary64]

theorem decodeJson_congr_of_direct (hf : s.keyForm = .direct) (hi : s ≠ int) (hx : s ≠ float) :
    decodeJson o s = decodeJson o' s := by
  funext j
  cases s with
  | int => exact (hi rfl).elim
  | float => exact (hx rfl).elim
  | bool | str | none | literal | enum => simp only [decodeJson]
  | _ => cases hf

theorem keyCandidates_of_number (hs : s = int ∨ s = float) (text : String) :
    keyCandidates s text = [.str text] ∨ ∃ j, keyCandidates s text = [j, .str text] := by
  rcases hs with rfl | rfl <;>
  · cases hr : Json.read text with
    | error e => exact .inl (by simp [keyCandidates, hr])
    | ok j =>
      cases ht : j.scalarText? with
      | none => exact .inl (by simp [keyCandidates, hr, ht])
      | some t => exact .inr ⟨j, by simp [keyCandidates, hr, ht]⟩

theorem decodeJson_str_ne_ok_of_number (hs : s = int ∨ s = float) (text : String) :
    decodeJson o s (.str text) ≠ .ok v := by
  rcases hs with rfl | rfl
  · simp [Json.toInt64]
  · simp [Json.toBinary64]

/-- A direct key that is a number is read from the tree in its text, which no candidate precedes,
and any other direct key decodes alike under all switches. -/
theorem decodeKeyText_mono {text : String}
    (h : ∀ j v, decodeJson o key j = .ok v → decodeJson o' key j = .ok v)
    (hk : decodeKeyText key (decodeJson o key) text = .ok v) :
    decodeKeyText key (decodeJson o' key) text = .ok v := by
  unfold decodeKeyText at hk ⊢
  cases hf : key.keyForm with
  | stringified =>
    rw [hf] at hk
    cases hr : Json.read text with
    | error e => rw [hr] at hk; cases hk
    | ok j => rw [hr] at hk; exact h j v hk
  | direct =>
    rw [hf] at hk
    by_cases hs : key = int ∨ key = float
    · obtain ⟨c, hc, hv⟩ := exists_of_firstDecoded hk
      have hne : c ≠ .str text := by
        rintro rfl
        exact decodeJson_str_ne_ok_of_number hs text hv
      rcases keyCandidates_of_number hs text with hcs | ⟨j, hcs⟩
      · rw [hcs, List.mem_singleton] at hc
        exact (hne hc).elim
      · rw [hcs] at hc ⊢
        obtain rfl : c = j := by simpa [hne] using hc
        exact firstDecoded_of_head (h c v hv)
    · obtain ⟨hi, hx⟩ := not_or.mp hs
      rw [decodeJson_congr_of_direct hf hi hx] at hk
      exact hk

theorem decodeJson_mono (ho : o.castDecimal = true → o'.castDecimal = true) (hu : s.UnionFree)
    (h : decodeJson o s j = .ok v) : decodeJson o' s j = .ok v := by
  induction s using inductionParts generalizing j v with
  | step s ih =>
  have part : ∀ p ∈ s.parts, ∀ j v, decodeJson o p j = .ok v → decodeJson o' p j = .ok v :=
    fun p hp _ _ => ih p hp (hu.part hp)
  cases s with
  | union ss => exact ((unionFree_iff.mp hu).1 ss rfl).elim
  | int =>
    rw [decodeJson_int_eq_ok_iff] at h ⊢
    exact h.imp fun i => And.imp_left (Json.toInt64_mono ho)
  | float =>
    rw [decodeJson_float_eq_ok_iff] at h ⊢
    exact h.imp fun x => And.imp_left (Json.toBinary64_mono ho)
  | sequence k s =>
    rw [decodeJson_sequence_eq_ok_iff] at h ⊢
    obtain ⟨xs, vs, rfl, hv, rfl⟩ := h
    exact ⟨xs, vs, rfl, hv.imp (part s (by simp)), rfl⟩
  | tuple ss =>
    rw [decodeJson_tuple_eq_ok_iff] at h ⊢
    obtain ⟨xs, vs, rfl, hl, hv, rfl⟩ := h
    exact ⟨xs, vs, rfl, hl, hv.imp_of_mem fun q hq w => part q.1 (List.of_mem_zip hq).1 q.2 w, rfl⟩
  | mapping k key value =>
    rw [decodeJson_mapping_eq_ok_iff] at h ⊢
    obtain ⟨es, ps, rfl, hp, hd, rfl⟩ := h
    refine ⟨es, ps, rfl, hp.imp fun e p he => ⟨?_, ?_⟩, hd, rfl⟩
    · exact decodeKeyText_mono (part key (by simp)) he.1
    · exact part value (by simp) _ _ he.2
  | optional s =>
    rw [decodeJson_optional_eq_ok_iff] at h ⊢
    rcases h with h | ⟨hn, rfl, rfl⟩
    · exact .inl (part s (by simp) j v h)
    · exact .inr ⟨decodeJson_null o o' s ▸ hn, rfl, rfl⟩
  | record name fs =>
    rw [decodeJson_record_eq_ok_iff] at h ⊢
    obtain ⟨given, vs, hg, hv, rfl⟩ := h
    refine ⟨given, vs, hg, hv.imp_of_mem fun q hq w => And.imp_right ?_, rfl⟩
    rintro (⟨x, hx, hw⟩ | hd)
    · exact .inl ⟨x, hx, part _ (mem_parts_record (List.of_mem_zip hq).1) x w.2 hw⟩
    · exact .inr hd
  | typedDict name ks =>
    rw [decodeJson_typedDict_eq_ok_iff] at h ⊢
    obtain ⟨es, vs, rfl, hr, hv, rfl⟩ := h
    refine ⟨es, vs, rfl, hr, hv.imp fun e w => And.imp_right ?_, rfl⟩
    rintro ⟨k, hk, hw⟩
    exact ⟨k, hk, part _ (mem_parts_typedDict (List.mem_of_find?_eq_some hk)) _ _ hw⟩
  | _ => simpa only [decodeJson] using h

/-! ## Encoding -/

theorem conforms_none_value (o o' : Settings) (s : Shape) :
    conforms o s .none = conforms o' s .none := by
  induction s using inductionParts with
  | step s ih =>
  cases s with
  | optional s => simp only [conforms, Bool.or_true]
  | union ss =>
    rw [Bool.eq_iff_iff, conforms_union_iff, conforms_union_iff]
    exact exists_congr fun t => and_congr_right fun ht => by rw [ih t ht]
  | _ => simp only [conforms]

theorem encodeValue_mono (ho : o.castDecimal = true → o'.castDecimal = true)
    (hd : o.decimalsAsNumbers = o'.decimalsAsNumbers) (hr : o.recordsAsLists = o'.recordsAsLists)
    (hu : s.UnionFree) (h : encodeValue o s v = .ok c) : encodeValue o' s v = .ok c := by
  induction s using inductionParts generalizing v c with
  | step s ih =>
  have part : ∀ p ∈ s.parts, ∀ w j, encodeValue o p w = .ok j → encodeValue o' p w = .ok j :=
    fun p hp _ _ => ih p hp (hu.part hp)
  cases s with
  | union ss => exact ((unionFree_iff.mp hu).1 ss rfl).elim
  | optional s =>
    rw [encodeValue.eq_def] at h ⊢
    dsimp only at h ⊢
    split at h
    · rename_i hv
      rw [if_pos (conforms_mono ho hv)]
      exact part s (by simp) v c h
    · rename_i hv
      split at h
      · rw [conforms_none_value o' o, if_neg hv]
        exact h
      · cases h
  | _ => exact encodeValue_of_parts hd hr rfl part h

end Shape

/-- Casting only adds: no instance is lost by it, no other switch has a say in instances, and where
no union occurs what is encoded or decoded without it is encoded or decoded to the same with it. -/
theorem casting_only_adds (s : Shape) :
    (s.checkable = true → ∀ v : Value,
      (∀ o : Settings, ∃ off on, isInstance o.strict s v = .ok off ∧
        isInstance { o with castDecimal := true } s v = .ok on ∧
        (off.holds = true → on.holds = true)) ∧
      ∀ o o' : Settings, o.castDecimal = o'.castDecimal → isInstance o s v = isInstance o' s v) ∧
    (s.UnionFree → ∀ o : Settings,
      (∀ v c, encode o.strict s v = .ok c → encode { o with castDecimal := true } s v = .ok c) ∧
      ∀ c v, decode o.strict s c = .ok v → decode { o with castDecimal := true } s c = .ok v) := by
  constructor
  · intro hc v
    constructor
    · intro o
      exact ⟨_, _, isInstance_of_checkable hc, isInstance_of_checkable hc,
        Shape.conforms_mono fun _ => rfl⟩
    · intro o o' ho
      rw [isInstance_of_checkable hc, isInstance_of_checkable hc, Shape.conforms_congr ho,
        Shape.complaints_congr ho]
  · intro hu o
    constructor
    · intro v c h
      obtain ⟨hs, hv, hc⟩ := encode_eq_ok_iff.mp h
      exact encode_eq_ok_iff.mpr ⟨hs, Shape.conforms_mono (fun _ => rfl) hv,
        Shape.encodeValue_mono (o := o.strict) (fun _ => rfl) rfl rfl hu hc⟩
    · intro c v h
      obtain ⟨hs, hv⟩ := decode_eq_ok_iff.mp h
      exact decode_eq_ok_iff.mpr ⟨hs, Shape.decodeJson_mono (fun _ => rfl) hu hv⟩

theorem casting_only_adds_ratings :
    let s : Shape := .mapping .dict .int (.optional .int)
    let v : Value := .map .dict [(.int 3, .int 2), (.int 4, .none)]
    let c : Json := .map [("3", .int 2), ("4", .null)]
    let x : Value := .map .dict [(.int 3, .decimal (.ofInt64 2))]
    encode .standard s v = .ok c ∧ decode .standard s c = .ok v ∧
      isInstance { recordsAsLists := true } s v = isInstance .standard s v ∧
      s.conforms Settings.standard.strict x = false ∧ s.conforms .standard x = true := by
  intro s v c x
  have int : Shape.int.UnionFree := Shape.unionFree_of_parts_eq_nil rfl nofun
  have hu : s.UnionFree := Shape.unionFree_iff.mpr ⟨nofun, List.forall_mem_pair.mpr
    ⟨int, Shape.unionFree_iff.mpr ⟨nofun, List.forall_mem_singleton.mpr int⟩⟩⟩
  have hv : encode Settings.standard.strict s v = .ok c := by cbv
  have hw : decode Settings.standard.strict s c = .ok v := by cbv
  obtain ⟨hinstance, hmono⟩ := casting_only_adds s
  obtain ⟨hencode, hdecode⟩ := hmono hu .standard
  exact ⟨hencode v c hv, hdecode c v hw, (hinstance rfl v).2 _ _ rfl, by cbv, by cbv⟩

end ShapeCodec
