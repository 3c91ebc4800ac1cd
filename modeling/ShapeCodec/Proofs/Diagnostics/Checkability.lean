import ShapeCodec.Proofs.Diagnostics.Encodability

/-! # What is said against checking, in post-order

A shape that cannot be checked against is said so once for each occurrence that cannot, parts from
left to right and a shape after its parts. What is said in between, about names, branches, literals
and defaults, is never a line about a type: even the complaints about a default are about values.
-/

namespace ShapeCodec

/-! ## Lines about types -/

/-- Two texts that part before either of them ends. -/
def Parting (text word : String) : Prop :=
  ¬ word.toList <+: text.toList ∧ ¬ text.toList <+: word.toList

instance (text word : String) : Decidable (Parting text word) :=
  inferInstanceAs (Decidable (_ ∧ _))

theorem Parting.append {text word : String} (h : Parting text word) (rest : String) :
    Parting (text ++ rest) word := by
  rw [Parting, String.toList_append]
  constructor
  · intro hw
    exact (List.prefix_or_prefix_of_prefix hw (List.prefix_append _ _)).elim h.1 h.2
  · intro ht
    exact h.2 ((List.prefix_append _ _).trans ht)

namespace Reason

def isJudgment : Reason → Bool
  | fails _ _ => true
  | _ => false

variable {r : Reason}

theorem parting_text (h : r.isJudgment = false) : Parting r.text "Type " := by
  cases r with
  | fails judgment s => cases h
  | emptyLiteral => decide
  | _ =>
    repeat apply Parting.append
    decide

theorem startsWith_text (r : Reason) : r.text.startsWith "Type " = r.isJudgment := by
  rw [Bool.eq_iff_iff, String.startsWith_string_iff]
  constructor
  · intro h
    by_contra hr
    exact (parting_text (Bool.eq_false_iff.mpr hr)).1 h
  · intro h
    cases r with
    | fails judgment s =>
      rw [text_fails rfl, String.append_assoc, String.toList_append]
      exact List.prefix_append _ _
    | _ => cases h

theorem filter_startsWith_map_text (rs : List Reason) :
    (rs.map text).filter (·.startsWith "Type ") = (rs.filter isJudgment).map text := by
  rw [List.filter_map, show (fun t : String => t.startsWith "Type ") ∘ text = isJudgment from
    funext startsWith_text]

end Reason

namespace Shape

variable {o : Settings} {s : Shape} {v : Value} {ss : List Shape} {fs : List (Field Shape)}
  {ks : List (Key Shape)}

/-! ## Complaints about values -/

theorem filter_complaints_of_inner
    (h : (innerComplaints o s v).filter Reason.isJudgment = []) :
    (complaints o s v).filter Reason.isJudgment = [] := by
  rw [complaints, withLine]
  split
  · rfl
  · rw [List.filter_append, h]
    rfl

theorem filter_itemComplaints
    (h : ∀ s ∈ ss, ∀ v, (complaints o s v).filter Reason.isJudgment = []) (xs : List Value) :
    (itemComplaints o ss xs).filter Reason.isJudgment = [] := by
  induction ss generalizing xs with
  | nil => cases xs <;> rfl
  | cons s ss ih =>
    obtain ⟨hs, hss⟩ := List.forall_mem_cons.mp h
    cases xs with
    | nil => rfl
    | cons x xs =>
      rw [itemComplaints, List.filter_append, withLine_innerComplaints, hs, ih hss, List.append_nil]

theorem filter_fieldComplaints
    (h : ∀ f ∈ fs, ∀ v, (complaints o f.shape v).filter Reason.isJudgment = [])
    (vs : List (String × Value)) :
    (fieldComplaints o fs vs).filter Reason.isJudgment = [] := by
  induction fs generalizing vs with
  | nil => cases vs <;> rfl
  | cons f fs ih =>
    obtain ⟨hf, hfs⟩ := List.forall_mem_cons.mp h
    cases vs with
    | nil => rfl
    | cons p vs =>
      rw [fieldComplaints, List.filter_append, withLine_innerComplaints, hf, ih hfs,
        List.append_nil]

theorem filter_keyComplaints
    (h : ∀ k ∈ ks, ∀ v, (complaints o k.shape v).filter Reason.isJudgment = [])
    (dict name : String) (v : Value) :
    (keyComplaints o dict ks name v).filter Reason.isJudgment = [] := by
  induction ks with
  | nil => rfl
  | cons k ks ih =>
    obtain ⟨hk, hks⟩ := List.forall_mem_cons.mp h
    rw [keyComplaints]
    split
    · exact hk v
    · exact ih hks

theorem filter_complaints (o : Settings) (s : Shape) (v : Value) :
    (complaints o s v).filter Reason.isJudgment = [] := by
  induction s using inductionParts generalizing v with
  | step s ih =>
  apply filter_complaints_of_inner
  cases s with
  | sequence k s =>
    cases v with
    | sequence l xs =>
      rw [innerComplaints]
      split
      · rw [List.filter_flatMap, List.flatMap_eq_nil_iff]
        exact fun x _ => ih s (by simp) x
      · rfl
    | _ => rfl
  | tuple ss =>
    cases v with
    | sequence l xs =>
      cases l with
      | tuple =>
        rw [innerComplaints]
        split
        · exact filter_itemComplaints ih xs
        · rfl
      | _ => rfl
    | _ => rfl
  | mapping k key value =>
    cases v with
    | map l es =>
      rw [innerComplaints]
      split
      · rw [List.filter_flatMap, List.flatMap_eq_nil_iff]
        intro e _
        rw [List.filter_append, withLine_innerComplaints, withLine_innerComplaints,
          ih key (by simp), ih value (by simp), List.append_nil]
      · rfl
    | _ => rfl
  | optional s =>
    have empty : (complaints o none v).filter Reason.isJudgment = [] :=
      filter_complaints_of_inner rfl
    rw [innerComplaints, List.filter_append, withLine_innerComplaints, ih s (by simp),
      List.nil_append]
    exact empty
  | union ss =>
    rw [innerComplaints, branchComplaints_eq, List.filter_flatMap, List.flatMap_eq_nil_iff]
    exact fun s hs => ih s hs v
  | record name fs =>
    cases v with
    | record n vs =>
      rw [innerComplaints]
      split
      · exact filter_fieldComplaints (fun f hf => ih f.shape (mem_parts_record hf)) vs
      · rfl
    | _ => rfl
  | typedDict name ks =>
    cases v with
    | map l es =>
      have entry := fun (key : String) => filter_keyComplaints
        (fun k hk => ih k.shape (mem_parts_typedDict hk)) name key
      rw [innerComplaints, List.filter_append, List.filter_flatMap, List.append_eq_nil_iff,
        List.flatMap_eq_nil_iff]
      constructor
      · rintro ⟨key, x⟩ _
        cases key with
        | str key => exact entry key x
        | _ => rfl
      · rw [List.filter_eq_nil_iff, List.forall_mem_map]
        exact fun k _ => Bool.false_ne_true
    | _ => rfl
  | _ => rfl

/-! ## Judgments on shapes -/

def checkJudgments (s : Shape) : List Reason := (checkFaults s).filter Reason.isJudgment

theorem filter_nameFaults (owner : NameOwner) (ownerName : String) (names : List String) :
    (nameFaults owner ownerName names).filter Reason.isJudgment = [] := by
  rw [nameFaults, List.filter_eq_nil_iff, List.forall_mem_map]
  exact fun _ _ => Bool.false_ne_true

theorem filter_defaultFaults (record : String) (f : Field Shape) :
    (defaultFaults record f).filter Reason.isJudgment = [] := by
  unfold defaultFaults
  split
  · split
    · rfl
    · rw [List.filter_append, filter_complaints]
      rfl
  · rfl

theorem filter_checkFaultsAll (ss : List Shape) :
    (checkFaultsAll ss).filter Reason.isJudgment = ss.flatMap checkJudgments := by
  induction ss with
  | nil => rfl
  | cons s ss ih => rw [checkFaultsAll, List.filter_append, ih, List.flatMap_cons, checkJudgments]

/-- Defaults add no judgment to those on the shapes of the fields. -/
theorem filter_checkFaultsFields (record : String) (fs : List (Field Shape)) :
    (checkFaultsFields record fs).filter Reason.isJudgment =
      (fs.map (·.shape)).flatMap checkJudgments := by
  induction fs with
  | nil => rfl
  | cons f fs ih =>
    have default : (if checkable f.shape then defaultFaults record f else []).filter
        Reason.isJudgment = [] := by
      split
      · exact filter_defaultFaults record f
      · rfl
    rw [checkFaultsFields, List.filter_append, List.filter_append, default, ih, List.append_nil,
      List.map_cons, List.flatMap_cons, checkJudgments]

theorem filter_checkFaultsKeys (ks : List (Key Shape)) :
    (checkFaultsKeys ks).filter Reason.isJudgment =
      (ks.map (·.shape)).flatMap checkJudgments := by
  induction ks with
  | nil => rfl
  | cons k ks ih =>
    rw [checkFaultsKeys, List.filter_append, ih, List.map_cons, List.flatMap_cons, checkJudgments]

theorem checkJudgments_of_checkable (h : checkable s = true) : checkJudgments s = [] := by
  rw [checkJudgments, (concludes_checkFaults s).silent h]
  rfl

/-- The judgment on a shape comes after those on its parts, from left to right. -/
theorem checkJudgments_eq (s : Shape) : checkJudgments s =
    s.parts.flatMap checkJudgments ++ if checkable s then [] else [.fails .checkable s] := by
  cases hc : checkable s with
  | true =>
    have parts : s.parts.flatMap checkJudgments = [] := List.flatMap_eq_nil_iff.mpr fun p hp =>
      checkJudgments_of_checkable (checkable_of_mem_parts hc hp)
    rw [checkJudgments_of_checkable hc, parts]
    rfl
  | false =>
    have line : ∀ inner, (failing .checkable (checkable s) s inner).filter Reason.isJudgment =
        inner.filter Reason.isJudgment ++ [.fails .checkable s] := by
      intro inner
      rw [hc, failing, if_neg Bool.false_ne_true, List.filter_append]
      rfl
    rw [if_neg Bool.false_ne_true]
    cases s with
    | sequence k s =>
      rw [checkJudgments, checkFaults, line, parts, List.flatMap_singleton, checkJudgments]
    | tuple ss => rw [checkJudgments, checkFaults, line, filter_checkFaultsAll, parts]
    | mapping k key value =>
      rw [checkJudgments, checkFaults, line, List.filter_append, parts, List.flatMap_cons,
        List.flatMap_singleton, checkJudgments, checkJudgments]
    | optional s =>
      rw [checkJudgments, checkFaults, line, parts, List.flatMap_singleton, checkJudgments]
    | union ss =>
      have arity : (if ss.length < 2 then [Reason.fewBranches (union ss)] else []).filter
          Reason.isJudgment = [] := by
        split <;> rfl
      rw [checkJudgments, checkFaults, line, List.filter_append, arity, filter_checkFaultsAll,
        List.nil_append, parts]
    | literal ls => rw [checkJudgments, checkFaults, line]; rfl
    | record name fs =>
      rw [checkJudgments, checkFaults, line, List.filter_append, filter_nameFaults,
        filter_checkFaultsFields, List.nil_append, parts]
    | enum name ms => rw [checkJudgments, checkFaults, line, filter_nameFaults]; rfl
    | typedDict name ks =>
      rw [checkJudgments, checkFaults, line, List.filter_append, filter_nameFaults,
        filter_checkFaultsKeys, List.nil_append, parts]
    | _ => cases hc

/-- The judgments on a shape are those on the occurrences that fail, in their order. -/
theorem checkJudgments_eq_map (isKey : Bool) (s : Shape) : checkJudgments s =
    ((s.occurrencesAs isKey).filter fun o => !checkable o.shape).map
      fun o => .fails .checkable o.shape := by
  induction s using inductionParts generalizing isKey with
  | step s ih =>
  have part : ∀ q ∈ s.parts.zipIdx, checkJudgments q.1 =
      (((q.1.occurrencesAs (s.holdsKeyAt q.2)).map (Occurrence.under q.2)).filter
        fun o => !checkable o.shape).map fun o => .fails .checkable o.shape := by
    intro q hq
    rw [List.filter_map, List.map_map]
    exact ih q.1 (List.fst_mem_of_mem_zipIdx hq) (s.holdsKeyAt q.2)
  have own : (if checkable s then [] else [Reason.fails .checkable s]) =
      ([Occurrence.mk [] s isKey].filter fun o => !checkable o.shape).map
        fun o => .fails .checkable o.shape := by
    cases hc : checkable s <;> simp [hc]
  rw [checkJudgments_eq, occurrencesAs_eq, List.filter_append, List.map_append, own,
    List.filter_flatMap, List.map_flatMap, ← List.flatMap_congr part]
  conv_lhs => rw [← List.zipIdx_map_fst 0 s.parts, List.flatMap_map]

/-- The places of the occurrences that cannot be checked against, with their shapes. -/
def checkTrail (s : Shape) : List (List Nat × Shape) :=
  (s.occurrences.filter fun o => !checkable o.shape).map fun o => (o.place, o.shape)

theorem mem_checkTrail_iff {s t : Shape} {place : List Nat} :
    (place, t) ∈ s.checkTrail ↔ s.at? place = some t ∧ checkable t = false := by
  rw [checkTrail, List.mem_map]
  constructor
  · rintro ⟨o, ho, he⟩
    obtain ⟨rfl, rfl⟩ := Prod.mk.inj he
    obtain ⟨ho, hc⟩ := List.mem_filter.mp ho
    exact ⟨at?_of_mem_occurrencesAs ho, by simpa using hc⟩
  · rintro ⟨ht, hc⟩
    obtain ⟨key, ho⟩ := exists_mem_occurrencesAs ht false
    exact ⟨⟨place, t, key⟩, List.mem_filter.mpr ⟨ho, by simp [hc]⟩, rfl⟩

theorem postOrder_checkTrail (s : Shape) :
    s.checkTrail.Pairwise fun a b => PostOrder a.1 b.1 :=
  List.pairwise_map.mpr ((postOrder_occurrencesAs false s).filter _)

end Shape

/-- The lines about types that are said against checking a shape are one for each place whose shape
cannot be checked against, and they come in the post-order of these places. -/
theorem checkability_lines_in_post_order (s : Shape) :
    ∃ trail : List (List Nat × Shape),
      ((s.judge .checkable).log.reasons.map Reason.text).filter (·.startsWith "Type ") =
        trail.map (fun e => "Type " ++ e.2.text ++ " is not typecheckable.") ∧
      (∀ place t, (place, t) ∈ trail ↔
        s.at? place = some t ∧ (t.judge .checkable).holds = false) ∧
      trail.Pairwise fun a b => Shape.PostOrder a.1 b.1 := by
  refine ⟨s.checkTrail, ?_, fun place t => Shape.mem_checkTrail_iff, Shape.postOrder_checkTrail s⟩
  have hlines : s.checkJudgments = s.checkTrail.map fun e => .fails .checkable e.2 := by
    rw [Shape.checkJudgments_eq_map false, Shape.checkTrail, List.map_map]
    rfl
  have htext : ∀ t : Shape, (Reason.fails .checkable t).text =
      "Type " ++ t.text ++ " is not typecheckable." := fun t => Reason.text_fails rfl
  change ((s.checkFaults).map Reason.text).filter _ = _
  rw [Reason.filter_startsWith_map_text]
  change s.checkJudgments.map Reason.text = _
  rw [hlines, List.map_map]
  exact List.map_congr_left fun e _ => htext e.2

end ShapeCodec
