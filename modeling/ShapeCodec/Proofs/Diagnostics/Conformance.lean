import ShapeCodec.Proofs.Conformance.Cases
import ShapeCodec.Proofs.Diagnostics.Logging

/-! # Conformance on a log

Conformance as work on a log: a part is asked after another one whatever the answer, the branches of
a union write to logs of their own, and a line is added at the end when the answer is no. Whatever
the log holds, the answer is the one that is given without it, and the complaints are added.
-/

namespace ShapeCodec

namespace Shape

open Logging

mutual

def conformOn (o : Settings) : Shape → Value → Logging Bool
  | sequence k s, v => concluding (.notInstance v (sequence k s)) <| match v with
    | .sequence l xs => if k = l then allOn (conformOn o s) xs else return false
    | _ => return false
  | tuple ss, v => concluding (.notInstance v (tuple ss)) <| match v with
    | .sequence .tuple xs =>
      if xs.length = ss.length then conformItemsOn o ss xs
      else refuse (.tupleLength v xs.length ss.length)
    | _ => return false
  | mapping k key value, v => concluding (.notInstance v (mapping k key value)) <| match v with
    | .map l es =>
      if k.takes l then
        allOn (fun e => do
          let key ← conformOn o key e.1
          let value ← conformOn o value e.2
          return key && value) es
      else return false
    | _ => return false
  | optional s, v =>
    anyOn (.notInstance v (optional s)) .empty
      [conformOn o s v, concluding (.notInstance v none) (pure (conforms o none v))]
  | union ss, v => anyOn (.notInstance v (union ss)) .empty (conformBranchesOn o ss v)
  | record name fs, v => concluding (.notInstance v (record name fs)) <| match v with
    | .record _ vs =>
      if vs.map (·.1) = fs.map (·.name) then conformFieldsOn o fs vs
      else refuse (.recordFields v name)
    | _ => return false
  | typedDict name ks, v => concluding (.notInstance v (typedDict name ks)) <| match v with
    | .map _ es => do
      let entries ← allOn (fun e => match e.1 with
        | .str key => conformKeyOn o name ks key e.2
        | key => refuse (.keyKind key name)) es
      let required ← allOn (fun k =>
        if Value.hasKey es (.str k.name) then return true
        else refuse (.missingKey k.name name)) (ks.filter (·.required))
      return entries && required
    | _ => return false
  | s, v => concluding (.notInstance v s) (pure (conforms o s v))

def conformItemsOn (o : Settings) : List Shape → List Value → Logging Bool
  | s :: ss, x :: xs => do
    let first ← conformOn o s x
    let rest ← conformItemsOn o ss xs
    return first && rest
  | _, _ => return true

def conformBranchesOn (o : Settings) : List Shape → Value → List (Logging Bool)
  | [], _ => []
  | s :: ss, v => conformOn o s v :: conformBranchesOn o ss v

def conformFieldsOn (o : Settings) : List (Field Shape) → List (String × Value) → Logging Bool
  | f :: fs, p :: vs => do
    let first ← conformOn o f.shape p.2
    let rest ← conformFieldsOn o fs vs
    return first && rest
  | _, _ => return true

def conformKeyOn (o : Settings) (dict : String) : List (Key Shape) → String → Value → Logging Bool
  | [], name, _ => refuse (.unexpectedKey name dict)
  | k :: ks, name, v =>
    if k.name = name then conformOn o k.shape v else conformKeyOn o dict ks name v

end

variable {o : Settings} {s : Shape} {v : Value}

/-- Asked on a log, a shape answers as it does without one, and adds its complaints. -/
def ConformsOn (o : Settings) (s : Shape) : Prop :=
  ∀ v, Answers (conformOn o s v) (conforms o s v) (complaints o s v)

theorem answers_conformItemsOn {ss : List Shape} {xs : List Value} (h : ∀ s ∈ ss, ConformsOn o s)
    (hl : xs.length = ss.length) :
    Answers (conformItemsOn o ss xs) (conformsItems o ss xs) (itemComplaints o ss xs) := by
  induction ss generalizing xs with
  | nil =>
    obtain rfl := List.eq_nil_of_length_eq_zero hl
    exact answers_pure
  | cons s ss ih =>
    obtain ⟨hs, hss⟩ := List.forall_mem_cons.mp h
    cases xs with
    | nil => cases hl
    | cons x xs => exact (hs x).and (ih hss (Nat.succ.inj hl))

theorem answers_conformFieldsOn {fs : List (Field Shape)} {vs : List (String × Value)}
    (h : ∀ f ∈ fs, ConformsOn o f.shape) (hn : vs.map (·.1) = fs.map (·.name)) :
    Answers (conformFieldsOn o fs vs) (conformsFields o fs vs) (fieldComplaints o fs vs) := by
  induction fs generalizing vs with
  | nil =>
    obtain rfl := List.map_eq_nil_iff.mp hn
    exact answers_pure
  | cons f fs ih =>
    obtain ⟨hf, hfs⟩ := List.forall_mem_cons.mp h
    cases vs with
    | nil => cases hn
    | cons p vs =>
      obtain ⟨hp, hn⟩ := List.cons.inj hn
      have he : conformsFields o (f :: fs) (p :: vs) =
          (conforms o f.shape p.2 && conformsFields o fs vs) := by
        simp [conformsFields, ← hp]
      rw [he]
      exact (hf p.2).and (ih hfs hn)

theorem answers_conformKeyOn {dict name : String} {ks : List (Key Shape)}
    (h : ∀ k ∈ ks, ConformsOn o k.shape) :
    Answers (conformKeyOn o dict ks name v) (conformsKey o ks name v)
      (keyComplaints o dict ks name v) := by
  induction ks with
  | nil => exact answers_refuse _
  | cons k ks ih =>
    obtain ⟨hk, hks⟩ := List.forall_mem_cons.mp h
    rw [conformKeyOn, conformsKey, keyComplaints]
    split
    · exact hk v
    · exact ih hks

theorem answers_conformEntryOn (dict : String) {ks : List (Key Shape)} (e : Value × Value)
    (h : ∀ k ∈ ks, ConformsOn o k.shape) :
    Answers (match e.1 with
        | .str key => conformKeyOn o dict ks key e.2
        | key => refuse (.keyKind key dict))
      (match e.1 with
        | .str name => conformsKey o ks name e.2
        | _ => false)
      (match e.1 with
        | .str key => keyComplaints o dict ks key e.2
        | key => [.keyKind key dict]) := by
  obtain ⟨key, v⟩ := e
  cases key with
  | str name => exact answers_conformKeyOn h
  | _ => exact answers_refuse _

theorem answers_conformBranchesOn {ss : List Shape} (h : ∀ s ∈ ss, ConformsOn o s) (v : Value) :
    List.Forall₂ (fun work a => Answers work a.1 a.2) (conformBranchesOn o ss v)
      (ss.map fun s => (conforms o s v, complaints o s v)) := by
  induction ss with
  | nil => exact .nil
  | cons s ss ih =>
    obtain ⟨hs, hss⟩ := List.forall_mem_cons.mp h
    exact .cons (hs v) (ih hss)

theorem branchComplaints_eq {ss : List Shape} :
    branchComplaints o ss v = ss.flatMap fun s => complaints o s v := by
  induction ss with
  | nil => rfl
  | cons s ss ih => rw [branchComplaints, ih, List.flatMap_cons, complaints]

theorem conformsItems_eq_false {ss : List Shape} {xs : List Value} (h : xs.length ≠ ss.length) :
    conformsItems o ss xs = false := by
  rw [Bool.eq_false_iff]
  exact fun hc => h (conformsItems_iff.mp hc).length_eq.symm

theorem conformsFields_eq_false {fs : List (Field Shape)} {vs : List (String × Value)}
    (h : vs.map (·.1) ≠ fs.map (·.name)) : conformsFields o fs vs = false := by
  rw [Bool.eq_false_iff]
  intro hc
  have hn : List.Forall₂ (· = ·) (fs.map (·.name)) (vs.map (·.1)) := by
    rw [List.forall₂_map_left_iff, List.forall₂_map_right_iff]
    exact (conformsFields_iff.mp hc).imp fun _ _ hp => hp.1
  rw [List.forall₂_eq_eq_eq] at hn
  exact h hn.symm

theorem answers_of_inner {work : Logging Bool}
    (h : Answers work (conforms o s v) (innerComplaints o s v)) :
    Answers (concluding (.notInstance v s) work) (conforms o s v) (complaints o s v) :=
  h.concluding

theorem withLine_innerComplaints :
    withLine o s v (innerComplaints o s v) = complaints o s v := rfl

theorem answers_conformOn (o : Settings) (s : Shape) : ConformsOn o s := by
  induction s using inductionParts with
  | step s ih =>
  intro v
  cases s with
  | sequence k s =>
    cases v with
    | sequence l xs =>
      refine answers_of_inner ?_
      by_cases h : k = l
      · simpa [conforms, innerComplaints, h, withLine_innerComplaints] using
          answers_allOn fun x (_ : x ∈ xs) => ih s (by simp) x
      · simpa [conforms, innerComplaints, h, beq_eq_false_iff_ne.mpr h] using answers_pure
    | _ => exact answers_of_inner answers_pure
  | tuple ss =>
    have hs : ∀ s ∈ ss, ConformsOn o s := ih
    cases v with
    | sequence l xs =>
      cases l with
      | tuple =>
        refine answers_of_inner ?_
        by_cases h : xs.length = ss.length
        · simpa [conforms, innerComplaints, h] using answers_conformItemsOn hs h
        · simpa [conforms, innerComplaints, h, conformsItems_eq_false h] using answers_refuse _
      | _ => exact answers_of_inner answers_pure
    | _ => exact answers_of_inner answers_pure
  | mapping k key value =>
    cases v with
    | map l es =>
      refine answers_of_inner ?_
      by_cases h : k.takes l = true
      · simpa [conforms, innerComplaints, h, withLine_innerComplaints] using
          answers_allOn fun (e : Value × Value) (_ : e ∈ es) =>
            (ih key (by simp) e.1).and (ih value (by simp) e.2)
      · simpa [conforms, innerComplaints, h] using answers_pure
    | _ => exact answers_of_inner answers_pure
  | optional s =>
    have hn : ConformsOn o none := fun v => answers_of_inner answers_pure
    have hs : ∀ t ∈ [s, none], ConformsOn o t :=
      List.forall_mem_pair.mpr ⟨ih s (by simp), hn⟩
    have h := answers_anyOn (.notInstance v (optional s)) (answers_conformBranchesOn hs v)
    simpa [conformOn, conformBranchesOn, complaints, withLine, innerComplaints, conforms] using h
  | union ss =>
    have hs : ∀ s ∈ ss, ConformsOn o s := ih
    have h := answers_anyOn (.notInstance v (union ss)) (answers_conformBranchesOn hs v)
    have hc : conforms o (union ss) v = ss.any (conforms o · v) := by
      rw [Bool.eq_iff_iff, conforms_union_iff, List.any_eq_true]
    rw [complaints, withLine, innerComplaints, branchComplaints_eq, hc]
    simpa [conformOn, List.any_map, List.flatMap_map, Function.comp_def] using h
  | record name fs =>
    cases v with
    | record n vs =>
      refine answers_of_inner ?_
      by_cases h : vs.map (·.1) = fs.map (·.name)
      · simpa [conforms, innerComplaints, h] using
          answers_conformFieldsOn (fun f hf => ih f.shape (mem_parts_record hf)) h
      · simpa [conforms, innerComplaints, h, conformsFields_eq_false h] using answers_refuse _
    | _ => exact answers_of_inner answers_pure
  | typedDict name ks =>
    cases v with
    | map l es =>
      refine answers_of_inner ?_
      have hk : ∀ k ∈ ks, ConformsOn o k.shape := fun k hk => ih k.shape (mem_parts_typedDict hk)
      have he := answers_allOn fun e (_ : e ∈ es) => answers_conformEntryOn name e hk
      have hr := answers_allOn fun k (_ : k ∈ ks.filter (·.required)) =>
        answers_ask (Value.hasKey es (.str k.name) = true) (.missingKey k.name name)
      simp only [List.flatMap_ite_singleton, List.filter_filter, List.all_filter,
        Bool.decide_eq_true] at hr
      simp only [conforms, innerComplaints, Bool.and_comm (Key.required _)]
      exact he.and hr
    | _ => exact answers_of_inner answers_pure
  | _ => exact answers_of_inner answers_pure

end Shape

end ShapeCodec
