import ShapeCodec.Proofs.Diagnostics.Checking

/-! # Judging shapes on a log

The judgments on shapes as work on a log. Hashing and encoding are asked of a shape that can be
checked against. A key is hashed on a log of its own that is thrown away, and only when it can be
encoded.
-/

namespace ShapeCodec

namespace Shape

open Logging

mutual

def hashOn : Shape → Logging Bool
  | any => concluding (.fails .hashable any) (return false)
  | sequence k s => concluding (.fails .hashable (sequence k s)) <|
    if k == .frozenSet || k == .tuple then hashOn s else return false
  | tuple ss => concluding (.fails .hashable (tuple ss)) (hashAllOn ss)
  | mapping k key value => concluding (.fails .hashable (mapping k key value)) (return false)
  | optional s => concluding (.fails .hashable (optional s)) (hashOn s)
  | union ss => concluding (.fails .hashable (union ss)) (hashAllOn ss)
  | record name fs => concluding (.fails .hashable (record name fs)) (hashFieldsOn fs)
  | typedDict name ks => concluding (.fails .hashable (typedDict name ks)) (return false)
  | s => concluding (.fails .hashable s) (return true)

def hashAllOn : List Shape → Logging Bool
  | [] => return true
  | s :: ss => do
    let first ← hashOn s
    let rest ← hashAllOn ss
    return first && rest

def hashFieldsOn : List (Field Shape) → Logging Bool
  | [] => return true
  | f :: fs => do
    let first ← hashOn f.shape
    let rest ← hashFieldsOn fs
    return first && rest

end

def keyOn (s : Shape) : Logging Bool := do
  let (answer, _) ← scratch (hashOn s)
  if answer then return true else refuse (.fails .keyable s)

def literalOn (l : Literal) : Logging Bool :=
  if l.isEncodable then pure true else refuse (.infiniteLiteral l)

mutual

def encodeOn : Shape → Logging Bool
  | any => concluding (.fails .encodable any) (return false)
  | sequence k s => concluding (.fails .encodable (sequence k s)) (encodeOn s)
  | tuple ss => concluding (.fails .encodable (tuple ss)) (encodeAllOn ss)
  | mapping k key value => concluding (.fails .encodable (mapping k key value)) do
    let first ← andThen (encodeOn key) (keyOn key)
    let rest ← encodeOn value
    return first && rest
  | optional s => concluding (.fails .encodable (optional s)) (encodeOn s)
  | union ss => concluding (.fails .encodable (union ss)) (encodeAllOn ss)
  | literal ls => concluding (.fails .encodable (literal ls)) (allOn literalOn ls)
  | record name fs => concluding (.fails .encodable (record name fs)) (encodeFieldsOn fs)
  | typedDict name ks => concluding (.fails .encodable (typedDict name ks)) (encodeKeysOn ks)
  | s => concluding (.fails .encodable s) (return true)

def encodeAllOn : List Shape → Logging Bool
  | [] => return true
  | s :: ss => do
    let first ← encodeOn s
    let rest ← encodeAllOn ss
    return first && rest

def encodeFieldsOn : List (Field Shape) → Logging Bool
  | [] => return true
  | f :: fs => do
    let first ← encodeOn f.shape
    let rest ← encodeFieldsOn fs
    return first && rest

def encodeKeysOn : List (Key Shape) → Logging Bool
  | [] => return true
  | k :: ks => do
    let first ← encodeOn k.shape
    let rest ← encodeKeysOn ks
    return first && rest

end

def judgeOn (judgment : Judgment) (s : Shape) : Logging Bool :=
  match judgment with
  | .checkable => checkOn s
  | .hashable => andThen (checkOn s) (hashOn s)
  | .keyable => andThen (checkOn s) (keyOn s)
  | .encodable => do
    if ← checkOn s then encodeOn s else refuse (.fails .encodable s)

/-! ## Hashing -/

def HashesOn (s : Shape) : Prop := Answers (hashOn s) (hashable s) (hashFaults s)

theorem answers_hashAllOn {ss : List Shape} (h : ∀ s ∈ ss, HashesOn s) :
    Answers (hashAllOn ss) (hashableAll ss) (hashFaultsAll ss) := by
  induction ss with
  | nil => exact answers_pure
  | cons s ss ih =>
    obtain ⟨hs, hss⟩ := List.forall_mem_cons.mp h
    exact hs.and (ih hss)

theorem answers_hashFieldsOn {fs : List (Field Shape)} (h : ∀ f ∈ fs, HashesOn f.shape) :
    Answers (hashFieldsOn fs) (hashableFields fs) (hashFaultsFields fs) := by
  induction fs with
  | nil => exact answers_pure
  | cons f fs ih =>
    obtain ⟨hf, hfs⟩ := List.forall_mem_cons.mp h
    exact hf.and (ih hfs)

theorem answers_hashOn (s : Shape) : HashesOn s := by
  induction s using inductionParts with
  | step s ih =>
  cases s with
  | sequence k s =>
    have hs := ih s (by simp)
    cases hk : k == .frozenSet || k == .tuple with
    | true =>
      rw [HashesOn, hashOn, hashFaults, hashable, hk, if_pos rfl, if_pos rfl, Bool.true_and]
      exact hs.concluding
    | false =>
      rw [HashesOn, hashOn, hashFaults, hashable, hk, if_neg Bool.false_ne_true,
        if_neg Bool.false_ne_true, Bool.false_and]
      exact answers_pure.concluding
  | tuple ss =>
    have hs : ∀ s ∈ ss, HashesOn s := ih
    exact (answers_hashAllOn hs).concluding
  | optional s =>
    have hs := ih s (by simp)
    exact hs.concluding
  | union ss =>
    have hs : ∀ s ∈ ss, HashesOn s := ih
    exact (answers_hashAllOn hs).concluding
  | record name fs =>
    have hf := answers_hashFieldsOn fun f hf => ih f.shape (mem_parts_record hf)
    exact hf.concluding
  | _ => exact answers_pure.concluding

theorem answers_keyOn (s : Shape) : Answers (keyOn s) (hashable s) (keyFaults s) := by
  have hs := (answers_hashOn s).reports.scratch
  rw [keyFaults, failing]
  cases hh : hashable s with
  | true =>
    rw [hh] at hs
    exact ⟨hs.bind reports_pure, fun _ => rfl⟩
  | false =>
    rw [hh] at hs
    exact ⟨hs.bind (answers_refuse _).reports, nofun⟩

/-! ## Encoding -/

def EncodesOn (s : Shape) : Prop := Answers (encodeOn s) (encodable s) (encodeFaults s)

theorem answers_literalsOn (ls : List Literal) :
    Answers (allOn literalOn ls) (ls.all (·.isEncodable))
      ((ls.filter (!·.isEncodable)).map .infiniteLiteral) := by
  rw [← List.flatMap_ite_singleton]
  apply answers_allOn
  intro l _
  have hl := answers_ask (l.isEncodable = true) (.infiniteLiteral l)
  rwa [Bool.decide_eq_true] at hl

theorem answers_encodeAllOn {ss : List Shape} (h : ∀ s ∈ ss, EncodesOn s) :
    Answers (encodeAllOn ss) (encodableAll ss) (encodeFaultsAll ss) := by
  induction ss with
  | nil => exact answers_pure
  | cons s ss ih =>
    obtain ⟨hs, hss⟩ := List.forall_mem_cons.mp h
    exact hs.and (ih hss)

theorem answers_encodeFieldsOn {fs : List (Field Shape)} (h : ∀ f ∈ fs, EncodesOn f.shape) :
    Answers (encodeFieldsOn fs) (encodableFields fs) (encodeFaultsFields fs) := by
  induction fs with
  | nil => exact answers_pure
  | cons f fs ih =>
    obtain ⟨hf, hfs⟩ := List.forall_mem_cons.mp h
    exact hf.and (ih hfs)

theorem answers_encodeKeysOn {ks : List (Key Shape)} (h : ∀ k ∈ ks, EncodesOn k.shape) :
    Answers (encodeKeysOn ks) (encodableKeys ks) (encodeFaultsKeys ks) := by
  induction ks with
  | nil => exact answers_pure
  | cons k ks ih =>
    obtain ⟨hk, hks⟩ := List.forall_mem_cons.mp h
    exact hk.and (ih hks)

theorem answers_encodeOn (s : Shape) : EncodesOn s := by
  induction s using inductionParts with
  | step s ih =>
  cases s with
  | sequence k s =>
    have hs := ih s (by simp)
    exact hs.concluding
  | tuple ss =>
    have hs : ∀ s ∈ ss, EncodesOn s := ih
    exact (answers_encodeAllOn hs).concluding
  | mapping k key value =>
    have hkey : EncodesOn key := ih key (by simp)
    have hvalue : EncodesOn value := ih value (by simp)
    have hboth := hkey.andThen fun _ => answers_keyOn key
    exact (hboth.and hvalue).concluding
  | optional s =>
    have hs := ih s (by simp)
    exact hs.concluding
  | union ss =>
    have hs : ∀ s ∈ ss, EncodesOn s := ih
    exact (answers_encodeAllOn hs).concluding
  | literal ls => exact (answers_literalsOn ls).concluding
  | record name fs =>
    have hf := answers_encodeFieldsOn fun f hf => ih f.shape (mem_parts_record hf)
    exact hf.concluding
  | typedDict name ks =>
    have hk := answers_encodeKeysOn fun k hk => ih k.shape (mem_parts_typedDict hk)
    exact hk.concluding
  | _ => exact answers_pure.concluding

/-! ## Verdicts -/

theorem answers_afterCheck {s : Shape} {rest : Logging Bool} {holds : Bool} {reasons : List Reason}
    (h : Answers rest holds reasons) :
    Answers (andThen (checkOn s) rest) (checkable s && holds)
      (if checkable s then reasons else checkFaults s) := by
  have hs := (answers_checkOn s).andThen fun _ => h
  cases hc : checkable s with
  | true => simpa [hc, (answers_checkOn s).silent hc] using hs
  | false => simpa [hc] using hs

theorem answers_judgeOn (judgment : Judgment) (s : Shape) :
    Answers (judgeOn judgment s) (satisfies judgment s) (faults judgment s) := by
  cases judgment with
  | checkable => exact answers_checkOn s
  | hashable => exact answers_afterCheck (answers_hashOn s)
  | keyable => exact answers_afterCheck (answers_keyOn s)
  | encodable =>
    have hcheck : Answers (checkOn s) (checkable s) (checkFaults s) := answers_checkOn s
    rw [satisfies, faults]
    cases hc : checkable s with
    | true =>
      rw [hc] at hcheck
      have hboth := hcheck.reports.bind (f := fun answer => if answer then encodeOn s else
        refuse (.fails .encodable s)) (answers_encodeOn s).reports
      rw [hcheck.silent rfl] at hboth
      exact ⟨hboth, (answers_encodeOn s).silent⟩
    | false =>
      rw [hc] at hcheck
      exact ⟨hcheck.reports.bind (answers_refuse _).reports, nofun⟩

theorem run_judgeOn (judgment : Judgment) (s : Shape) :
    (judgeOn judgment s).run .empty = ((judge judgment s).holds, (judge judgment s).log) := by
  rw [(answers_judgeOn judgment s).reports .empty]
  rfl

end Shape

end ShapeCodec
