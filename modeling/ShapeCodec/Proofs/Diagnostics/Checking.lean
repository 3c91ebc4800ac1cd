import ShapeCodec.Proofs.Diagnostics.Conformance

/-! # Checking shapes on a log

The judgment that a shape can be checked against, as work on a log. A default is looked at when the
shape of its field holds, on a log of its own that is only kept when the default fails.
-/

namespace ShapeCodec

/-! ## Repeated names -/

theorem repeatedNames_eq_nil_iff {seen names : List String} :
    repeatedNames seen names = [] ↔ names.Nodup ∧ ∀ n ∈ names, n ∉ seen := by
  induction names generalizing seen with
  | nil => simp [repeatedNames]
  | cons n names ih =>
    rw [repeatedNames, List.nodup_cons, List.forall_mem_cons]
    split
    · rename_i h
      simp [h]
    · rename_i h
      simp only [ih, List.mem_cons, not_or]
      constructor
      · rintro ⟨hd, hs⟩
        exact ⟨⟨fun hm => (hs n hm).1 rfl, hd⟩, h, fun m hm => (hs m hm).2⟩
      · rintro ⟨⟨hn, hd⟩, -, hs⟩
        exact ⟨hd, fun m hm => ⟨fun he => hn (he ▸ hm), hs m hm⟩⟩

namespace Shape

open Logging

/-- Asks whether no name comes twice, with the names that have come before. -/
def namesOn (owner : NameOwner) (ownerName : String) (seen : List String) :
    List String → Logging Bool
  | [] => return true
  | name :: rest => do
    let fresh ← (if name ∈ seen then refuse (.repeatedName name owner ownerName) else pure true)
    let others ← namesOn owner ownerName (seen.insert name) rest
    return fresh && others

def defaultOn (record : String) (f : Field Shape) : Logging Bool :=
  match f.default? with
  | some v =>
    anyOn (.badDefault v f.name record f.shape) .empty
      [conformOn Settings.standard.strict f.shape v]
  | Option.none => return true

mutual

def checkOn : Shape → Logging Bool
  | sequence k s => concluding (.fails .checkable (sequence k s)) (checkOn s)
  | tuple ss => concluding (.fails .checkable (tuple ss)) (checkAllOn ss)
  | mapping k key value => concluding (.fails .checkable (mapping k key value)) do
    let first ← checkOn key
    let rest ← checkOn value
    return first && rest
  | optional s => concluding (.fails .checkable (optional s)) (checkOn s)
  | union ss => concluding (.fails .checkable (union ss)) do
    let arity ← (if 2 ≤ ss.length then pure true else refuse (.fewBranches (union ss)))
    let branches ← checkAllOn ss
    return arity && branches
  | literal ls => concluding (.fails .checkable (literal ls)) <|
    if ls.isEmpty then refuse .emptyLiteral else return true
  | record name fs => concluding (.fails .checkable (record name fs)) do
    let unique ← namesOn .record name [] (fs.map (·.name))
    let fields ← checkFieldsOn name fs
    return unique && fields
  | enum name ms => concluding (.fails .checkable (enum name ms)) <|
    namesOn .enum name [] (ms.map (·.name))
  | typedDict name ks => concluding (.fails .checkable (typedDict name ks)) do
    let unique ← namesOn .typedDict name [] (ks.map (·.name))
    let keys ← checkKeysOn ks
    return unique && keys
  | s => concluding (.fails .checkable s) (return true)

def checkAllOn : List Shape → Logging Bool
  | [] => return true
  | s :: ss => do
    let first ← checkOn s
    let rest ← checkAllOn ss
    return first && rest

def checkFieldsOn (record : String) : List (Field Shape) → Logging Bool
  | [] => return true
  | f :: fs => do
    let first ← andThen (checkOn f.shape) (defaultOn record f)
    let rest ← checkFieldsOn record fs
    return first && rest

def checkKeysOn : List (Key Shape) → Logging Bool
  | [] => return true
  | k :: ks => do
    let first ← checkOn k.shape
    let rest ← checkKeysOn ks
    return first && rest

end

variable {s : Shape}

theorem answers_namesOn (owner : NameOwner) (ownerName : String) (seen names : List String) :
    Answers (namesOn owner ownerName seen names) (decide (repeatedNames seen names = []))
      ((repeatedNames seen names).map fun name => .repeatedName name owner ownerName) := by
  induction names generalizing seen with
  | nil => exact answers_pure
  | cons n names ih =>
    rw [namesOn, repeatedNames]
    by_cases h : n ∈ seen
    · have hn := (answers_refuse (.repeatedName n owner ownerName)).and (ih seen)
      simpa [h] using hn
    · have hn := answers_true.and (ih (n :: seen))
      simpa [h] using hn

theorem answers_distinctOn {owner : NameOwner} {ownerName : String} {names : List String} :
    Answers (namesOn owner ownerName [] names) (decide names.Nodup)
      (nameFaults owner ownerName names) := by
  simpa [repeatedNames_eq_nil_iff, nameFaults] using
    answers_namesOn owner ownerName [] names

theorem answers_defaultOn {record : String} {f : Field Shape} :
    Answers (defaultOn record f) (f.default?.all (conforms Settings.standard.strict f.shape))
      (defaultFaults record f) := by
  rw [defaultOn, defaultFaults]
  cases f.default? with
  | none => exact answers_pure
  | some v =>
    exact (answers_conformOn Settings.standard.strict f.shape v).anyOn_singleton

/-- Asked on a log, a shape is checkable when it is without one, and its faults are added. -/
def ChecksOn (s : Shape) : Prop := Answers (checkOn s) (checkable s) (checkFaults s)

theorem answers_checkAllOn {ss : List Shape} (h : ∀ s ∈ ss, ChecksOn s) :
    Answers (checkAllOn ss) (checkableAll ss) (checkFaultsAll ss) := by
  induction ss with
  | nil => exact answers_pure
  | cons s ss ih =>
    obtain ⟨hs, hss⟩ := List.forall_mem_cons.mp h
    exact hs.and (ih hss)

theorem answers_checkFieldsOn (record : String) {fs : List (Field Shape)}
    (h : ∀ f ∈ fs, ChecksOn f.shape) :
    Answers (checkFieldsOn record fs) (checkableFields fs) (checkFaultsFields record fs) := by
  induction fs with
  | nil => exact answers_pure
  | cons f fs ih =>
    obtain ⟨hf, hfs⟩ := List.forall_mem_cons.mp h
    exact (hf.andThen fun _ => answers_defaultOn).and (ih hfs)

theorem answers_checkKeysOn {ks : List (Key Shape)} (h : ∀ k ∈ ks, ChecksOn k.shape) :
    Answers (checkKeysOn ks) (checkableKeys ks) (checkFaultsKeys ks) := by
  induction ks with
  | nil => exact answers_pure
  | cons k ks ih =>
    obtain ⟨hk, hks⟩ := List.forall_mem_cons.mp h
    exact hk.and (ih hks)

theorem answers_checkOn (s : Shape) : ChecksOn s := by
  induction s using inductionParts with
  | step s ih =>
  cases s with
  | sequence k s =>
    have hs := ih s (by simp)
    exact hs.concluding
  | tuple ss =>
    have hs : ∀ s ∈ ss, ChecksOn s := ih
    exact (answers_checkAllOn hs).concluding
  | mapping k key value =>
    have hkey := ih key (by simp)
    have hvalue := ih value (by simp)
    exact (hkey.and hvalue).concluding
  | optional s =>
    have hs := ih s (by simp)
    exact hs.concluding
  | union ss =>
    have hs : ∀ s ∈ ss, ChecksOn s := ih
    have ha := answers_ask (2 ≤ ss.length) (.fewBranches (union ss))
    rw [ChecksOn, checkFaults]
    simp only [← Nat.not_le, ite_not]
    exact (ha.and (answers_checkAllOn hs)).concluding
  | literal ls =>
    cases ls with
    | nil => exact (answers_refuse _).concluding
    | cons l ls => exact answers_true.concluding
  | record name fs =>
    have hf := answers_checkFieldsOn name fun f hf => ih f.shape (mem_parts_record hf)
    exact (answers_distinctOn.and hf).concluding
  | enum name ms => exact answers_distinctOn.concluding
  | typedDict name ks =>
    have hk := answers_checkKeysOn fun k hk => ih k.shape (mem_parts_typedDict hk)
    exact (answers_distinctOn.and hk).concluding
  | _ => exact answers_true.concluding

end Shape

end ShapeCodec
