import ShapeCodec.Proofs.Decoding.Parts
import ShapeCodec.Proofs.Diagnostics.Logging

/-! # Steps of decoding on a log

What a JSON tree comes to when its parts have been decoded on a log: a value, or an obstacle that
adds the line of the whole. Branches and the candidates of a key are tried on logs of their own.
Each step settles in the result that is put together from the results of the parts, and adds the
reasons of that.
-/

namespace ShapeCodec

namespace Logging

variable {α β : Type}

/-- A value, or an obstacle that adds the line of the whole to the log. -/
def settledOn (s : Shape) (j : Json) (step : Logging (Except Obstacle Value)) :
    Logging (Option Value) := do
  match ← step with
  | .ok v => return some v
  | .error why =>
    push (.undecodable j s why)
    return none

/-- The value of the first work that has one, each done on an empty log. When there is none, what
has been kept of the logs is added. -/
def firstOn (keep : Log Reason → Log Reason → Log Reason) (failures : Log Reason) :
    List (Logging (Option α)) → Logging (Option α)
  | [] => do
    append failures
    return none
  | work :: rest => do
    let (result, log) ← scratch work
    match result with
    | some v => return some v
    | none => firstOn keep (keep failures log) rest

def keepFirst (failures log : Log Reason) : Log Reason := if failures.isEmpty then log else failures

def keyOn (s : Shape) (decode : Json → Logging (Option Value)) (text : String) :
    Logging (Option Value) :=
  match s.keyForm with
  | .direct => firstOn keepFirst .empty ((Shape.keyCandidates s text).map decode)
  | .stringified =>
    match Json.read text with
    | .ok json => decode json
    | .error fault => do
      push (.unreadableKey text s fault)
      return none

def entriesOn (key : String → Logging (Option Value)) (value : Json → Logging (Option Value))
    (done : List (Value × Value)) (failed : List String) :
    List (String × Json) → Logging (Except Obstacle (List (Value × Value)))
  | [] => return if failed.isEmpty then .ok done else .error (.entries failed)
  | (text, json) :: rest => do
    let k ← key text
    let v ← value json
    match k, v with
    | some k, some v =>
      if Value.hasKey done k then return .error (.collision k)
      else entriesOn key value (done ++ [(k, v)]) failed rest
    | _, _ => entriesOn key value done (failed ++ [text]) rest

def membersFrom (kind : SequenceKind) (found : List (Option Value)) : Except Obstacle Value :=
  let failed := found.countP (·.isNone)
  if failed = 0 then .ok (.ofItems kind (found.filterMap id))
  else .error (.members failed found.length)

def positionsFrom (found : List (Option Value)) : Except Obstacle Value :=
  match found.findIdxs (·.isNone) with
  | [] => .ok (.sequence .tuple (found.filterMap id))
  | failed => .error (.positions failed)

def branchFrom : Option Value → Except Obstacle Value
  | some v => .ok v
  | none => .error .noBranch

def builtFrom (before after : List Problem) (parts : List (Except Problem α))
    (build : List α → Value) : Except Obstacle Value :=
  match before ++ Shape.errors parts ++ after with
  | [] => .ok (build (Shape.values parts))
  | problems => .error (.problems problems)

end Logging

namespace Shape

open Logging

/-! ## Parts without their reasons -/

section Parts

variable {ε ε' α : Type} {parts : List (Except ε α)}

theorem countP_isNone_toOption :
    (parts.map (·.toOption)).countP (·.isNone) = (errors parts).length := by
  induction parts with
  | nil => rfl
  | cons p parts ih => cases p <;> simp_all [errors, Except.toOption]

@[simp] theorem filterMap_toOption : (parts.map (·.toOption)).filterMap id = values parts := by
  induction parts with
  | nil => rfl
  | cons p parts ih => cases p <;> simp_all [values, Except.toOption]

theorem findIdxs_isNone_toOption {start : Nat} :
    (parts.map (·.toOption)).findIdxs (·.isNone) start = failedPositions start parts := by
  induction parts generalizing start with
  | nil => rfl
  | cons p parts ih => cases p <;> simp_all [failedPositions, Except.toOption, List.findIdxs_cons]

theorem failedPositions_eq_nil_iff (parts : List (Except ε α)) (start : Nat) :
    failedPositions start parts = [] ↔ errors parts = [] := by
  induction parts generalizing start with
  | nil => simp [failedPositions, errors]
  | cons p parts ih => cases p <;> simp_all [failedPositions, errors]

theorem flatMap_reasonsOf {parts : List (Decoded α)} :
    parts.flatMap reasonsOf = (errors parts).flatten := by
  induction parts with
  | nil => rfl
  | cons p parts ih => cases p <;> simp_all [errors, reasonsOf]

theorem errors_mapError {f : ε → ε'} :
    errors (parts.map (·.mapError f)) = (errors parts).map f := by
  induction parts with
  | nil => rfl
  | cons p parts ih => cases p <;> simp_all [errors, Except.mapError]

theorem values_mapError {f : ε → ε'} : values (parts.map (·.mapError f)) = values parts := by
  induction parts with
  | nil => rfl
  | cons p parts ih => cases p <;> simp_all [values, Except.mapError]

end Parts

/-! ## Results on a log -/

variable {α β : Type} {s : Shape} {j : Json} {why : Obstacle} {rs : List Reason} {v : Value}

/-- The work comes out with the value of a result, or with none and its reasons. -/
def Settles (work : Logging (Option α)) (result : Decoded α) : Prop :=
  Reports work result.toOption (reasonsOf result)

theorem settles_settledOn_ok {step : Logging (Except Obstacle Value)}
    (h : Reports step (.ok v) []) : Settles (settledOn s j step) (.ok v) :=
  h.bind reports_pure

theorem settles_settledOn_error {step : Logging (Except Obstacle Value)}
    (h : Reports step (.error why) rs) :
    Settles (settledOn s j step) (.error (rs ++ line s j why)) :=
  h.bind (reports_push.bind reports_pure)

theorem settles_concluding {found : Logging β} {b : β} {conclude : β → Except Obstacle Value}
    {r : Decoded Value} (h : Reports found b rs)
    (hok : ∀ v, conclude b = .ok v → r = .ok v ∧ rs = [])
    (herror : ∀ why, conclude b = .error why → r = .error (rs ++ line s j why)) :
    Settles (settledOn s j do
      let x ← found
      return conclude x) r := by
  have hr := h.bind (f := fun x => pure (conclude x)) reports_pure
  rw [List.append_nil] at hr
  cases hc : conclude b with
  | ok v =>
    obtain ⟨rfl, rfl⟩ := hok v hc
    exact settles_settledOn_ok (hc ▸ hr)
  | error why =>
    rw [herror why hc]
    exact settles_settledOn_error (hc ▸ hr)

theorem settles_scalar {r : Except Obstacle Value} :
    Settles (settledOn s j (pure r)) (ofScalar s j r) := by
  cases r with
  | ok v => exact settles_settledOn_ok reports_pure
  | error why => exact settles_settledOn_error reports_pure

theorem firstOn_cons {keep : Log Reason → Log Reason → Log Reason} {failures : Log Reason}
    {work : Logging (Option α)} {works : List (Logging (Option α))} :
    firstOn keep failures (work :: works) = scratch work >>= fun r =>
      match r.1 with
      | some v => pure (some v)
      | Option.none => firstOn keep (keep failures r.2) works := rfl

/-- What is given back by the first work that settles in a value, or else all that is kept. -/
theorem reports_firstOn (keep : Log Reason → Log Reason → Log Reason)
    {works : List (Logging (Option α))} {results : List (Decoded α)}
    (h : List.Forall₂ Settles works results) (failures : Log Reason) :
    Reports (firstOn keep failures works) (results.findSome? (·.toOption))
      (if (results.findSome? (·.toOption)).isSome then []
        else (results.foldl (fun log r => keep log ⟨reasonsOf r⟩) failures).reasons) := by
  induction h generalizing failures with
  | nil =>
    have hr := (reports_append (l := failures)).bind
      (f := fun _ => pure (Option.none : Option α)) reports_pure
    rwa [List.append_nil] at hr
  | @cons work r works results hw _ ih =>
    rw [firstOn_cons]
    cases r with
    | ok v => exact Reports.scratch hw |>.bind reports_pure
    | error rs => exact Reports.scratch hw |>.bind (ih (keep failures ⟨rs⟩))

theorem foldl_append_reasons {results : List (Decoded α)} {failures : Log Reason} :
    (results.foldl (fun log r => log.append ⟨reasonsOf r⟩) failures).reasons =
      failures.reasons ++ results.flatMap reasonsOf := by
  induction results generalizing failures with
  | nil => simp
  | cons r results ih =>
    rw [List.foldl_cons, ih, List.flatMap_cons, Log.append, List.append_assoc]

theorem foldl_keepFirst (results : List (Decoded α)) {failures : Log Reason}
    (h : failures.reasons ≠ []) :
    results.foldl (fun log r => keepFirst log ⟨reasonsOf r⟩) failures = failures := by
  induction results with
  | nil => rfl
  | cons r results ih => simpa [keepFirst, Log.isEmpty, h] using ih

/-! ## Keys and entries -/

variable {decode : Json → Decoded Value} {jsonOn : Json → Logging (Option Value)}

theorem settles_candidates {c : Json} {cs : List Json}
    (h : ∀ c, Settles (jsonOn c) (decode c)) (hne : ∀ rs, decode c = .error rs → rs ≠ []) :
    Settles (firstOn keepFirst .empty ((c :: cs).map jsonOn)) (firstDecoded decode (c :: cs)) := by
  have hr := reports_firstOn keepFirst
    (List.forall₂_map_map_iff (l := c :: cs).mpr fun c _ => h c) .empty
  rw [Settles, firstDecoded]
  cases hc : decode c with
  | ok v => simpa [hc, Except.toOption, reasonsOf, List.findSome?_map] using hr
  | error rs =>
    -- The log of the first candidate is not empty, so that the others are not looked at.
    have hk : cs.foldl (fun log c => keepFirst log ⟨reasonsOf (decode c)⟩) ⟨rs⟩ = ⟨rs⟩ := by
      simpa [List.foldl_map] using foldl_keepFirst (cs.map decode) (hne rs hc)
    have hn : (decode c).toOption = Option.none := by rw [hc]; rfl
    have hi : keepFirst Log.empty ⟨reasonsOf (decode c)⟩ = ⟨rs⟩ := by rw [hc]; rfl
    simp only [List.findSome?_map, List.foldl_map, List.foldl_cons, List.findSome?_cons, hi, hk,
      Function.comp_def, hn] at hr
    cases hf : cs.findSome? fun c => (decode c).toOption <;>
    · rw [hf] at hr
      exact hr

theorem settles_keyOn (h : ∀ c, Settles (jsonOn c) (decode c))
    (hne : ∀ c rs, decode c = .error rs → rs ≠ []) (text : String) :
    Settles (keyOn s jsonOn text) (decodeKeyText s decode text) := by
  rw [keyOn, decodeKeyText]
  cases s.keyForm with
  | direct =>
    obtain ⟨c, cs, hc⟩ := List.exists_cons_of_ne_nil
      (l := keyCandidates s text) (by simp [keyCandidates])
    simp only [hc]
    exact settles_candidates h (hne c)
  | stringified =>
    cases Json.read text with
    | ok json => exact h json
    | error fault => exact reports_push.bind reports_pure

/-- The work comes out with the entries of a result, or with its obstacle and the reasons that it
has behind those of `log`. -/
def Enters (work : Logging (Except Obstacle (List (Value × Value)))) (log : List Reason) :
    Except (List Reason × Obstacle) (List (Value × Value)) → Prop
  | .ok out => Reports work (.ok out) []
  | .error (rs, why) => ∃ new, rs = log ++ new ∧ Reports work (.error why) new

/-- Work that comes before adds its reasons in front, and none when there are entries in the end. -/
theorem Enters.bind {work : Logging α} {next : α → Logging (Except Obstacle (List (Value × Value)))}
    {a : α} {log : List Reason} {r : Except (List Reason × Obstacle) (List (Value × Value))}
    (hw : Reports work a rs) (h : Enters (next a) (log ++ rs) r)
    (hs : ∀ out, r = .ok out → rs = []) : Enters (work >>= next) log r := by
  cases r with
  | ok out =>
    obtain rfl := hs out rfl
    exact Reports.bind hw h
  | error e =>
    obtain ⟨new, he, hn⟩ := h
    exact ⟨rs ++ new, by rw [he, List.append_assoc], hw.bind hn⟩

theorem enters_entriesOn {key : String → Decoded Value} {value : Json → Decoded Value}
    {keysOn : String → Logging (Option Value)} {valuesOn : Json → Logging (Option Value)}
    (hk : ∀ t, Settles (keysOn t) (key t)) (hv : ∀ c, Settles (valuesOn c) (value c))
    (done : List (Value × Value)) (failed : List String) (log : List Reason)
    (es : List (String × Json)) :
    Enters (entriesOn keysOn valuesOn done failed es) log
      (decodeEntries key value done failed log es) := by
  induction es generalizing done failed log with
  | nil =>
    rw [entriesOn, decodeEntries]
    cases failed.isEmpty with
    | true => exact reports_pure
    | false => exact ⟨[], (List.append_nil log).symm, reports_pure⟩
  | cons e es ih =>
    obtain ⟨t, x⟩ := e
    have hok : ∀ out, decodeEntries key value done failed log ((t, x) :: es) = .ok out →
        reasonsOf (key t) = [] ∧ reasonsOf (value x) = [] := by
      intro out h
      obtain ⟨-, _, _ | ⟨⟨hk, hv⟩, -⟩, -⟩ := decodeEntries_eq_ok_iff.mp h
      exact ⟨by rw [hk]; rfl, by rw [hv]; rfl⟩
    refine Enters.bind (hk t) (Enters.bind (hv x) ?_ fun out h => (hok out h).2)
      fun out h => (hok out h).1
    rw [decodeEntries]
    cases key t with
    | error rs => exact ih _ _ _
    | ok k =>
      cases value x with
      | error rs => exact ih _ _ _
      | ok v =>
        simp only [reasonsOf, List.append_nil, Except.toOption]
        cases Value.hasKey done k with
        | true => exact ⟨[], (List.append_nil log).symm, reports_pure⟩
        | false => exact ih _ _ _

/-! ## Members, slots and branches -/

theorem settles_members {k : SequenceKind} (parts : List (Decoded Value))
    {found : Logging (List (Option Value))}
    (h : Reports found (parts.map (·.toOption)) (parts.flatMap reasonsOf)) :
    Settles (settledOn s j do
      let found ← found
      return membersFrom k found) (ofMembers s j k parts) := by
  rw [flatMap_reasonsOf] at h
  refine settles_concluding h ?_ ?_ <;>
  · simp only [membersFrom, countP_isNone_toOption, filterMap_toOption, List.length_map, ofMembers]
    cases errors parts <;> simp

theorem settles_positions {parts : List (Decoded Value)} {found : Logging (List (Option Value))}
    (h : Reports found (parts.map (·.toOption)) (parts.flatMap reasonsOf)) :
    Settles (settledOn s j do
      let found ← found
      return positionsFrom found) (ofPositions s j parts) := by
  rw [flatMap_reasonsOf] at h
  refine settles_concluding h ?_ ?_ <;>
  · have hn := failedPositions_eq_nil_iff parts 0
    simp only [positionsFrom, findIdxs_isNone_toOption, filterMap_toOption, ofPositions]
    cases he : errors parts <;> cases hp : failedPositions 0 parts <;> simp_all

def slotReasons : Slot α → List Reason
  | .ok _ => []
  | .error e => e.1

/-- The work comes out with what a slot holds, or with its problem and its reasons. -/
def FillsSlot (work : Logging (Except Problem α)) (slot : Slot α) : Prop :=
  Reports work (slot.mapError (·.2)) (slotReasons slot)

theorem fillsSlot_of_settles {work : Logging (Option Value)} {r : Decoded Value} (f : Value → α)
    (problem : Problem) (h : Settles work r) :
    FillsSlot (do return match ← work with
        | some v => .ok (f v)
        | Option.none => .error problem)
      ((r.mapError fun rs => (rs, problem)).map f) := by
  cases r with
  | ok v => exact Reports.bind h reports_pure
  | error rs =>
    change Reports _ _ rs
    rw [← List.append_nil rs]
    exact Reports.bind h reports_pure

theorem flatMap_slotReasons {slots : List (Slot α)} :
    slots.flatMap slotReasons = (errors slots).flatMap (·.1) := by
  induction slots with
  | nil => rfl
  | cons p slots ih => cases p <;> simp_all [errors, slotReasons]

theorem settles_slots (slots : List (Slot α)) {before after : List Problem} {build : List α → Value}
    {found : Logging (List (Except Problem α))}
    (h : Reports found (slots.map (·.mapError (·.2))) (slots.flatMap slotReasons)) :
    Settles (settledOn s j do
      let found ← found
      return builtFrom before after found build) (ofSlots s j before after slots build) := by
  rw [flatMap_slotReasons] at h
  refine settles_concluding h ?_ ?_ <;>
  · simp only [builtFrom, errors_mapError, values_mapError, ofSlots]
    cases hp : before ++ (errors slots).map (·.2) ++ after <;> simp_all

theorem settles_entries {kind : MapKind}
    {work : Logging (Except Obstacle (List (Value × Value)))}
    {r : Except (List Reason × Obstacle) (List (Value × Value))} (h : Enters work [] r) :
    Settles (settledOn s j do
      let entries ← work
      return entries.map (.map kind)) (ofEntries s j kind r) := by
  cases r with
  | ok out => exact settles_settledOn_ok (Reports.bind h reports_pure)
  | error e =>
    obtain ⟨rs, why⟩ := e
    obtain ⟨_, rfl, hr⟩ := h
    refine settles_settledOn_error ?_
    rw [← List.append_nil rs]
    exact hr.bind reports_pure

theorem settles_branches {works : List (Logging (Option Value))} {results : List (Decoded Value)}
    (h : List.Forall₂ Settles works results) :
    Settles (settledOn s j do
      let found ← firstOn Log.append .empty works
      return branchFrom found)
      (match results.findSome? (·.toOption) with
        | some v => .ok v
        | Option.none => .error (results.flatMap reasonsOf ++ line s j .noBranch)) := by
  have hr := reports_firstOn Log.append h .empty
  rw [foldl_append_reasons] at hr
  refine settles_concluding hr ?_ ?_ <;>
  · cases results.findSome? (·.toOption) <;> simp [branchFrom, Log.empty]

end Shape

end ShapeCodec
