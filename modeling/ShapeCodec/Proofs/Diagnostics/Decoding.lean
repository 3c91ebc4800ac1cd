import ShapeCodec.Proofs.Diagnostics.Steps
import ShapeCodec.Proofs.Shape.Parts

/-! # Decoding on a log

Decoding as work on a log: what is inside a tree is decoded first and adds its reasons, and the tree
adds a line of its own when there is an obstacle. Whatever the log holds, the value is the one that
is decoded without it, and the log only grows when there is none.
-/

namespace ShapeCodec

namespace Shape

open Logging

mutual

def decodeOn (o : Settings) : Shape → Json → Logging (Option Value)
  | any, j => settledOn any j (return .error .anyShape)
  | bool, j => settledOn bool j <| return match j with
    | .bool b => .ok (.bool b)
    | _ => .error (.found j)
  | int, j => settledOn int j (return (j.toInt64 o).map .int)
  | float, j => settledOn float j (return (j.toBinary64 o).map .float)
  | str, j => settledOn str j <| return match j with
    | .str s => .ok (.str s)
    | _ => .error (.found j)
  | none, j => settledOn none j <| return match j with
    | .null => .ok .none
    | _ => .error (.found j)
  | ellipsis, j => settledOn ellipsis j <| return match j with
    | .null => .ok .ellipsis
    | _ => .error (.found j)
  | decimal, j => settledOn decimal j (return j.toDecimal.map .decimal)
  | sequence k s, j => settledOn (sequence k s) j <| match j with
    | .list xs => do
      let found ← xs.mapM (decodeOn o s)
      return membersFrom k found
    | _ => return .error (.found j)
  | tuple ss, j => settledOn (tuple ss) j <| match j with
    | .list xs =>
      if xs.length = ss.length then do
        let found ← decodeItemsOn o ss xs
        return positionsFrom found
      else return .error (.arity xs.length ss.length)
    | _ => return .error (.found j)
  | mapping k key value, j => settledOn (mapping k key value) j <| match j with
    | .map es => do
      let entries ← entriesOn (keyOn key (decodeOn o key)) (decodeOn o value) [] [] es
      return entries.map (.map k.built)
    | _ => return .error (.found j)
  | optional s, j => settledOn (optional s) j do
    let found ← firstOn Log.append .empty [decodeOn o s j, settledOn none j <| return match j with
      | .null => .ok .none
      | _ => .error (.found j)]
    return branchFrom found
  | union ss, j => settledOn (union ss) j do
    let found ← firstOn Log.append .empty (decodeBranchesOn o ss j)
    return branchFrom found
  | literal ls, j => settledOn (literal ls) j <| return match ls.find? (·.accepts j) with
    | some l => .ok l.toValue
    | Option.none => .error .noLiteral
  | record name fs, j => settledOn (record name fs) j <| match j with
    | .map es => do
      let found ← decodeFieldsOn o fs (fieldsOfMap fs es)
      return builtFrom
        ((es.filter fun e => !fs.any (·.name == e.1)).map fun e => .unexpectedField e.1)
        [] found (.record name)
    | .list xs =>
      if xs.length < leastFields fs || fs.length < xs.length then
        return .error (.recordLength xs.length (leastFields fs) fs.length)
      else do
        let found ← decodeFieldsOn o fs (fieldsOfList fs xs)
        return builtFrom [] [] found (.record name)
    | _ => return .error (.found j)
  | enum name ms, j => settledOn (enum name ms) j <| return match j with
    | .str s => if ms.any (·.name == s) then .ok (.member name s) else .error (.notMember s name)
    | _ => .error (.found j)
  | typedDict name ks, j => settledOn (typedDict name ks) j <| match j with
    | .map es => do
      let found ← es.mapM fun e => decodeKeyOn o ks e.1 e.2
      return builtFrom []
        ((ks.filter fun k => k.required && !es.any (·.1 == k.name)).map fun k => .missingKey k.name)
        found (.map .dict)
    | _ => return .error (.found j)

def decodeItemsOn (o : Settings) : List Shape → List Json → Logging (List (Option Value))
  | s :: ss, j :: js => do
    let first ← decodeOn o s j
    let rest ← decodeItemsOn o ss js
    return first :: rest
  | _, _ => return []

def decodeBranchesOn (o : Settings) : List Shape → Json → List (Logging (Option Value))
  | [], _ => []
  | s :: ss, j => decodeOn o s j :: decodeBranchesOn o ss j

def decodeFieldsOn (o : Settings) :
    List (Field Shape) → List (Option Json) → Logging (List (Except Problem (String × Value)))
  | f :: fs, given :: rest => do
    let first ← (match given, f.default? with
      | some j, _ => do
        return match ← decodeOn o f.shape j with
          | some v => .ok (f.name, v)
          | Option.none => .error (.failedField f.name)
      | Option.none, some v => return .ok (f.name, v)
      | Option.none, Option.none => return .error (.missingField f.name))
    let others ← decodeFieldsOn o fs rest
    return first :: others
  | _, _ => return []

def decodeKeyOn (o : Settings) : List (Key Shape) → String → Json →
    Logging (Except Problem (Value × Value))
  | [], name, _ => return .error (.unexpectedKey name)
  | k :: ks, name, j =>
    if k.name = name then do
      return match ← decodeOn o k.shape j with
        | some v => .ok (.str name, v)
        | Option.none => .error (.failedKey name)
    else decodeKeyOn o ks name j

end

variable {α : Type} {o : Settings} {s : Shape} {j : Json} {v : Value} {rs : List Reason}

/-! ## Errors end in a line -/

/-- A failure says what stands in the way of the whole after everything else. -/
def EndsInLine (s : Shape) (j : Json) (r : Decoded Value) : Prop :=
  ∀ rs, r = .error rs → ∃ inner why, rs = inner ++ line s j why

theorem endsInLine_ok : EndsInLine s j (.ok v) := nofun

theorem endsInLine_line (inner : List Reason) (why : Obstacle) :
    EndsInLine s j (.error (inner ++ line s j why)) := by
  rintro _ ⟨⟩
  exact ⟨inner, why, rfl⟩

theorem endsInLine_ofScalar {r : Except Obstacle Value} : EndsInLine s j (ofScalar s j r) := by
  cases r with
  | ok v => exact endsInLine_ok
  | error why => exact endsInLine_line [] why

theorem endsInLine_ofMembers {kind : SequenceKind} {parts : List (Decoded Value)} :
    EndsInLine s j (ofMembers s j kind parts) := by
  unfold ofMembers
  split
  · exact endsInLine_ok
  · exact endsInLine_line _ _

theorem endsInLine_ofPositions {parts : List (Decoded Value)} :
    EndsInLine s j (ofPositions s j parts) := by
  unfold ofPositions
  split
  · exact endsInLine_ok
  · exact endsInLine_line _ _

theorem endsInLine_ofSlots {before after : List Problem} {slots : List (Slot α)}
    {build : List α → Value} : EndsInLine s j (ofSlots s j before after slots build) := by
  unfold ofSlots
  split
  · exact endsInLine_ok
  · exact endsInLine_line _ _

theorem endsInLine_ofEntries {kind : MapKind}
    {r : Except (List Reason × Obstacle) (List (Value × Value))} :
    EndsInLine s j (ofEntries s j kind r) := by
  unfold ofEntries
  split
  · exact endsInLine_ok
  · exact endsInLine_line _ _

theorem endsInLine_decodeJson (o : Settings) (s : Shape) (j : Json) :
    EndsInLine s j (decodeJson o s j) := by
  have hf : ∀ why, EndsInLine s j (.error (line s j why)) := fun why => endsInLine_line [] why
  cases s with
  | any => exact hf _
  | sequence k s =>
    cases j with
    | list xs => exact endsInLine_ofMembers
    | _ => exact hf _
  | tuple ss =>
    cases j with
    | list xs =>
      rw [decodeJson]
      split
      · exact endsInLine_ofPositions
      · exact hf _
    | _ => exact hf _
  | mapping k key value =>
    cases j with
    | map es => exact endsInLine_ofEntries
    | _ => exact hf _
  | optional s =>
    rw [decodeJson]
    split
    · exact endsInLine_ok
    · split
      · exact endsInLine_ok
      · exact endsInLine_line _ _
  | union ss =>
    rw [decodeJson]
    split
    · exact endsInLine_ok
    · exact endsInLine_line _ _
  | record name fs =>
    cases j with
    | map es => exact endsInLine_ofSlots
    | list xs =>
      rw [decodeJson]
      split
      · exact hf _
      · exact endsInLine_ofSlots
    | _ => exact hf _
  | typedDict name ks =>
    cases j with
    | map es => exact endsInLine_ofSlots
    | _ => exact hf _
  | _ => exact endsInLine_ofScalar

theorem ne_nil_of_decodeJson (h : decodeJson o s j = .error rs) : rs ≠ [] := by
  obtain ⟨inner, why, rfl⟩ := endsInLine_decodeJson o s j rs h
  simp [line]

/-! ## Shapes on a log -/

/-- Decoded on a log, a tree gives what it gives without one, and adds its reasons. -/
def DecodesOn (o : Settings) (s : Shape) : Prop := ∀ j, Settles (decodeOn o s j) (decodeJson o s j)

theorem reports_decodeItemsOn {ss : List Shape} {js : List Json} (h : ∀ s ∈ ss, DecodesOn o s) :
    Reports (decodeItemsOn o ss js) ((decodeItems o ss js).map (·.toOption))
      ((decodeItems o ss js).flatMap reasonsOf) := by
  induction ss generalizing js with
  | nil => exact reports_pure
  | cons s ss ih =>
    obtain ⟨hs, hss⟩ := List.forall_mem_cons.mp h
    cases js with
    | nil => exact reports_pure
    | cons j js => exact reports_cons (hs j) (ih hss)

theorem settles_decodeBranchesOn {ss : List Shape} (h : ∀ s ∈ ss, DecodesOn o s) (j : Json) :
    List.Forall₂ Settles (decodeBranchesOn o ss j) (ss.map (decodeJson o · j)) := by
  induction ss with
  | nil => exact .nil
  | cons s ss ih =>
    obtain ⟨hs, hss⟩ := List.forall_mem_cons.mp h
    exact .cons (hs j) (ih hss)

theorem reports_decodeFieldsOn {fs : List (Field Shape)} (h : ∀ f ∈ fs, DecodesOn o f.shape)
    (given : List (Option Json)) :
    Reports (decodeFieldsOn o fs given) ((decodeFields o fs given).map (·.mapError (·.2)))
      ((decodeFields o fs given).flatMap slotReasons) := by
  induction fs generalizing given with
  | nil => exact reports_pure
  | cons f fs ih =>
    obtain ⟨hf, hfs⟩ := List.forall_mem_cons.mp h
    cases given with
    | nil => exact reports_pure
    | cons g given =>
      cases g with
      | some j =>
        have hj := fillsSlot_of_settles (f.name, ·) (.failedField f.name) (hf j)
        rw [decodeFields]
        cases hr : decodeJson o f.shape j <;>
        · rw [hr] at hj
          exact reports_cons hj (ih hfs given)
      | none =>
        unfold decodeFieldsOn decodeFields
        cases f.default? with
        | some v => exact reports_cons reports_pure (ih hfs given)
        | none => exact reports_cons reports_pure (ih hfs given)

theorem fillsSlot_decodeKeyOn {ks : List (Key Shape)} (h : ∀ k ∈ ks, DecodesOn o k.shape)
    (name : String) (j : Json) :
    FillsSlot (decodeKeyOn o ks name j)
      ((decodeKey o ks name j).map fun v => (Value.str name, v)) := by
  induction ks with
  | nil => exact reports_pure
  | cons k ks ih =>
    obtain ⟨hk, hks⟩ := List.forall_mem_cons.mp h
    rw [decodeKeyOn, decodeKey]
    split
    · exact fillsSlot_of_settles _ _ (hk j)
    · exact ih hks

theorem decodeBranch_eq (o : Settings) (ss : List Shape) (j : Json) :
    decodeBranch o ss j = match (ss.map (decodeJson o · j)).findSome? (·.toOption) with
      | some v => .ok v
      | Option.none => .error ((ss.map (decodeJson o · j)).flatMap reasonsOf) := by
  induction ss with
  | nil => rfl
  | cons s ss ih =>
    rw [decodeBranch, List.map_cons, List.findSome?_cons, List.flatMap_cons, ih]
    cases decodeJson o s j with
    | ok v => rfl
    | error rs =>
      cases (ss.map (decodeJson o · j)).findSome? (·.toOption) <;> rfl

theorem decodesOn (o : Settings) (s : Shape) : DecodesOn o s := by
  induction s using inductionParts with
  | step s ih =>
  intro j
  cases s with
  | sequence k s =>
    cases j with
    | list xs =>
      have hs := reports_mapM fun x (_ : x ∈ xs) => ih s (by simp) x
      refine settles_members (xs.map (decodeJson o s)) ?_
      simpa [List.flatMap_map, Function.comp_def] using hs
    | _ => exact settles_settledOn_error reports_pure
  | tuple ss =>
    cases j with
    | list xs =>
      rw [decodeOn, decodeJson]
      by_cases h : xs.length = ss.length
      · simp only [if_pos h]
        exact settles_positions (reports_decodeItemsOn ih)
      · simp only [if_neg h]
        exact settles_settledOn_error reports_pure
    | _ => exact settles_settledOn_error reports_pure
  | mapping k key value =>
    cases j with
    | map es =>
      have hk := settles_keyOn (s := key) (ih key (by simp)) fun _ _ =>
        ne_nil_of_decodeJson
      exact settles_entries (enters_entriesOn hk (ih value (by simp)) [] [] [] es)
    | _ => exact settles_settledOn_error reports_pure
  | optional s =>
    have hb := settles_branches (s := optional s) (j := j) (.cons (ih s (by simp) j)
      (.cons (settles_scalar (s := none) (j := j) (r := match j with
        | .null => .ok .none
        | _ => .error (.found j))) .nil))
    cases hs : decodeJson o s j <;>
    · rw [hs] at hb
      cases j <;>
        simpa [decodeOn, decodeJson, hs, ofScalar, Except.mapError, Except.toOption, reasonsOf]
          using hb
  | union ss =>
    have hs : ∀ s ∈ ss, DecodesOn o s := ih
    have hb := settles_branches (s := union ss) (j := j) (settles_decodeBranchesOn hs j)
    rw [decodeOn, decodeJson, decodeBranch_eq]
    cases hf : (ss.map (decodeJson o · j)).findSome? (·.toOption) <;>
    · rw [hf] at hb
      exact hb
  | record name fs =>
    have hf := reports_decodeFieldsOn fun f (hf : f ∈ fs) => ih f.shape (mem_parts_record hf)
    cases j with
    | map es => exact settles_slots _ (hf _)
    | list xs =>
      rw [decodeOn, decodeJson]
      cases xs.length < leastFields fs || fs.length < xs.length with
      | true => exact settles_settledOn_error reports_pure
      | false => exact settles_slots _ (hf _)
    | _ => exact settles_settledOn_error reports_pure
  | typedDict name ks =>
    cases j with
    | map es =>
      have hs : ∀ k ∈ ks, DecodesOn o k.shape := fun k hk => ih k.shape (mem_parts_typedDict hk)
      have hk := reports_mapM fun (e : String × Json) (_ : e ∈ es) =>
        fillsSlot_decodeKeyOn hs e.1 e.2
      refine settles_slots (es.map fun e =>
        (decodeKey o ks e.1 e.2).map fun v => (Value.str e.1, v)) ?_
      simpa [List.flatMap_map, Function.comp_def] using hk
    | _ => exact settles_settledOn_error reports_pure
  | any => exact settles_scalar
  | _ => exact settles_scalar

end Shape

end ShapeCodec
