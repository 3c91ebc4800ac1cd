import ShapeCodec.Proofs.Lists
import ShapeCodec.Reason

/-! # Work on a log

An engine can be handed a log that others have written to already, and adds its reasons behind
theirs. Work reports reasons when it adds exactly these to whatever log it is given; what one piece
of work after another reports is what they report in turn.
-/

namespace ShapeCodec

abbrev Logging := StateM (Log Reason)

namespace Logging

variable {α β : Type}

def push (reason : Reason) : Logging Unit := modify (·.push reason)

def append (other : Log Reason) : Logging Unit := modify (·.append other)

/-- Does work on an empty log of its own, and gives this back with the result. -/
def scratch (work : Logging α) : Logging (α × Log Reason) := pure (work.run .empty).run

/-- The work has a result and adds reasons to the log, whatever this holds. -/
def Reports (work : Logging α) (result : α) (reasons : List Reason) : Prop :=
  ∀ log, work.run log = pure (result, log.append ⟨reasons⟩)

variable {work : Logging α} {f : α → Logging β} {a : α} {b : β} {rs rs' : List Reason}
  {reason : Reason} {l : Log Reason}

theorem reports_pure : Reports (pure a) a [] := by
  intro log
  simp [Log.append]

theorem reports_push : Reports (push reason) () [reason] := by
  intro log
  simp [push, Log.push, Log.append]

theorem reports_append : Reports (append l) () l.reasons := by
  intro log
  simp [append, Log.append]

theorem Reports.bind (h : Reports work a rs) (h' : Reports (f a) b rs') :
    Reports (work >>= f) b (rs ++ rs') := by
  intro log
  rw [StateT.run_bind, h log, pure_bind, h' (log.append ⟨rs⟩)]
  simp only [Log.append, List.append_assoc]

theorem reports_cons {rest : Logging (List α)} {xs : List α} (h : Reports work a rs)
    (h' : Reports rest xs rs') :
    Reports (do
      let first ← work
      let others ← rest
      return first :: others) (a :: xs) (rs ++ rs') := by
  rw [← List.append_nil rs']
  exact h.bind (h'.bind reports_pure)

theorem reports_mapM {ask : α → Logging β} {answer : α → β} {reasons : α → List Reason}
    {xs : List α} (h : ∀ x ∈ xs, Reports (ask x) (answer x) (reasons x)) :
    Reports (xs.mapM ask) (xs.map answer) (xs.flatMap reasons) := by
  induction xs with
  | nil => exact reports_pure
  | cons x xs ih =>
    obtain ⟨hx, hxs⟩ := List.forall_mem_cons.mp h
    rw [List.mapM_cons]
    exact reports_cons hx (ih hxs)

theorem Reports.scratch (h : Reports work a rs) : Reports (scratch work) (a, ⟨rs⟩) [] := by
  rw [Logging.scratch, h .empty]
  exact reports_pure

/-! ## Answers -/

/-- Work that answers a question and reports nothing when the answer is yes. -/
structure Answers (work : Logging Bool) (answer : Bool) (reasons : List Reason) : Prop where
  reports : Reports work answer reasons
  silent : answer = true → reasons = []

variable {p q : Logging Bool} {x y : Bool}

theorem answers_true : Answers (pure true) true [] := ⟨reports_pure, fun _ => rfl⟩

theorem answers_pure : Answers (pure x) x [] := ⟨reports_pure, fun _ => rfl⟩

/-- One question after the other: the second is asked whatever the answer to the first is. -/
theorem Answers.and (hp : Answers p x rs) (hq : Answers q y rs') :
    Answers (do
      let a ← p
      let b ← q
      return a && b) (x && y) (rs ++ rs') where
  reports := by
    refine hp.reports.bind (?_ : Reports _ (x && y) rs')
    have h := hq.reports.bind (f := fun b => pure (x && b)) reports_pure
    rwa [List.append_nil] at h
  silent h := by
    obtain ⟨hx, hy⟩ := (Bool.and_eq_true _ _).mp h
    rw [hp.silent hx, hq.silent hy, List.append_nil]

def concluding (line : Reason) (work : Logging Bool) : Logging Bool := do
  let answer ← work
  if answer then return true
  else
    push line
    return false

theorem Answers.concluding {line : Reason} (h : Answers p x rs) :
    Answers (concluding line p) x (if x then [] else rs ++ [line]) where
  reports := by
    cases x with
    | true =>
      have hr := h.reports.bind (f := fun answer => if answer then pure true else do
        push line
        return false) reports_pure
      rwa [h.silent rfl] at hr
    | false => exact h.reports.bind (reports_push.bind reports_pure)
  silent := by
    rintro rfl
    rfl

/-! ## Several questions -/

variable {line : Reason}

def refuse (reason : Reason) : Logging Bool := do
  push reason
  return false

def andThen (first rest : Logging Bool) : Logging Bool := do
  if ← first then rest else return false

def allOn (ask : α → Logging Bool) : List α → Logging Bool
  | [] => return true
  | x :: xs => do
    let first ← ask x
    let rest ← allOn ask xs
    return first && rest

/-- Asks until the answer is yes, each time on an empty log. When it never is, all these logs are
added, and a line. -/
def anyOn (line : Reason) (failures : Log Reason) : List (Logging Bool) → Logging Bool
  | [] => do
    append failures
    refuse line
  | work :: rest => do
    let (answer, log) ← scratch work
    if answer then return true else anyOn line (failures.append log) rest

theorem answers_refuse (line : Reason) : Answers (refuse line) false [line] :=
  ⟨reports_push.bind reports_pure, nofun⟩

theorem answers_ask (P : Prop) [Decidable P] (line : Reason) :
    Answers (if P then pure true else refuse line) (decide P) (if P then [] else [line]) := by
  by_cases h : P
  · simpa [h] using answers_true
  · simpa [h] using answers_refuse line

theorem answers_allOn {ask : α → Logging Bool} {answer : α → Bool} {reasons : α → List Reason}
    {xs : List α} (h : ∀ x ∈ xs, Answers (ask x) (answer x) (reasons x)) :
    Answers (allOn ask xs) (xs.all answer) (xs.flatMap reasons) := by
  induction xs with
  | nil => exact answers_pure
  | cons x xs ih =>
    obtain ⟨hx, hxs⟩ := List.forall_mem_cons.mp h
    exact hx.and (ih hxs)

theorem Answers.andThen (hp : Answers p x rs) (hq : x = true → Answers q y rs') :
    Answers (andThen p q) (x && y) (rs ++ if x then rs' else []) := by
  cases x with
  | true =>
    refine ⟨hp.reports.bind (hq rfl).reports, fun h => ?_⟩
    rw [hp.silent rfl, if_pos rfl, (hq rfl).silent (by simpa using h), List.append_nil]
  | false => exact ⟨hp.reports.bind reports_pure, nofun⟩

theorem anyOn_cons {work : Logging Bool} {works : List (Logging Bool)} {failures : Log Reason} :
    anyOn line failures (work :: works) = scratch work >>= fun r =>
      if r.1 then pure true else anyOn line (failures.append r.2) works := rfl

/-- What the branches have to say is kept when none of them holds, and the line comes last. -/
theorem reports_anyOn {works : List (Logging Bool)} {answers : List (Bool × List Reason)}
    (h : List.Forall₂ (fun work a => Answers work a.1 a.2) works answers) (failures : Log Reason) :
    Reports (anyOn line failures works) (answers.any (·.1))
      (if answers.any (·.1) then []
        else failures.reasons ++ answers.flatMap (·.2) ++ [line]) := by
  induction h generalizing failures with
  | nil =>
    simpa [anyOn] using (reports_append (l := failures)).bind (f := fun _ => refuse line)
      (answers_refuse line).reports
  | @cons work a works answers hw _ ih =>
    obtain ⟨x, rs⟩ := a
    rw [anyOn_cons]
    cases x with
    | true => exact hw.reports.scratch.bind reports_pure
    | false =>
      have hr := hw.reports.scratch.bind
        (f := fun r => if r.1 then pure true else anyOn line (failures.append r.2) works)
        (ih (failures.append ⟨rs⟩))
      change Reports _ (answers.any (·.1)) (if answers.any (·.1) then []
        else failures.reasons ++ (rs ++ answers.flatMap (·.2)) ++ [line])
      simpa [Log.append] using hr

theorem answers_anyOn (line : Reason) {works : List (Logging Bool)}
    {answers : List (Bool × List Reason)}
    (h : List.Forall₂ (fun work a => Answers work a.1 a.2) works answers) :
    Answers (anyOn line .empty works) (answers.any (·.1))
      (if answers.any (·.1) then [] else answers.flatMap (·.2) ++ [line]) where
  reports := reports_anyOn h .empty
  silent h := if_pos h

theorem Answers.anyOn_singleton (h : Answers p x rs) :
    Answers (anyOn line .empty [p]) x (if x then [] else rs ++ [line]) := by
  simpa using @answers_anyOn line [p] [(x, rs)] (.cons h .nil)

end Logging

end ShapeCodec
