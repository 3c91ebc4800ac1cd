import ShapeCodec.Proofs.Diagnostics.Checking
import ShapeCodec.Proofs.Diagnostics.Decoding
import ShapeCodec.Proofs.Gates

/-! # Verdicts and their logs

A judgment that holds has nothing in its log, and one that fails has the line about its subject at
the end. This is so for the judgments on shapes, for conformance and for decoding, and on a log that
others have written to already it is so for what is added.
-/

namespace ShapeCodec

def Log.lastText (log : Log Reason) : Option String := log.reasons.getLast?.map Reason.text

theorem Reason.text_fails {judgment : Judgment} {s : Shape} {ending : String}
    (h : " is not " ++ judgment.text ++ "." = ending) :
    (fails judgment s).text = "Type " ++ s.text ++ ending := by
  subst h
  change "Type " ++ s.text ++ " is not " ++ judgment.text ++ "." = _
  rw [String.append_assoc, String.append_assoc, @String.append_assoc " is not "]

theorem Reason.text_notInstance {v : Value} {s : Shape} :
    (notInstance v s).text = "Value " ++ v.text ++ " is not an instance of " ++ s.text ++ "." := rfl

theorem Reason.text_undecodable {j : Json} {s : Shape} {why : Obstacle} :
    (undecodable j s why).text =
      "Cannot decode " ++ j.write ++ " as " ++ s.text ++ ": " ++ (why.text ++ ".") := by
  rw [← String.append_assoc]
  rfl

/-- Nothing is said when the answer is yes, and otherwise a given reason comes last. -/
structure Concludes (holds : Bool) (reasons : List Reason) (last : Reason) : Prop where
  silent : holds = true → reasons = []
  last : holds = false → ∃ inner, reasons = inner ++ [last]

namespace Concludes

variable {holds : Bool} {reasons : List Reason} {last : Reason}

theorem eq_isEmpty (h : Concludes holds reasons last) :
    holds = (⟨reasons⟩ : Log Reason).isEmpty := by
  cases holds with
  | true => simp [Log.isEmpty, h.silent rfl]
  | false =>
    obtain ⟨inner, rfl⟩ := h.last rfl
    simp [Log.isEmpty]

theorem lastText (h : Concludes holds reasons last) (hf : holds = false) :
    (⟨reasons⟩ : Log Reason).lastText = some last.text := by
  obtain ⟨inner, rfl⟩ := h.last hf
  simp [Log.lastText]

end Concludes

namespace Shape

variable {o : Settings} {s : Shape} {v : Value}

theorem concludes_failing {judgment : Judgment} {holds : Bool} {inner : List Reason} :
    Concludes holds (failing judgment holds s inner) (.fails judgment s) where
  silent h := if_pos h
  last h := ⟨inner, if_neg (by simp [h])⟩

theorem concludes_complaints :
    Concludes (conforms o s v) (complaints o s v) (.notInstance v s) where
  silent h := if_pos h
  last h := ⟨innerComplaints o s v, if_neg (by simp [h])⟩

theorem concludes_checkFaults (s : Shape) :
    Concludes (checkable s) (checkFaults s) (.fails .checkable s) := by
  cases s with
  | sequence | tuple | mapping | optional | union | literal | record | enum | typedDict =>
    exact concludes_failing
  | _ => exact @concludes_failing _ _ _ []

theorem concludes_hashFaults (s : Shape) :
    Concludes (hashable s) (hashFaults s) (.fails .hashable s) := by
  cases s <;> exact concludes_failing

theorem concludes_keyFaults (s : Shape) :
    Concludes (hashable s) (keyFaults s) (.fails .keyable s) := concludes_failing

theorem concludes_encodeFaults (s : Shape) :
    Concludes (encodable s) (encodeFaults s) (.fails .encodable s) := by
  cases s <;> exact concludes_failing

/-- The shape is checked first, and when it cannot be checked against that is said last. -/
theorem concludes_afterCheck {holds : Bool} {reasons : List Reason} {judgment : Judgment}
    (h : Concludes holds reasons (.fails judgment s)) :
    Concludes (checkable s && holds) (if checkable s then reasons else checkFaults s)
      (.fails (if checkable s then judgment else .checkable) s) := by
  cases hc : checkable s with
  | true => exact h
  | false =>
    have hs := concludes_checkFaults s
    rw [hc] at hs
    exact hs

/-- The judgment that the last line of a verdict names. -/
def named (judgment : Judgment) (s : Shape) : Judgment :=
  match judgment with
  | .hashable | .keyable => if checkable s then judgment else .checkable
  | _ => judgment

theorem concludes_judge (judgment : Judgment) (s : Shape) :
    Concludes (satisfies judgment s) (faults judgment s) (.fails (named judgment s) s) := by
  cases judgment with
  | checkable => exact concludes_checkFaults s
  | hashable => exact concludes_afterCheck (concludes_hashFaults s)
  | keyable => exact concludes_afterCheck (concludes_keyFaults s)
  | encodable =>
    rw [satisfies, faults]
    cases checkable s with
    | true => exact concludes_encodeFaults s
    | false => exact ⟨by simp, fun _ => ⟨checkFaults s, rfl⟩⟩

end Shape

/-- On any log, the work comes out with a result. It leaves the log as it is when it succeeds, and
adds the reasons, of which there are some, when it fails. -/
def Logging.ReportsFailure {α : Type} (work : Logging α) (result : α) (succeeds : Prop)
    (reasons : List Reason) : Prop :=
  ∀ log : Log Reason, (succeeds → work.run log = (result, log)) ∧
    (¬ succeeds → reasons ≠ [] ∧ work.run log = (result, log.append ⟨reasons⟩))

theorem Logging.Reports.reportsFailure {α : Type} {work : Logging α} {a : α} {succeeds : Prop}
    {reasons : List Reason} (h : Logging.Reports work a reasons) (hs : succeeds → reasons = [])
    (hf : ¬ succeeds → reasons ≠ []) : Logging.ReportsFailure work a succeeds reasons := by
  refine fun log => ⟨fun hp => ?_, fun hp => ⟨hf hp, h log⟩⟩
  rw [h log, hs hp, Log.append, List.append_nil]
  rfl

theorem Logging.Answers.reportsFailure {work : Logging Bool} {answer : Bool}
    {reasons : List Reason} {last : Reason} (h : Logging.Answers work answer reasons)
    (hc : Concludes answer reasons last) :
    Logging.ReportsFailure work answer (answer = true) reasons := by
  refine h.reports.reportsFailure h.silent fun hn => ?_
  obtain ⟨inner, rfl⟩ := hc.last (Bool.eq_false_iff.mpr hn)
  simp

theorem decode_eq_conformance {o : Settings} {s : Shape} {j : Json} {log : Log Reason}
    (h : decode o s j = .error (.conformance log)) : s.decodeJson o j = .error log.reasons := by
  rw [decode, Shape.ensure] at h
  split at h
  · cases hd : s.decodeJson o j with
    | ok v =>
      rw [hd] at h
      cases h
    | error rs =>
      rw [hd] at h
      cases h
      rfl
  · cases h

/-- Verdicts have an empty log exactly when they hold, and failures end with the line about the
shape, the value or the tree that was asked about. The engines leave the log that they are handed
alone when they succeed, and add their reasons to it when they fail. -/
theorem reasons_exactly_on_failure :
    (∀ judgment s, (Shape.judge judgment s).holds = (Shape.judge judgment s).log.isEmpty) ∧
    (∀ s : Shape, (s.judge .checkable).holds = false → (s.judge .checkable).log.lastText =
      some ("Type " ++ s.text ++ " is not typecheckable.")) ∧
    (∀ s : Shape, (s.judge .encodable).holds = false → (s.judge .encodable).log.lastText =
      some ("Type " ++ s.text ++ " is not JSON encodable.")) ∧
    (∀ s : Shape, (s.judge .hashable).holds = false → (s.judge .hashable).log.lastText =
      some (if (s.judge .checkable).holds then "Type " ++ s.text ++ " is not hashable."
        else "Type " ++ s.text ++ " is not typecheckable.")) ∧
    (∀ s : Shape, (s.judge .keyable).holds = false → (s.judge .keyable).log.lastText =
      some (if (s.judge .checkable).holds then "Type " ++ s.text ++ " is not keyable."
        else "Type " ++ s.text ++ " is not typecheckable.")) ∧
    (∀ o s v, (s.judge .checkable).holds = true → ∃ verdict, isInstance o s v = .ok verdict ∧
      verdict.holds = verdict.log.isEmpty ∧
      (verdict.holds = false → verdict.log.lastText =
        some ("Value " ++ v.text ++ " is not an instance of " ++ s.text ++ "."))) ∧
    (∀ o s j log, decode o s j = .error (.conformance log) → log.isEmpty = false ∧
      ∃ why, log.lastText =
        some ("Cannot decode " ++ j.write ++ " as " ++ s.text ++ ": " ++ why)) ∧
    (∀ s : Shape, Logging.ReportsFailure s.checkOn s.checkable (s.checkable = true) s.checkFaults) ∧
    (∀ (o : Settings) (s : Shape) (v : Value), Logging.ReportsFailure (s.conformOn o v)
      (s.conforms o v) (s.conforms o v = true) (s.complaints o v)) ∧
    (∀ (o : Settings) (s : Shape) (j : Json), Logging.ReportsFailure (s.decodeOn o j)
      (s.decodeJson o j).toOption (∃ v, s.decodeJson o j = .ok v)
      (Shape.reasonsOf (s.decodeJson o j))) := by
  have hj : ∀ judgment s, Concludes (Shape.judge judgment s).holds
      (Shape.judge judgment s).log.reasons (.fails (Shape.named judgment s) s) :=
    Shape.concludes_judge
  refine ⟨fun judgment s => (hj judgment s).eq_isEmpty, fun s hs => ?_, fun s hs => ?_,
    fun s hs => ?_, fun s hs => ?_, fun o s v hs => ?_, fun o s j log h => ?_, fun s => ?_,
    fun o s v => ?_, fun o s j => ?_⟩
  · exact ((hj _ s).lastText hs).trans (congrArg some (Reason.text_fails rfl))
  · exact ((hj _ s).lastText hs).trans (congrArg some (Reason.text_fails rfl))
  · refine ((hj _ s).lastText hs).trans (congrArg some ?_)
    change _ = if s.checkable then _ else _
    rw [Shape.named]
    cases s.checkable <;> exact Reason.text_fails rfl
  · refine ((hj _ s).lastText hs).trans (congrArg some ?_)
    change _ = if s.checkable then _ else _
    rw [Shape.named]
    cases s.checkable <;> exact Reason.text_fails rfl
  · have hc := Shape.concludes_complaints (o := o) (s := s) (v := v)
    refine ⟨_, isInstance_of_checkable hs, hc.eq_isEmpty, fun hf => ?_⟩
    rw [hc.lastText hf, Reason.text_notInstance]
  · obtain ⟨rs⟩ := log
    obtain ⟨inner, why, rfl⟩ := Shape.endsInLine_decodeJson o s j rs (decode_eq_conformance h)
    refine ⟨by simp [Log.isEmpty, Shape.line], why.text ++ ".", ?_⟩
    rw [Log.lastText, Shape.line, List.getLast?_concat, Option.map_some, Reason.text_undecodable]
  · exact (Shape.answers_checkOn s).reportsFailure (Shape.concludes_checkFaults s)
  · exact (Shape.answers_conformOn o s v).reportsFailure Shape.concludes_complaints
  · have hd := Shape.decodesOn o s j
    cases h : s.decodeJson o j with
    | ok v =>
      rw [h] at hd
      exact Logging.Reports.reportsFailure hd (fun _ => rfl) fun hn => (hn ⟨v, rfl⟩).elim
    | error rs =>
      rw [h] at hd
      refine Logging.Reports.reportsFailure hd ?_ fun _ => Shape.ne_nil_of_decodeJson h
      rintro ⟨v, ⟨⟩⟩

theorem reasons_exactly_on_failure_list :
    ((Shape.sequence .list .int).judge .hashable).log.lastText =
      some "Type List[int] is not hashable." ∧
    (∃ verdict, isInstance .standard (.sequence .list .int) (.str "a") = .ok verdict ∧
      verdict.log.lastText = some "Value 'a' is not an instance of List[int].") ∧
    (∃ log, decode .standard (.sequence .list .int) (.str "a") = .error (.conformance log) ∧
      log.isEmpty = false) ∧
    ((Shape.sequence .list .int).decodeOn .standard (.str "a")).run ⟨[.emptyLiteral]⟩ =
      (none, ⟨[.emptyLiteral,
        .undecodable (.str "a") (.sequence .list .int) (.found (.str "a"))]⟩) := by
  obtain ⟨-, -, -, hh, -, hi, hd, -, -, hl⟩ := reasons_exactly_on_failure
  obtain ⟨verdict, hv, -, ht⟩ := hi .standard (.sequence .list .int) (.str "a") (by decide)
  have hf : isInstance .standard (.sequence .list .int) (.str "a") =
      .ok ⟨false, ⟨[.notInstance (.str "a") (.sequence .list .int)]⟩⟩ := by cbv
  have he : decode .standard (.sequence .list .int) (.str "a") = .error (.conformance
      ⟨[.undecodable (.str "a") (.sequence .list .int) (.found (.str "a"))]⟩) := by cbv
  refine ⟨(hh _ (by decide)).trans (by decide), ⟨verdict, hv, ?_⟩, ⟨_, he, (hd _ _ _ _ he).1⟩,
    ((hl .standard (.sequence .list .int) (.str "a") ⟨[.emptyLiteral]⟩).2 ?_).2⟩
  · obtain rfl := Except.ok.inj (hf.symm.trans hv)
    exact (ht rfl).trans (by decide)
  · rintro ⟨_, ⟨⟩⟩

end ShapeCodec
