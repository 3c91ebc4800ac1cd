import ShapeCodec.Command.Run
import ShapeCodec.Proofs.Files.Laws
import ShapeCodec.Proofs.Results

/-! # Looks

Before a command makes any output it only looks at files. A look leaves them as they are and comes
to a result or to a fault, and looks behind each other do so together.
-/

namespace ShapeCodec

variable {σ ε α β : Type}

/-- A look leaves the state as it is. It finds the one result with a property, and fails when there
is none. -/
def Finds (s : σ) (look : ExceptT ε (StateM σ) α) (holds : α → Prop) : Prop :=
  ∃ r, look.run.run s = (r, s) ∧ ∀ a, holds a ↔ r = .ok a

section Finds

variable {s s' : σ} {look : ExceptT ε (StateM σ) α} {next : α → ExceptT ε (StateM σ) β}
  {P P' : α → Prop}

theorem run_bind_ok {a : α} (h : look.run.run s = (.ok a, s')) :
    (look >>= next).run.run s = (next a).run.run s' := by
  rw [ExceptT.run_bind, StateT.run_bind, h]
  rfl

theorem run_bind_error {e : ε} (h : look.run.run s = (.error e, s')) :
    (look >>= next).run.run s = (.error e, s') := by
  rw [ExceptT.run_bind, StateT.run_bind, h]
  rfl

theorem finds_pure (a : α) : Finds (ε := ε) s (pure a) (a = ·) := ⟨.ok a, rfl, by simp⟩

theorem finds_throw (e : ε) :
    Finds s (throw e : ExceptT ε (StateM σ) α) fun _ => False := ⟨.error e, rfl, by simp⟩

theorem finds_except (r : Except ε α) : Finds s (ExceptT.mk (pure r)) (r = .ok ·) :=
  ⟨r, rfl, fun _ => Iff.rfl⟩

theorem run_attempt (fault : ε → CommandFault) (action : StateM σ (Except ε α)) :
    (Request.attempt fault action).run.run s =
      ((action.run s).1.mapError fault, (action.run s).2) := rfl

theorem finds_attempt {action : StateM σ (Except ε α)} (h : Keeps id action)
    (fault : ε → CommandFault) :
    Finds s (Request.attempt fault action) ((action.run s).1 = .ok ·) := by
  refine ⟨(action.run s).1.mapError fault, ?_, fun a => mapError_eq_ok_iff.symm⟩
  rw [run_attempt]
  exact Prod.ext rfl (h s)

theorem Finds.congr (h : Finds s look P) (hp : ∀ a, P' a ↔ P a) : Finds s look P' := by
  obtain ⟨r, hr, hf⟩ := h
  exact ⟨r, hr, fun a => (hp a).trans (hf a)⟩

/-- A look behind another one finds what it is behind. -/
theorem Finds.bind {Q : α → β → Prop} (h : Finds s look P)
    (hn : ∀ a, P a → Finds s (next a) (Q a)) :
    Finds s (look >>= next) fun b => ∃ a, P a ∧ Q a b := by
  obtain ⟨r, hr, hf⟩ := h
  cases r with
  | error e => exact ⟨.error e, run_bind_error hr, fun b => by simp [hf]⟩
  | ok a =>
    obtain ⟨r', hr', hf'⟩ := hn a ((hf a).mpr rfl)
    exact ⟨r', (run_bind_ok hr).trans hr', fun b => by simp [hf, hf']⟩

theorem finds_mapM {f : β → ExceptT ε (StateM σ) α} {R : β → α → Prop} {xs : List β}
    (h : ∀ x ∈ xs, Finds s (f x) (R x)) : Finds s (xs.mapM f) (List.Forall₂ R xs) := by
  induction xs with
  | nil => exact (finds_pure []).congr fun ys => by rw [List.forall₂_nil_left_iff, eq_comm]
  | cons x xs ih =>
    obtain ⟨hx, hxs⟩ := List.forall_mem_cons.mp h
    rw [List.mapM_cons]
    refine (hx.bind fun y _ => (ih hxs).bind fun ys _ => finds_pure (y :: ys)).congr fun zs => ?_
    rw [List.forall₂_cons_left_iff]
    constructor
    · rintro ⟨y, ys, hy, hys, rfl⟩
      exact ⟨y, hy, ys, hys, rfl⟩
    · rintro ⟨y, hy, ys, hys, rfl⟩
      exact ⟨y, ys, hy, hys, rfl⟩

end Finds

end ShapeCodec
