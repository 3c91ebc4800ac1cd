import Mathlib.Data.List.Forall2

/-! # Results

When a result that is put together from others is there or fails: of a map over a result, of one
step after the other, and of a traversal, whose result or first error comes from its members.
-/

namespace ShapeCodec

variable {ε α β : Type}

@[simp] theorem map_eq_ok_iff {f : α → β} {r : Except ε α} {y : β} :
    r.map f = .ok y ↔ ∃ x, r = .ok x ∧ f x = y := by
  cases r <;> simp [Except.map]

theorem map_pair_eq_ok_iff {γ : Type} {r : Except ε β} {x : γ} {p : γ × β} :
    r.map (x, ·) = .ok p ↔ x = p.1 ∧ r = .ok p.2 := by
  obtain ⟨y, z⟩ := p
  cases r <;> simp [Except.map]

@[simp] theorem map_eq_error_iff {f : α → β} {r : Except ε α} {e : ε} :
    r.map f = .error e ↔ r = .error e := by
  cases r <;> simp [Except.map]

@[simp] theorem mapError_eq_ok_iff {γ : Type} {f : ε → γ} {r : Except ε α} {v : α} :
    r.mapError f = .ok v ↔ r = .ok v := by
  cases r <;> simp [Except.mapError]

@[simp] theorem bind_eq_ok_iff {f : α → Except ε β} {r : Except ε α} {y : β} :
    r >>= f = .ok y ↔ ∃ x, r = .ok x ∧ f x = .ok y := by
  cases r <;> simp [bind, Except.bind]

@[simp] theorem bind_eq_error_iff {f : α → Except ε β} {r : Except ε α} {e : ε} :
    r >>= f = .error e ↔ r = .error e ∨ ∃ x, r = .ok x ∧ f x = .error e := by
  cases r <;> simp [bind, Except.bind]

@[simp] theorem pure_eq_ok_iff {x y : α} : (pure x : Except ε α) = .ok y ↔ x = y := by
  simp [pure, Except.pure]

@[simp] theorem pure_ne_error {x : α} {e : ε} : ¬ (pure x : Except ε α) = .error e := nofun

theorem mapM_eq_ok_iff {f : α → Except ε β} {xs : List α} {ys : List β} :
    xs.mapM f = .ok ys ↔ List.Forall₂ (fun x y => f x = .ok y) xs ys := by
  induction xs generalizing ys with
  | nil => rw [List.mapM_nil, pure_eq_ok_iff, List.forall₂_nil_left_iff, eq_comm]
  | cons x xs ih =>
    simp only [List.mapM_cons, bind_eq_ok_iff, pure_eq_ok_iff, ih, List.forall₂_cons_left_iff]
    constructor
    · rintro ⟨y, hy, ys, hys, rfl⟩
      exact ⟨y, ys, hy, hys, rfl⟩
    · rintro ⟨y, ys, hy, hys, rfl⟩
      exact ⟨y, hy, ys, hys, rfl⟩

theorem exists_of_mapM_eq_error {f : α → Except ε β} {xs : List α} {e : ε}
    (h : xs.mapM f = .error e) : ∃ x ∈ xs, f x = .error e := by
  induction xs with
  | nil => cases h
  | cons x xs ih =>
    simp only [List.mapM_cons, bind_eq_error_iff, pure_ne_error, and_false, exists_false,
      or_false] at h
    rcases h with h | ⟨y, _, h⟩
    · exact ⟨x, List.mem_cons_self, h⟩
    · obtain ⟨z, hz, he⟩ := ih h
      exact ⟨z, List.mem_cons_of_mem _ hz, he⟩

@[simp] theorem toOption_eq_some_iff {r : Except ε α} {v : α} :
    r.toOption = some v ↔ r = .ok v := by
  cases r <;> simp [Except.toOption]

theorem toOption_eq_none_iff {r : Except ε α} : r.toOption = none ↔ ∀ v, r ≠ .ok v := by
  cases r <;> simp [Except.toOption]

theorem toOption_eq_of_ok_iff {r r' : Except ε α} (h : ∀ v, r = .ok v ↔ r' = .ok v) :
    r.toOption = r'.toOption :=
  Option.ext fun v => by rw [toOption_eq_some_iff, toOption_eq_some_iff, h]

end ShapeCodec
