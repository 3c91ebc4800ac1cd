import ShapeCodec.Proofs.Shape.Parts

/-! # Judgments by occurrence

A judgment goes down to the parts of a shape and asks something of each shape on its way. It holds
when that is true of every shape that occurs: no union has a single branch, no literal is empty, no
name comes twice and every default is a strict instance; nothing that can change is hashed; nothing
is encoded that is open or infinite, or that changes and is used as a key.
-/

namespace ShapeCodec

namespace Shape

theorem judgment_iff_forall_within {holds : Shape → Bool} {asks : Shape → Prop}
    (h : ∀ s, holds s = true ↔ asks s ∧ ∀ p ∈ s.parts, holds p = true) (s : Shape) :
    holds s = true ↔ ∀ t, Within t s → asks t := by
  induction s using inductionParts with
  | step s ih =>
    rw [h, forall_within_iff]
    exact and_congr_right fun _ => forall₂_congr ih

theorem checkable_iff_forall_within {s : Shape} :
    checkable s = true ↔ ∀ t, Within t s → t.WellMade :=
  judgment_iff_forall_within (fun _ => checkable_iff) s

theorem hashable_iff_forall_within {s : Shape} :
    hashable s = true ↔ ∀ t, Within t s → ¬ t.Mutable :=
  judgment_iff_forall_within (fun _ => hashable_iff) s

theorem encodable_iff_forall_within {s : Shape} :
    encodable s = true ↔ ∀ t, Within t s → t ≠ any ∧
      (∀ ls, t = literal ls → ∀ x, Literal.float x ∈ ls → x.isFinite = true) ∧
      ∀ k key value, t = mapping k key value → ∀ u, Within u key → ¬ u.Mutable := by
  rw [judgment_iff_forall_within fun _ => encodable_iff]
  refine forall₂_congr fun t _ => ?_
  cases t <;> simp [Writable, hashable_iff_forall_within]

end Shape

/-- Each judgment holds of a shape exactly when what it asks of a shape itself is true of every
shape that occurs in it. -/
theorem judge_iff_forall_within (s : Shape) :
    ((s.judge .checkable).holds = true ↔ ∀ t, Shape.Within t s → t.WellMade) ∧
    ((s.judge .hashable).holds = true ↔
      (s.judge .checkable).holds = true ∧ ∀ t, Shape.Within t s → ¬ t.Mutable) ∧
    ((s.judge .keyable).holds = true ↔
      (s.judge .checkable).holds = true ∧ ∀ t, Shape.Within t s → ¬ t.Mutable) ∧
    ((s.judge .encodable).holds = true ↔ (s.judge .checkable).holds = true ∧
      ∀ t, Shape.Within t s → t ≠ .any ∧
        (∀ ls, t = .literal ls → ∀ x, Literal.float x ∈ ls → x.isFinite = true) ∧
        ∀ k key value, t = .mapping k key value → ∀ u, Shape.Within u key → ¬ u.Mutable) := by
  simp only [Shape.judge, Shape.satisfies, Bool.and_eq_true]
  refine ⟨Shape.checkable_iff_forall_within, ?_, ?_, ?_⟩
  · exact and_congr_right fun _ => Shape.hashable_iff_forall_within
  · exact and_congr_right fun _ => Shape.hashable_iff_forall_within
  · exact and_congr_right fun _ => Shape.encodable_iff_forall_within

end ShapeCodec
