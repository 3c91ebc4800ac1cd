/-! # Logs

A log holds reasons in the order in which they were given, the innermost first. A verdict is the
answer to a judgment together with the log of what speaks against it.
-/

namespace ShapeCodec

structure Log (ρ : Type) where
  reasons : List ρ

namespace Log

variable {ρ : Type}

def empty : Log ρ := ⟨[]⟩

def push (log : Log ρ) (reason : ρ) : Log ρ := ⟨log.reasons ++ [reason]⟩

def append (log other : Log ρ) : Log ρ := ⟨log.reasons ++ other.reasons⟩

/-- Hands the reasons of a log one by one to another one, and returns that. -/
def reportTo (log sink : Log ρ) : Log ρ := log.reasons.foldl push sink

def isEmpty (log : Log ρ) : Bool := log.reasons.isEmpty

def size (log : Log ρ) : Nat := log.reasons.length

def text (wording : ρ → String) (log : Log ρ) : String := "; ".intercalate (log.reasons.map wording)

end Log

/-- The answer to a judgment and what speaks against it. -/
structure Verdict (ρ : Type) where
  holds : Bool
  log : Log ρ

end ShapeCodec
