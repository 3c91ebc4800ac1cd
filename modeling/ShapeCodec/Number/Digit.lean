/-! # Decimal digits

Digits as a domain of their own, the digits of a natural number and the number that a
sequence of digits stands for. `digitsOf` writes no leading zero.
-/

namespace ShapeCodec

abbrev Digit := Fin 10

namespace Digit

def zero : Digit := ⟨0, by decide⟩

def char (d : Digit) : Char := Char.ofNat (48 + d.val)

def ofChar? (c : Char) : Option Digit :=
  if h : 48 ≤ c.toNat ∧ c.toNat < 58 then some ⟨c.toNat - 48, by omega⟩ else none

def chars (ds : List Digit) : List Char := ds.map char

def value (ds : List Digit) : Nat := ds.foldl (fun v d => 10 * v + d.val) 0

/-- The digits of `n`, followed by `after`. -/
def ofNatOnto (n : Nat) (after : List Digit) : List Digit :=
  if h : n < 10 then ⟨n, h⟩ :: after
  else ofNatOnto (n / 10) (⟨n % 10, Nat.mod_lt _ (by decide)⟩ :: after)

/-- The digits of `n`, the most significant first; zero has one digit. -/
def ofNat (n : Nat) : List Digit := ofNatOnto n []

def natChars (n : Nat) : List Char := chars (ofNat n)

def intChars (i : Int) : List Char :=
  if i < 0 then '-' :: natChars i.natAbs else natChars i.natAbs

def natText (n : Nat) : String := String.ofList (natChars n)

def intText (i : Int) : String := String.ofList (intChars i)

/-- The longest start of a text that consists of digits, and the rest. -/
def span : List Char → List Digit × List Char
  | [] => ([], [])
  | c :: cs =>
    match ofChar? c with
    | some d => let (ds, rest) := span cs; (d :: ds, rest)
    | none => ([], c :: cs)

theorem span_length (cs : List Char) : (span cs).1.length + (span cs).2.length = cs.length := by
  induction cs with
  | nil => rfl
  | cons c cs ih =>
    unfold span
    split
    · simp only [List.length_cons]; omega
    · simp

end Digit

end ShapeCodec
