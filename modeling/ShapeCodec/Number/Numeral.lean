import ShapeCodec.Number.Digit
import ShapeCodec.Number.Power

/-! # Numerals

A numeral is a number as it is written: an optional minus sign, digits without a leading zero,
an optional fraction and an optional exponent. Every value of `Numeral` is a number of the JSON
grammar and every number of that grammar has exactly one `Numeral`, up to the spelling of the
exponent mark and of its plus sign, which `Numeral.chars` fixes.
-/

namespace ShapeCodec

def Int64.ofInt? (n : Int) : Option Int64 :=
  if -(twoTo 63 : Int) ≤ n ∧ n < twoTo 63 then some (Int64.ofInt n) else none

/-- An exponent as it is written: a sign and at least one digit. -/
structure Exponent where
  negative : Bool
  lead : Digit
  rest : List Digit
deriving DecidableEq

namespace Exponent

def value (e : Exponent) : Int :=
  let n := (Digit.value (e.lead :: e.rest) : Int)
  if e.negative then -n else n

def ofInt (i : Int) : Exponent :=
  match Digit.ofNat i.natAbs with
  | [] => ⟨false, Digit.zero, []⟩
  | d :: ds => ⟨decide (i < 0), d, ds⟩

def chars (e : Exponent) : List Char :=
  'e' :: (if e.negative then '-' else '+') :: Digit.chars (e.lead :: e.rest)

end Exponent

/-- A number as it is written. An empty `fraction` means that there is no fraction part. -/
structure Numeral where
  negative : Bool
  whole : Nat
  fraction : List Digit
  exponent : Option Exponent
deriving DecidableEq

namespace Numeral

def mantissaChars (n : Numeral) : List Char :=
  (if n.negative then ['-'] else []) ++ Digit.natChars n.whole ++
    (if n.fraction.isEmpty then [] else '.' :: Digit.chars n.fraction)

/-- The characters of a numeral. The exponent mark is a small `e` and its sign is always there. -/
def chars (n : Numeral) : List Char :=
  n.mantissaChars ++ (match n.exponent with | some e => e.chars | none => [])

def text (n : Numeral) : String := String.ofList n.chars

/-- True of a numeral with a fraction part or an exponent. -/
def isFractional (n : Numeral) : Bool := !n.fraction.isEmpty || n.exponent.isSome

/-- The digits before the exponent, read as one natural number. -/
def magnitude (n : Numeral) : Nat :=
  n.whole * tenTo n.fraction.length + Digit.value n.fraction

def coefficient (n : Numeral) : Int := if n.negative then -n.magnitude else n.magnitude

def power (n : Numeral) : Int :=
  (match n.exponent with | some e => e.value | none => 0) - n.fraction.length

def toInt64? (n : Numeral) : Option Int64 :=
  if n.isFractional then none else Int64.ofInt? n.coefficient

/-- The integer that a number is seen as: what fits 64 bits with or without a sign. A zero with a
minus sign is none. -/
def word? (n : Numeral) : Option Int :=
  if n.isFractional || (n.negative && n.whole == 0) then none
  else if -(twoTo 63 : Int) ≤ n.coefficient ∧ n.coefficient < twoTo 64 then some n.coefficient
  else none

/-! ## Reading

A failure is the rest of the text from the place where a digit is missing or one too many. -/

/-- Reads the whole part: one zero, or digits that do not start with zero. -/
def scanWhole (cs : List Char) : Except (List Char) (Nat × List Char) :=
  match Digit.span cs with
  | ([], _) => .error cs
  | ([d], rest) => .ok (d.val, rest)
  | (d :: ds, rest) =>
    if d = Digit.zero then .error (cs.drop 1) else .ok (Digit.value (d :: ds), rest)

def scanFraction : List Char → Except (List Char) (List Digit × List Char)
  | '.' :: cs =>
    match Digit.span cs with
    | ([], _) => .error cs
    | (ds, rest) => .ok (ds, rest)
  | cs => .ok ([], cs)

def scanSign : List Char → Bool × List Char
  | '-' :: cs => (true, cs)
  | '+' :: cs => (false, cs)
  | cs => (false, cs)

def scanExponent : List Char → Except (List Char) (Option Exponent × List Char)
  | [] => .ok (none, [])
  | c :: cs =>
    if c = 'e' ∨ c = 'E' then
      let (negative, digits) := scanSign cs
      match Digit.span digits with
      | ([], _) => .error digits
      | (d :: ds, rest) => .ok (some ⟨negative, d, ds⟩, rest)
    else .ok (none, c :: cs)

def scanMinus : List Char → Bool × List Char
  | '-' :: cs => (true, cs)
  | cs => (false, cs)

/-- Reads the longest numeral at the start of a text. -/
def scan (cs : List Char) : Except (List Char) (Numeral × List Char) := do
  let (negative, cs) := scanMinus cs
  let (whole, cs) ← scanWhole cs
  let (fraction, cs) ← scanFraction cs
  let (exponent, cs) ← scanExponent cs
  return (⟨negative, whole, fraction, exponent⟩, cs)

theorem scanWhole_length {cs rest : List Char} {n : Nat} (h : scanWhole cs = .ok (n, rest)) :
    rest.length < cs.length := by
  have hs := Digit.span_length cs
  unfold scanWhole at h
  split at h
  · cases h
  · rename_i d r hd
    simp only [hd, List.length_cons, List.length_nil] at hs
    cases h; omega
  · rename_i d ds r _ hd
    simp only [hd, List.length_cons] at hs
    split at h
    · cases h
    · cases h; omega

theorem scanFraction_length {cs rest : List Char} {ds : List Digit}
    (h : scanFraction cs = .ok (ds, rest)) : rest.length ≤ cs.length := by
  unfold scanFraction at h
  split at h
  · rename_i cs'
    have hs := Digit.span_length cs'
    split at h
    · cases h
    · rename_i ds' r _ hd
      simp only [hd] at hs
      cases h; simp only [List.length_cons]; omega
  · cases h; exact Nat.le_refl _

theorem scanSign_length (cs : List Char) : (scanSign cs).2.length ≤ cs.length := by
  unfold scanSign
  split <;> simp

theorem scanExponent_length {cs rest : List Char} {e : Option Exponent}
    (h : scanExponent cs = .ok (e, rest)) : rest.length ≤ cs.length := by
  unfold scanExponent at h
  split at h
  · cases h; exact Nat.le_refl _
  · rename_i c cs'
    have hg := scanSign_length cs'
    have hs := Digit.span_length (scanSign cs').2
    split at h
    · dsimp only at h
      split at h
      · cases h
      · rename_i d ds r hd
        simp only [hd, List.length_cons] at hs
        cases h; simp only [List.length_cons]; omega
    · cases h; exact Nat.le_refl _

theorem scanMinus_length (cs : List Char) : (scanMinus cs).2.length ≤ cs.length := by
  unfold scanMinus
  split <;> simp

theorem scan_length {cs rest : List Char} {n : Numeral} (h : scan cs = .ok (n, rest)) :
    rest.length < cs.length := by
  have hm := scanMinus_length cs
  simp only [scan, bind, Except.bind] at h
  split at h
  · cases h
  · rename_i w hw
    have hw' : w.2.length < _ := scanWhole_length hw
    split at h
    · cases h
    · rename_i f hf
      have hf' : f.2.length ≤ _ := scanFraction_length hf
      split at h
      · cases h
      · rename_i e he
        have he' : e.2.length ≤ _ := scanExponent_length he
        simp only [pure, Except.pure, Except.ok.injEq, Prod.mk.injEq] at h
        rw [← h.2]; omega

def ofChars? (cs : List Char) : Option Numeral :=
  match scan cs with
  | .ok (n, []) => some n
  | _ => none

def isBlank (c : Char) : Bool := c == ' ' || c == '\t' || c == '\n' || c == '\r'

def ofText? (s : String) : Option Numeral :=
  match scan (s.toList.dropWhile isBlank) with
  | .ok (n, rest) => if rest.all isBlank then some n else none
  | .error _ => none

def refusalText (s : String) : String := "'" ++ s ++ "' is not a JSON number literal"

end Numeral

end ShapeCodec
