import ShapeCodec.Number.Binary64

/-! # The shortest decimal text of a floating-point number

A finite value is written with the fewest significant digits that read back as the same value,
and of those with the digits nearest to it. Magnitudes from `10 ^ (-4)` up to but not including
`10 ^ 16` are positional with at least one fraction digit; the others have an exponent.
-/

namespace ShapeCodec

namespace Binary64

/-- The position of the decimal point: the `k` with `10 ^ (k - 1) ≤ value < 10 ^ k`. -/
def decimalPoint (units : Nat) : Int :=
  if twoTo 1074 ≤ units then (Digit.ofNat (units / twoTo 1074)).length
  else 1 - (Digit.ofNat ((twoTo 1074 - 1) / units)).length

/-- The two neighbours of the value among the multiples of `10 ^ power`, tested for reading back:
the one that does, of two the nearer, the upper one when they are equally near. -/
def neighbour? (units : Nat) (power : Int) : Option Nat :=
  let n := if 0 ≤ power then units else units * tenTo (-power).toNat
  let d := if 0 ≤ power then twoTo 1074 * tenTo power.toNat else twoTo 1074
  let low := n / d
  let readsBack (m : Nat) : Bool := nearestUnits m power == units
  match readsBack low, readsBack (low + 1) with
  | true, true => if 2 * (n % d) < d then some low else some (low + 1)
  | true, false => some low
  | false, true => some (low + 1)
  | false, false => none

/-- The shortest digits from `count` significant digits on, trying `more` further lengths. -/
def searchDigits (units : Nat) (point : Int) : Nat → Nat → Nat × Int
  | _, 0 => (0, 0)
  | count, more + 1 =>
    match neighbour? units (point - count) with
    | some m => (m, point - count)
    | none => searchDigits units point (count + 1) more

/-- The shortest decimal form `m * 10 ^ e` of a positive number of units. -/
def shortest (units : Nat) : Nat × Int := searchDigits units (decimalPoint units) 1 17

/-- The digits of a number without the zeros at their end, and how many those were. -/
def trimZeros (ds : List Digit) : List Digit × Nat :=
  let zeros := ds.reverse.takeWhile (· == Digit.zero)
  ((ds.reverse.dropWhile (· == Digit.zero)).reverse, zeros.length)

/-- Lays digits out around a decimal point that stands after `point` of them. -/
def layout (negative : Bool) (digits : List Digit) (point : Int) : Numeral :=
  if -3 ≤ point ∧ point ≤ 0 then
    ⟨negative, 0, List.replicate (-point).toNat Digit.zero ++ digits, none⟩
  else if 0 < point ∧ point ≤ 16 then
    let p := point.toNat
    let whole := Digit.value (digits.take p ++ List.replicate (p - digits.length) Digit.zero)
    ⟨negative, whole, if digits.length ≤ p then [Digit.zero] else digits.drop p, none⟩
  else
    match digits with
    | [] => ⟨negative, 0, [Digit.zero], none⟩
    | d :: ds => ⟨negative, d.val, ds, some (.ofInt (point - 1))⟩

/-- The shortest numeral of a finite value. It has a fraction or an exponent, so that it never
reads as an integer. -/
def finiteNumeral (negative : Bool) (units : Nat) : Numeral :=
  if units = 0 then ⟨negative, 0, [Digit.zero], none⟩
  else
    let (m, e) := shortest units
    let ds := Digit.ofNat m
    layout negative (trimZeros ds).1 (ds.length + e)

def toNumeral? : Binary64 → Option Numeral
  | finite negative units _ => some (finiteNumeral negative units)
  | _ => none

/-- The display text of a value: its shortest numeral without the plus sign of the exponent, or
`NaN`, `inf` and `-inf`. -/
def text : Binary64 → String
  | nan => "NaN"
  | infinite false => "inf"
  | infinite true => "-inf"
  | finite negative units _ =>
    String.ofList ((finiteNumeral negative units).chars.filter (· != '+'))

end Binary64

end ShapeCodec
