/-! # Powers of two and ten

The sizes of number formats are powers of two, the places of decimal digits powers of ten.
-/

namespace ShapeCodec

/-- The power function of the natural numbers, named by its instances: there are others once an
algebra library is at hand. -/
abbrev natPower (base n : Nat) : Nat :=
  @HPow.hPow Nat Nat Nat (@instHPow Nat Nat (@instPowNat Nat instNatPowNat)) base n

abbrev twoTo (n : Nat) : Nat := natPower 2 n

abbrev tenTo (n : Nat) : Nat := natPower 10 n

end ShapeCodec
