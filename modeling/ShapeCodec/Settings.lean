/-! # Settings

The switches of one call to an engine.
-/

namespace ShapeCodec

structure Settings where
  /-- Decimal numbers may stand for integers, when their fraction is zero, and for floats. -/
  castDecimal : Bool := true
  /-- Decimals are encoded as numbers instead of strings. -/
  decimalsAsNumbers : Bool := false
  /-- Records are encoded as lists instead of maps. -/
  recordsAsLists : Bool := false
deriving DecidableEq

namespace Settings

def standard : Settings := {}

def strict (s : Settings) : Settings := { s with castDecimal := false }

end Settings

end ShapeCodec
