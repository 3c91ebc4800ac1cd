import ShapeCodec.Decoding
import ShapeCodec.Encoding

/-! # The codec

The calls for users: each one first asks whether the shape is fit for it.
-/

namespace ShapeCodec

/-- Whether a value is an instance of a checkable shape. -/
def isInstance (o : Settings) (s : Shape) (v : Value) : Except Failure (Verdict Reason) := do
  s.ensure .checkable
  return ⟨s.conforms o v, ⟨s.complaints o v⟩⟩

/-- Encodes a value under an encodable shape that it is an instance of. -/
def encode (o : Settings) (s : Shape) (v : Value) : Except Failure Json := do
  s.ensure .encodable
  if s.conforms o v then (s.encodeValue o v).mapError fun r => .conformance ⟨[r]⟩
  else throw (.conformance ⟨s.complaints o v⟩)

/-- Decodes a JSON tree under an encodable shape. -/
def decode (o : Settings) (s : Shape) (j : Json) : Except Failure Value := do
  s.ensure .encodable
  (s.decodeJson o j).mapError fun rs => .conformance ⟨rs⟩

/-- Encodes a value and writes the result as compact text. -/
def dump (o : Settings) (s : Shape) (v : Value) : Except Failure String :=
  (encode o s v).map Json.write

/-- Reads a text and decodes it. The text is read before the shape is looked at. -/
def load (o : Settings) (s : Shape) (text : String) : Except Failure Value := do
  let json ← (Json.read text).mapError .syntaxFault
  decode o s json

end ShapeCodec
