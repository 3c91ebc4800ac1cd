import ShapeCodec.Json.Place

/-! # Faults of JSON texts

What can be wrong with a JSON text, where, and in which part of the document.
-/

namespace ShapeCodec

inductive SyntaxCause
  | endInValue
  | endInList
  | endInMap
  | endInString
  | expectedValue
  | expectedWord
  | invalidNumber
  | expectedColon
  | expectedListSeparator
  | expectedMapSeparator
  | trailingComma
  | keyNotString
  | controlCharacter
  | invalidEscape
  | loneSurrogate
  | endInEscape
  | tooDeep
  | duplicateKey (key : String)
  | trailingCharacters
  /-- What stands in the place of the text of a number. -/
  | notNumberText (found : String)

def SyntaxCause.message : SyntaxCause → String
  | endInValue => "EOF while parsing a value"
  | endInList => "EOF while parsing a list"
  | endInMap => "EOF while parsing an object"
  | endInString => "EOF while parsing a string"
  | expectedValue => "expected value"
  | expectedWord => "expected ident"
  | invalidNumber => "invalid number"
  | expectedColon => "expected `:`"
  | expectedListSeparator => "expected `,` or `]`"
  | expectedMapSeparator => "expected `,` or `\x7d`"
  | trailingComma => "trailing comma"
  | keyNotString => "key must be a string"
  | controlCharacter => "control character (\\u0000-\\u001F) found while parsing a string"
  | invalidEscape => "invalid escape"
  | loneSurrogate => "lone leading surrogate in hex escape"
  | endInEscape => "unexpected end of hex escape"
  | tooDeep => "recursion limit exceeded"
  | duplicateKey key => "duplicate key '" ++ key ++ "'"
  | trailingCharacters => "trailing characters"
  | notNumberText found => "invalid type: " ++ found ++ ", expected string containing a number"

/-- A step from a value to one of its parts; `unknown` stands for the key that is being read. -/
inductive Segment
  | index (i : Nat)
  | key (k : String)
  | unknown

abbrev Path := List Segment

namespace Path

def tailText : Path → String
  | [] => ""
  | .index i :: rest => "[" ++ Digit.natText i ++ "]" ++ tailText rest
  | .key k :: rest => "." ++ k ++ tailText rest
  | .unknown :: rest => "." ++ "?" ++ tailText rest

/-- The text of a path: list positions in brackets, names joined by dots, a dot for the root. -/
def text : Path → String
  | [] => "."
  | .index i :: rest => "[" ++ Digit.natText i ++ "]" ++ tailText rest
  | .key k :: rest => k ++ tailText rest
  | .unknown :: rest => "?" ++ tailText rest

end Path

/-- A fault of the text alone, before it is known in which part of the document it lies. -/
structure LexicalFault where
  cause : SyntaxCause
  place : Place

/-- A fault of a JSON text. There is no path when the document itself was complete. -/
structure TextFault where
  cause : SyntaxCause
  path : Option Path
  position : Position

def Position.suffix (p : Position) : String :=
  " at line " ++ Digit.natText p.line ++ " column " ++ Digit.natText p.column

def Path.intro (p : Path) : String := "at JSON path " ++ p.text ++ " → "

def TextFault.message (f : TextFault) : String :=
  (match f.path with | some p => p.intro | none => "") ++ f.cause.message ++ f.position.suffix

end ShapeCodec
