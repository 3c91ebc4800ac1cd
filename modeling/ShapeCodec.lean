import ShapeCodec.Number.Power
import ShapeCodec.Number.Digit
import ShapeCodec.Number.Numeral
import ShapeCodec.Number.Binary64
import ShapeCodec.Number.Shortest
import ShapeCodec.Number.Decimal
import ShapeCodec.Json.Basic
import ShapeCodec.Json.Place
import ShapeCodec.Json.Fault
import ShapeCodec.Json.Lexeme
import ShapeCodec.Json.NumberMap
import ShapeCodec.Json.Parsing
import ShapeCodec.Json.Reading
import ShapeCodec.Json.Writing
import ShapeCodec.Value.Basic
import ShapeCodec.Value.Sameness
import ShapeCodec.Value.Hashing
import ShapeCodec.Value.Text
import ShapeCodec.Shape.Basic
import ShapeCodec.Shape.Text
import ShapeCodec.Log
import ShapeCodec.Settings
import ShapeCodec.Reason
import ShapeCodec.Conformance
import ShapeCodec.Classification
import ShapeCodec.Encoding
import ShapeCodec.Decoding
import ShapeCodec.Codec
import ShapeCodec.Text.Unseen
import ShapeCodec.Text.Escaped
import ShapeCodec.Document.Outline
import ShapeCodec.Document.Form
import ShapeCodec.Document.Reading
import ShapeCodec.Files.Access
import ShapeCodec.Files.Tree
import ShapeCodec.Files.Pattern
import ShapeCodec.Command.Request
import ShapeCodec.Command.Run
import ShapeCodec.Main
import ShapeCodec.Proofs.Lists
import ShapeCodec.Proofs.Results
import ShapeCodec.Proofs.Shape.Parts
import ShapeCodec.Proofs.Shape.Criteria
import ShapeCodec.Proofs.Shape.Occurrences
import ShapeCodec.Proofs.Conformance.Cases
import ShapeCodec.Proofs.Value.Parts
import ShapeCodec.Proofs.Value.Equivalence
import ShapeCodec.Proofs.Value.Hashing
import ShapeCodec.Proofs.Decoding.Parts
import ShapeCodec.Proofs.Gates
import ShapeCodec.Proofs.Decoding.Cases
import ShapeCodec.Proofs.Decoding.Soundness
import ShapeCodec.Proofs.Decoding.WellFormed
import ShapeCodec.Proofs.Decoding.Order
import ShapeCodec.Proofs.Decoding.Layouts
import ShapeCodec.Proofs.Decoding.Entries
import ShapeCodec.Proofs.Encoding.Cases
import ShapeCodec.Proofs.Encoding.Walk
import ShapeCodec.Proofs.Conformance.Immutable
import ShapeCodec.Proofs.Encoding.Failure
import ShapeCodec.Proofs.Number.Digits
import ShapeCodec.Proofs.Number.Numerals
import ShapeCodec.Proofs.Number.Grammar
import ShapeCodec.Proofs.Number.Rounding
import ShapeCodec.Proofs.Number.Shortest
import ShapeCodec.Proofs.Number.Widening
import ShapeCodec.Proofs.Number.Written
import ShapeCodec.Proofs.Number.Normal
import ShapeCodec.Proofs.Number.Nearest
import ShapeCodec.Proofs.Number.Exact
import ShapeCodec.Proofs.Json.NumberMaps
import ShapeCodec.Proofs.Json.Parts
import ShapeCodec.Proofs.Json.Passes
import ShapeCodec.Proofs.Json.Reordered
import ShapeCodec.Proofs.Json.Grammar
import ShapeCodec.Proofs.Json.Strings
import ShapeCodec.Proofs.Json.Lexemes
import ShapeCodec.Proofs.Json.Reading
import ShapeCodec.Proofs.Json.Complete
import ShapeCodec.Proofs.Json.Sound
import ShapeCodec.Proofs.Json.Writing
import ShapeCodec.Proofs.Decoding.Integers
import ShapeCodec.Proofs.Decoding.Literals
import ShapeCodec.Proofs.Conformance.Sameness
import ShapeCodec.Proofs.Json.Unambiguous
import ShapeCodec.Proofs.Json.Keys
import ShapeCodec.Proofs.Json.Duplicates
import ShapeCodec.Proofs.RoundTrip.Exact
import ShapeCodec.Proofs.RoundTrip.Passage
import ShapeCodec.Proofs.RoundTrip.Plain
import ShapeCodec.Proofs.RoundTrip.Collections
import ShapeCodec.Proofs.RoundTrip.Mappings
import ShapeCodec.Proofs.RoundTrip.Records
import ShapeCodec.Proofs.RoundTrip.Tidy
import ShapeCodec.Proofs.RoundTrip.Branches
import ShapeCodec.Proofs.RoundTrip.Depth
import ShapeCodec.Proofs.RoundTrip.Decodes
import ShapeCodec.Proofs.RoundTrip.Descent
import ShapeCodec.Proofs.RoundTrip.Whole
import ShapeCodec.Proofs.RoundTrip.Loading
import ShapeCodec.Proofs.RoundTrip.Choice
import ShapeCodec.Proofs.RoundTrip.Collisions
import ShapeCodec.Proofs.RoundTrip.Alike
import ShapeCodec.Proofs.RoundTrip.Spelling
import ShapeCodec.Proofs.RoundTrip.Strict
import ShapeCodec.Proofs.RoundTrip.DirectKeys
import ShapeCodec.Proofs.Rewriting.Congruence
import ShapeCodec.Proofs.Rewriting.Flattening
import ShapeCodec.Proofs.Switches.Scope
import ShapeCodec.Proofs.Switches.KeyTexts
import ShapeCodec.Proofs.Switches.Representation
import ShapeCodec.Proofs.Diagnostics.Logging
import ShapeCodec.Proofs.Diagnostics.Conformance
import ShapeCodec.Proofs.Diagnostics.Checking
import ShapeCodec.Proofs.Diagnostics.Judging
import ShapeCodec.Proofs.Diagnostics.Steps
import ShapeCodec.Proofs.Diagnostics.Decoding
import ShapeCodec.Proofs.Diagnostics.Verdicts
import ShapeCodec.Proofs.Diagnostics.Encodability
import ShapeCodec.Proofs.Diagnostics.Checkability
import ShapeCodec.Proofs.Diagnostics.Members
import ShapeCodec.Proofs.Switches.Casting
import ShapeCodec.Proofs.Command.Arguments
import ShapeCodec.Proofs.Command.Loading
import ShapeCodec.Proofs.Document.Defaults
