import ShapeCodec.Json.Basic
import ShapeCodec.Json.Fault

/-! # Maps that stand for numbers

A map whose first key is `Json.numberKey` is taken for the number that the string behind that key
spells, and nothing else may stand in the map. A fault in the digits of such a string is placed by
the string alone.
-/

namespace ShapeCodec

namespace Numeral

/-- The place of a character that no number has there, in a string that is to spell one. Behind a
sign and behind the mark of an exponent the character is passed before the place is taken. -/
def misplaced (digits rest : List Char) : Place :=
  match (digits.take (digits.length - rest.length)).getLast? with
  | some c =>
    if c = '-' ∨ c = '+' ∨ c = 'e' ∨ c = 'E' then (Place.skipBytes? 2 rest).getD (.onto rest)
    else .onto rest
  | none => .onto rest

def readChars (digits : List Char) : Except LexicalFault Numeral :=
  match scan digits with
  | .ok (n, []) => .ok n
  | .ok (_, rest) => .error ⟨.invalidNumber, .onto rest⟩
  | .error [] => .error ⟨.endInValue, .before []⟩
  | .error rest => .error ⟨.invalidNumber, misplaced digits rest⟩

/-- Reads the numeral that a string spells, and counts the position of a fault in that string. -/
def readString (s : String) : Except TextFault Numeral :=
  (readChars s.toList).mapError fun f => ⟨f.cause, none, f.place.position s.toList⟩

end Numeral

namespace Json

/-- The first key of a map that stands for a number. -/
def numberKey : String := "$serde_json::private::Number"

inductive NumberMapFault
  /-- Its first value is no string. -/
  | notText (value : Json)
  /-- Its first value is a string that spells no number. -/
  | notNumber (fault : TextFault)
  /-- There are entries behind the first one. -/
  | tooLong (length : Nat)

def spelledNumber (value : Json) (more : List (String × Json)) : Except NumberMapFault Numeral :=
  match value with
  | str s =>
    match Numeral.readString s with
    | .ok n => if more.isEmpty then .ok n else .error (.tooLong (more.length + 1))
    | .error f => .error (.notNumber f)
  | value => .error (.notText value)

/-- The number that a map stands for, if its first key says that it stands for one. -/
def numberOf? : List (String × Json) → Option (Except NumberMapFault Numeral)
  | [] => none
  | (key, value) :: more => if key = numberKey then some (spelledNumber value more) else none

mutual

/-- A tree with numbers in the place of the maps that stand for them. -/
def resolve (number : Numeral → Json) : Json → Except NumberMapFault Json
  | list items => (resolveItems number items).map list
  | map entries =>
    match numberOf? entries with
    | some n => n.map number
    | none => (resolveEntries number entries).map map
  | json => .ok json

def resolveItems (number : Numeral → Json) : List Json → Except NumberMapFault (List Json)
  | [] => .ok []
  | x :: xs => do
    let y ← x.resolve number
    let ys ← resolveItems number xs
    return y :: ys

def resolveEntries (number : Numeral → Json) :
    List (String × Json) → Except NumberMapFault (List (String × Json))
  | [] => .ok []
  | (k, x) :: rest => do
    let y ← x.resolve number
    let ys ← resolveEntries number rest
    return (k, y) :: ys

end

end Json

end ShapeCodec
