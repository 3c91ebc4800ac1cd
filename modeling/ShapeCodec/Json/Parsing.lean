import ShapeCodec.Json.NumberMap
import ShapeCodec.Json.Reading

/-! # Reading JSON for its value

A text is gone through twice. The first pass looks for repeated keys, and the second one takes the
value, with numbers in the place of the maps that stand for them.
-/

namespace ShapeCodec

inductive ParseFault
  | inText (fault : LexicalFault)
  /-- A fault of a string that is to spell a number, with its position in that string. -/
  | inNumber (fault : TextFault)

def ParseFault.toTextFault (text : List Char) : ParseFault → TextFault
  | inText f => ⟨f.cause, none, f.place.position text⟩
  | inNumber f => f

namespace Reading

def stepNumberText (context : List Frame) (x : Lexeme) : Except ParseFault Reading :=
  match x.content with
  | .token (.str s) =>
    match Numeral.readString s with
    | .ok n => .ok (.afterEntry [(Json.numberKey, .ofNumeral n)] context)
    | .error f => .error (.inNumber f)
  | .broken f => .error (.inText f)
  | .finish => .error (.inText ⟨.endInValue, x.first⟩)
  | .token _ =>
    match x.otherKind? with
    | some (found, place) => .error (.inText ⟨.notNumberText found, place⟩)
    | none => .error (.inText ⟨.expectedValue, x.first⟩)

def stepNumberEnd (number : Json) (context : List Frame) (x : Lexeme) :
    Except ParseFault Reading :=
  match x.content with
  | .token .closeMap => .ok (afterValue number context)
  | .token .comma => .error (.inText ⟨.trailingComma, x.first⟩)
  | .finish => .error (.inText ⟨.endInMap, x.first⟩)
  | _ => .error (.inText ⟨.trailingCharacters, x.first⟩)

/-- Reads one lexeme as it is in all maps that stand for no number. -/
def stepPlain (state : Reading) (x : Lexeme) : Except ParseFault Reading :=
  (step .values state x).mapError fun f => .inText ⟨f.cause, f.place⟩

def stepParse (state : Reading) (x : Lexeme) : Except ParseFault Reading :=
  match state with
  | .value (.map [] key :: context) =>
    if key = Json.numberKey then stepNumberText context x else stepPlain state x
  | .afterEntry [(key, number)] context =>
    if key = Json.numberKey then stepNumberEnd number context x else stepPlain state x
  | state => stepPlain state x

def readValue (state : Reading) (cs : List Char) : Except ParseFault (Json × List Char) :=
  walk stepParse (.inText ⟨.endInValue, .before []⟩) state cs (Lexeme.ofChars cs)

end Reading

namespace Json

/-- A value that nothing but blanks may stand behind. -/
def finish (text : List Char) (json : Json) (rest : List Char) : Except TextFault Json :=
  match rest.dropWhile Numeral.isBlank with
  | [] => .ok json
  | after => .error ⟨.trailingCharacters, none, (Place.onto after).position text⟩

/-- The second pass over a text: it takes the value. -/
def parse (cs : List Char) : Except TextFault Json :=
  match Reading.readValue (.value []) cs with
  | .ok (json, rest) => finish cs json.merged rest
  | .error f => .error (f.toTextFault cs)

/-- Reads a JSON text. -/
def read (text : String) : Except TextFault Json := do
  checkKeys text.toList
  parse text.toList

end Json

end ShapeCodec
