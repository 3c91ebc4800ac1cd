import ShapeCodec.Json.Basic
import ShapeCodec.Json.Lexeme

/-! # Reading JSON

A text is read lexeme by lexeme. The state says what may come next and holds the open brackets,
each with what has been read in it, so that the path of a fault is at hand wherever it happens.
At most 127 brackets are open at a time. Data are gone through twice, first for keys that are
repeated and then for their values; documents keep their entries and numbers as they are written.
-/

namespace ShapeCodec

/-- An open bracket around the value that is being read, with the parts read before, last first. -/
inductive Frame
  | list (items : List Json)
  | map (entries : List (String × Json)) (key : String)

namespace Frame

def segment : Frame → Segment
  | list items => .index items.length
  | map _ key => .key key

/-- The path of the value that is read inside brackets, the innermost bracket first. -/
def path (context : List Frame) : Path := (context.map segment).reverse

end Frame

inductive ReadMode
  /-- A repeated key is refused, and an integer that fits 64 bits is an integer. -/
  | data
  /-- Repeated entries are kept, and an integer that fits 64 bits is an integer. -/
  | values
  /-- Repeated entries are kept, and every number is kept digit for digit. -/
  | document
deriving DecidableEq

def ReadMode.number : ReadMode → Numeral → Json
  | data, n => .ofNumeral n
  | values, n => .ofNumeral n
  | document, n => .number n

/-- What may come next. Parts of the innermost bracket are held last first. -/
inductive Reading
  /-- A value. -/
  | value (context : List Frame)
  /-- The first member of a list, or its end. -/
  | firstItem (context : List Frame)
  /-- A member of a list, behind a comma. -/
  | nextItem (items : List Json) (context : List Frame)
  /-- A comma or the end of a list. -/
  | afterItem (items : List Json) (context : List Frame)
  /-- The first key of a map, or its end. -/
  | firstKey (context : List Frame)
  /-- A key of a map, behind a comma. -/
  | nextKey (entries : List (String × Json)) (context : List Frame)
  /-- The colon behind a key. -/
  | colon (entries : List (String × Json)) (key : String) (context : List Frame)
  /-- A comma or the end of a map. -/
  | afterEntry (entries : List (String × Json)) (context : List Frame)
  /-- Nothing: the value is complete. -/
  | complete (json : Json)

structure ReadFault where
  cause : SyntaxCause
  path : Option Path
  place : Place

def ReadFault.toTextFault (text : List Char) (f : ReadFault) : TextFault :=
  ⟨f.cause, f.path, f.place.position text⟩

namespace Lexeme

/-- The place of an unexpected lexeme: behind its first byte. -/
def first (x : Lexeme) : Place := .onto x.start

def isQuoted (x : Lexeme) : Bool := x.start.head? == some '"'

end Lexeme

/-- The place where a map is given up behind a key: blanks that follow are passed over, and so is
the end of the map when it comes next. -/
def Place.leavingMap (rest : List Char) : Place :=
  match rest.dropWhile Numeral.isBlank with
  | '}' :: after => .before after
  | after => .before after

namespace Reading

def maxDepth : Nat := 127

def afterValue (json : Json) : List Frame → Reading
  | [] => .complete json
  | .list items :: context => .afterItem (json :: items) context
  | .map entries key :: context => .afterEntry ((key, json) :: entries) context

def stepValue (mode : ReadMode) (context : List Frame) (x : Lexeme) : Except ReadFault Reading :=
  let fault (cause : SyntaxCause) := Except.error ⟨cause, some (Frame.path context), x.first⟩
  match x.content with
  | .broken f => .error ⟨f.cause, some (Frame.path context), f.place⟩
  | .finish => fault .endInValue
  | .token .null => .ok (afterValue .null context)
  | .token (.bool b) => .ok (afterValue (.bool b) context)
  | .token (.number n) => .ok (afterValue (mode.number n) context)
  | .token (.str s) => .ok (afterValue (.str s) context)
  | .token .openList =>
    if context.length < maxDepth then .ok (.firstItem context) else fault .tooDeep
  | .token .openMap =>
    if context.length < maxDepth then .ok (.firstKey context) else fault .tooDeep
  | .token _ => fault .expectedValue

/-- Reads a key. In data it must differ from the keys before. -/
def stepKey (mode : ReadMode) (entries : List (String × Json)) (context : List Frame)
    (atEnd : SyntaxCause) (x : Lexeme) : Except ReadFault Reading :=
  let path := Frame.path context ++ [.unknown]
  match x.content with
  | .broken f =>
    if x.isQuoted then .error ⟨f.cause, some path, f.place⟩
    else .error ⟨.keyNotString, some path, x.first⟩
  | .finish => .error ⟨atEnd, some path, x.first⟩
  | .token (.str key) =>
    if mode = .data ∧ entries.any (·.1 == key) then
      .error ⟨.duplicateKey key, some (Frame.path context), .leavingMap x.rest⟩
    else .ok (.colon entries key context)
  | .token _ => .error ⟨.keyNotString, some path, x.first⟩

def step (mode : ReadMode) (state : Reading) (x : Lexeme) : Except ReadFault Reading :=
  match state with
  | .value context => stepValue mode context x
  | .firstItem context =>
    match x.content with
    | .token .closeList => .ok (afterValue (.list []) context)
    | .finish => .error ⟨.endInList, some (Frame.path context), x.first⟩
    | _ => stepValue mode (.list [] :: context) x
  | .nextItem items context =>
    match x.content with
    | .token .closeList => .error ⟨.trailingComma, some (Frame.path context), x.first⟩
    | .finish => .error ⟨.endInValue, some (Frame.path context), x.first⟩
    | _ => stepValue mode (.list items :: context) x
  | .afterItem items context =>
    match x.content with
    | .token .comma => .ok (.nextItem items context)
    | .token .closeList => .ok (afterValue (.list items.reverse) context)
    | .finish => .error ⟨.endInList, some (Frame.path context), x.first⟩
    | _ => .error ⟨.expectedListSeparator, some (Frame.path context), x.first⟩
  | .firstKey context =>
    match x.content with
    | .token .closeMap => .ok (afterValue (.map []) context)
    | _ => stepKey mode [] context .endInMap x
  | .nextKey entries context =>
    match x.content with
    | .token .closeMap =>
      .error ⟨.trailingComma, some (Frame.path context ++ [.unknown]), x.first⟩
    | _ => stepKey mode entries context .endInValue x
  | .colon entries key context =>
    match x.content with
    | .token .colon => .ok (.value (.map entries key :: context))
    | .finish => .error ⟨.endInMap, some (Frame.path context), x.first⟩
    | _ => .error ⟨.expectedColon, some (Frame.path context), x.first⟩
  | .afterEntry entries context =>
    let path := Frame.path context ++ [.unknown]
    match x.content with
    | .token .comma => .ok (.nextKey entries context)
    | .token .closeMap => .ok (afterValue (.map entries.reverse) context)
    | .finish => .error ⟨.endInMap, some path, x.first⟩
    | _ => .error ⟨.expectedMapSeparator, some path, x.first⟩
  | .complete _ => .error ⟨.trailingCharacters, none, x.first⟩

/-- Reads on from a state up to the end of the value, and returns it with the text behind it. The
last lexeme of a text is one that no step passes, so `cut` is not met with. -/
def walk {ε : Type} (step : Reading → Lexeme → Except ε Reading) (cut : ε) :
    Reading → List Char → List Lexeme → Except ε (Json × List Char)
  | .complete json, rest, _ => .ok (json, rest)
  | _, _, [] => .error cut
  | state, _, x :: xs =>
    match step state x with
    | .ok next => walk step cut next x.rest xs
    | .error f => .error f

/-- Reads the value that data begin with, and refuses keys that are repeated. -/
def readData (state : Reading) (cs : List Char) : Except ReadFault (Json × List Char) :=
  walk (step .data) ⟨.endInValue, none, .before []⟩ state cs (Lexeme.ofChars cs)

end Reading

/-- The first pass over a text: it looks for repeated keys, and stops behind the value. -/
def Json.checkKeys (cs : List Char) : Except TextFault Unit :=
  match Reading.readData (.value []) cs with
  | .ok _ => .ok ()
  | .error f => .error (f.toTextFault cs)

end ShapeCodec
