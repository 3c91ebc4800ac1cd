import ShapeCodec.Classification
import ShapeCodec.Json.Parsing

/-! # Decoding

From a JSON tree and a shape to a value. A failure carries the reasons of every part that does not
decode, the innermost first, and the line of the whole last. Unions take the first branch that
decodes, sets drop members that are there already, and maps refuse equal keys.
-/

namespace ShapeCodec

/-! ## Numbers -/

/-- The integer that a JSON value stands for. A number with a fraction or an exponent counts under
decimal casting, when its fraction is zero. -/
def Json.toInt64 (o : Settings) : Json → Except Obstacle Int64
  | .int i => .ok i
  | .number n =>
    if !n.isFractional then
      match n.toInt64? with
      | some i => .ok i
      | none => .error (.integerRange n)
    else if !o.castDecimal then .error (.castInt n)
    else
      match Decimal.ofNumeral? n with
      | none => .error (.inexact n.text)
      | some d =>
        if !d.isWhole then .error (.fraction n)
        else
          match d.toInt64? with
          | some i => .ok i
          | none => .error (.integerFit n)
  | json => .error (.found json)

def Json.toBinary64 (o : Settings) : Json → Except Obstacle Binary64
  | .int i => .ok (.ofInt i.toInt)
  | .number n =>
    if o.castDecimal then
      match n.toBinary64? with
      | some x => .ok x
      | none => .error (.floatRange n)
    else .error (.castFloat n)
  | json => .error (.found json)

/-- The decimal that a JSON value stands for, exactly. A string is read as a bare numeral. -/
def Json.toDecimal : Json → Except Obstacle Decimal
  | .int i => .ok (.ofInt64 i)
  | .number n =>
    match Decimal.ofNumeral? n with
    | some d => .ok d
    | none => .error (.inexact n.text)
  | .str s =>
    match Numeral.ofChars? s.toList with
    | some n =>
      match Decimal.ofNumeral? n with
      | some d => .ok d
      | none => .error (.inexact s)
    | none => .error (.notNumber s)
  | json => .error (.found json)

/-- True when a JSON value is exactly what a literal stands for. -/
def Literal.accepts (l : Literal) (json : Json) : Bool :=
  match l, json with
  | .none, .null => true
  | .bool a, .bool b => a == b
  | .int a, .int b => a == b
  | .float a, .number n => n.toBinary64?.any (·.same a)
  | .str a, .str b => a == b
  | _, _ => false

namespace Shape

/-! ## Results of the parts -/

/-- A value, or the reasons why there is none. -/
abbrev Decoded (α : Type) := Except (List Reason) α

def reasonsOf {α : Type} : Decoded α → List Reason
  | .ok _ => []
  | .error rs => rs

def values {ε α : Type} (parts : List (Except ε α)) : List α :=
  parts.filterMap fun p => match p with
    | .ok v => some v
    | .error _ => Option.none

def errors {ε α : Type} (parts : List (Except ε α)) : List ε :=
  parts.filterMap fun p => match p with
    | .ok _ => Option.none
    | .error e => some e

/-- The positions of the parts that do not decode, counted from `start`. -/
def failedPositions {ε α : Type} (start : Nat) : List (Except ε α) → List Nat
  | [] => []
  | .ok _ :: parts => failedPositions (start + 1) parts
  | .error _ :: parts => start :: failedPositions (start + 1) parts

def line (s : Shape) (json : Json) (why : Obstacle) : List Reason := [.undecodable json s why]

def ofScalar (s : Shape) (json : Json) (result : Except Obstacle Value) : Decoded Value :=
  result.mapError (line s json)

def ofMembers (s : Shape) (json : Json) (kind : SequenceKind) (parts : List (Decoded Value)) :
    Decoded Value :=
  match errors parts with
  | [] => .ok (.ofItems kind (values parts))
  | e :: es => .error ((e :: es).flatten ++ line s json (.members (es.length + 1) parts.length))

def ofPositions (s : Shape) (json : Json) (parts : List (Decoded Value)) : Decoded Value :=
  match errors parts with
  | [] => .ok (.sequence .tuple (values parts))
  | es => .error (es.flatten ++ line s json (.positions (failedPositions 0 parts)))

/-- A part of a record or typed dict: what it holds, or its reasons and its problem. -/
abbrev Slot (α : Type) := Except (List Reason × Problem) α

/-- The result of a record or typed dict, from those of its parts. Problems known before the parts
were looked at come first. -/
def ofSlots {α : Type} (s : Shape) (json : Json) (before after : List Problem)
    (slots : List (Slot α)) (build : List α → Value) : Decoded Value :=
  match before ++ (errors slots).map (·.2) ++ after with
  | [] => .ok (build (values slots))
  | problems =>
    .error ((errors slots).flatMap (·.1) ++ line s json (.problems problems))

/-- The JSON values that the text of a direct key may stand for. -/
def keyCandidates (s : Shape) (text : String) : List Json :=
  let read : List Json :=
    match s with
    | str => []
    | enum _ _ => []
    | _ =>
      match Json.read text with
      | .ok json => if json.scalarText?.isSome then [json] else []
      | .error _ => []
  read ++ [.str text]

/-- The first candidate that decodes, or else the reasons of the first of them. -/
def firstDecoded (decode : Json → Decoded Value) : List Json → Decoded Value
  | [] => .error []
  | c :: cs =>
    match decode c with
    | .ok v => .ok v
    | .error rs =>
      match cs.findSome? fun c => (decode c).toOption with
      | some v => .ok v
      | Option.none => .error rs

def decodeKeyText (s : Shape) (decode : Json → Decoded Value) (text : String) : Decoded Value :=
  match s.keyForm with
  | .direct => firstDecoded decode (keyCandidates s text)
  | .stringified =>
    match Json.read text with
    | .ok json => decode json
    | .error fault => .error [.unreadableKey text s fault]

/-- Decodes the entries of a map one after the other, given how keys and values decode. What has
been decoded, the texts that failed and the reasons so far are carried along. The first key that is
there already ends it. -/
def decodeEntries (key : String → Decoded Value) (value : Json → Decoded Value)
    (done : List (Value × Value)) (failed : List String) (log : List Reason) :
    List (String × Json) → Except (List Reason × Obstacle) (List (Value × Value))
  | [] => if failed.isEmpty then .ok done else .error (log, .entries failed)
  | (text, json) :: rest =>
    match key text, value json with
    | .ok k, .ok v =>
      if Value.hasKey done k then .error (log, .collision k)
      else decodeEntries key value (done ++ [(k, v)]) failed log rest
    | k, v =>
      decodeEntries key value done (failed ++ [text]) (log ++ reasonsOf k ++ reasonsOf v) rest

def ofEntries (s : Shape) (json : Json) (kind : MapKind)
    (result : Except (List Reason × Obstacle) (List (Value × Value))) : Decoded Value :=
  match result with
  | .ok es => .ok (.map kind es)
  | .error (log, why) => .error (log ++ line s json why)

/-- The least number of members of a list that can be a record: up to the last field without a
default. -/
def leastFields (fs : List (Field Shape)) : Nat :=
  (fs.reverse.dropWhile (·.default?.isSome)).length

def fieldsOfMap (fs : List (Field Shape)) (es : List (String × Json)) : List (Option Json) :=
  fs.map fun f => (es.find? (·.1 == f.name)).map (·.2)

def fieldsOfList (fs : List (Field Shape)) (xs : List Json) : List (Option Json) :=
  xs.map some ++ List.replicate (fs.length - xs.length) Option.none

/-! ## Decoding -/

mutual

/-- Decodes a JSON tree under a shape. -/
def decodeJson (o : Settings) : Shape → Json → Decoded Value
  | any, j => .error (line any j .anyShape)
  | bool, j => ofScalar bool j <| match j with
    | .bool b => .ok (.bool b)
    | _ => .error (.found j)
  | int, j => ofScalar int j ((j.toInt64 o).map .int)
  | float, j => ofScalar float j ((j.toBinary64 o).map .float)
  | str, j => ofScalar str j <| match j with
    | .str s => .ok (.str s)
    | _ => .error (.found j)
  | none, j => ofScalar none j <| match j with
    | .null => .ok .none
    | _ => .error (.found j)
  | ellipsis, j => ofScalar ellipsis j <| match j with
    | .null => .ok .ellipsis
    | _ => .error (.found j)
  | decimal, j => ofScalar decimal j (j.toDecimal.map .decimal)
  | sequence k s, j => match j with
    | .list xs => ofMembers (sequence k s) j k (xs.map (decodeJson o s))
    | _ => .error (line (sequence k s) j (.found j))
  | tuple ss, j => match j with
    | .list xs =>
      if xs.length = ss.length then ofPositions (tuple ss) j (decodeItems o ss xs)
      else .error (line (tuple ss) j (.arity xs.length ss.length))
    | _ => .error (line (tuple ss) j (.found j))
  | mapping k key value, j => match j with
    | .map es =>
      ofEntries (mapping k key value) j k.built
        (decodeEntries (decodeKeyText key (decodeJson o key)) (decodeJson o value) [] [] [] es)
    | _ => .error (line (mapping k key value) j (.found j))
  | optional s, j =>
    match decodeJson o s j with
    | .ok v => .ok v
    | .error rs =>
      match j with
      | .null => .ok .none
      | _ => .error (rs ++ line none j (.found j) ++ line (optional s) j .noBranch)
  | union ss, j =>
    match decodeBranch o ss j with
    | .ok v => .ok v
    | .error rs => .error (rs ++ line (union ss) j .noBranch)
  | literal ls, j => ofScalar (literal ls) j <| match ls.find? (·.accepts j) with
    | some l => .ok l.toValue
    | Option.none => .error .noLiteral
  | record name fs, j => match j with
    | .map es =>
      ofSlots (record name fs) j
        ((es.filter fun e => !fs.any (·.name == e.1)).map fun e => .unexpectedField e.1) []
        (decodeFields o fs (fieldsOfMap fs es)) (.record name)
    | .list xs =>
      if xs.length < leastFields fs || fs.length < xs.length then
        .error (line (record name fs) j (.recordLength xs.length (leastFields fs) fs.length))
      else
        ofSlots (record name fs) j [] [] (decodeFields o fs (fieldsOfList fs xs)) (.record name)
    | _ => .error (line (record name fs) j (.found j))
  | enum name ms, j => ofScalar (enum name ms) j <| match j with
    | .str s => if ms.any (·.name == s) then .ok (.member name s) else .error (.notMember s name)
    | _ => .error (.found j)
  | typedDict name ks, j => match j with
    | .map es =>
      ofSlots (typedDict name ks) j []
        ((ks.filter fun k => k.required && !es.any (·.1 == k.name)).map fun k => .missingKey k.name)
        (es.map fun e => (decodeKey o ks e.1 e.2).map fun v => (Value.str e.1, v)) (.map .dict)
    | _ => .error (line (typedDict name ks) j (.found j))

def decodeItems (o : Settings) : List Shape → List Json → List (Decoded Value)
  | s :: ss, j :: js => decodeJson o s j :: decodeItems o ss js
  | _, _ => []

/-- Decodes by the first branch that can, or collects what all of them have to say. -/
def decodeBranch (o : Settings) : List Shape → Json → Decoded Value
  | [], _ => .error []
  | s :: ss, j =>
    match decodeJson o s j with
    | .ok v => .ok v
    | .error rs =>
      match decodeBranch o ss j with
      | .ok v => .ok v
      | .error rest => .error (rs ++ rest)

/-- Decodes the fields of a record from what is given for each of them. A field that is left out
takes its default. -/
def decodeFields (o : Settings) :
    List (Field Shape) → List (Option Json) → List (Slot (String × Value))
  | f :: fs, given :: rest =>
    (match given, f.default? with
      | some j, _ =>
        match decodeJson o f.shape j with
        | .ok v => .ok (f.name, v)
        | .error rs => .error (rs, .failedField f.name)
      | Option.none, some v => .ok (f.name, v)
      | Option.none, Option.none => .error ([], .missingField f.name)) :: decodeFields o fs rest
  | _, _ => []

def decodeKey (o : Settings) : List (Key Shape) → String → Json → Slot Value
  | [], name, _ => .error ([], .unexpectedKey name)
  | k :: ks, name, j =>
    if k.name = name then (decodeJson o k.shape j).mapError fun rs => (rs, .failedKey name)
    else decodeKey o ks name j

end

end Shape

end ShapeCodec
