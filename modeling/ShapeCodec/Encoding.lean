import ShapeCodec.Classification
import ShapeCodec.Number.Shortest

/-! # Encoding

From a value and a shape to a JSON tree. Value and shape are walked together, and the order of the
value is kept. Keys of maps become texts, and no two keys of one map may become the same text.
-/

namespace ShapeCodec

namespace Shape

def encodeFloat (x : Binary64) : Except Reason Json :=
  match x.toNumeral? with
  | some n => .ok (.number n)
  | Option.none => .error (.infiniteFloat x)

def encodeLiteral : Literal → Except Reason Json
  | .none => .ok .null
  | .bool b => .ok (.bool b)
  | .int i => .ok (.int i)
  | .float x => encodeFloat x
  | .str s => .ok (.str s)

/-- The text of a key that has been encoded. -/
def keyText (shape : Shape) (key : Value) (encoded : Json) : Except Reason String :=
  match shape.keyForm with
  | .stringified => .ok encoded.write
  | .direct =>
    match encoded.scalarText? with
    | some text => .ok text
    | Option.none => .error (.compoundKey key shape)

/-- Encodes the entries of the map `whole`, given how keys and values are encoded. The entries
`done` have been encoded before, the last one first. -/
def encodeEntries (whole : List (Value × Value)) (key : Value → Except Reason String)
    (value : Value → Except Reason Json) (done : List (String × Json)) :
    List (Value × Value) → Except Reason (List (String × Json))
  | [] => .ok done.reverse
  | (k, v) :: es => do
    let text ← key k
    let json ← value v
    if done.any (·.1 == text) then throw (.collidingKeys whole text)
    else encodeEntries whole key value ((text, json) :: done) es

mutual

/-- Encodes a value that conforms to a shape. A value that does not is refused where that shows. -/
def encodeValue (o : Settings) : Shape → Value → Except Reason Json
  | any, v => .error (.notInstance v any)
  | bool, v => match v with
    | .bool b => .ok (.bool b)
    | _ => .error (.notInstance v bool)
  | int, v => match v with
    | .int i => .ok (.int i)
    | .decimal d => match d.toInt64? with
      | some i => .ok (.int i)
      | Option.none => .error (.notInstance v int)
    | _ => .error (.notInstance v int)
  | float, v => match v with
    | .int i => .ok (.int i)
    | .float x => encodeFloat x
    | .decimal d => .ok (.number d.toNumeral)
    | _ => .error (.notInstance v float)
  | str, v => match v with
    | .str s => .ok (.str s)
    | _ => .error (.notInstance v str)
  | none, _ => .ok .null
  | ellipsis, _ => .ok .null
  | decimal, v => match v with
    | .decimal d => .ok (if o.decimalsAsNumbers then .number d.toNumeral else .str d.text)
    | _ => .error (.notInstance v decimal)
  | sequence k s, v => match v with
    | .sequence _ xs => (xs.mapM (encodeValue o s)).map .list
    | _ => .error (.notInstance v (sequence k s))
  | tuple ss, v => match v with
    | .sequence .tuple xs =>
      if xs.length = ss.length then (encodeItems o ss xs).map .list
      else .error (.notInstance v (tuple ss))
    | _ => .error (.notInstance v (tuple ss))
  | mapping k key value, v => match v with
    | .map _ es =>
      (encodeEntries es (fun x => encodeValue o key x >>= keyText key x) (encodeValue o value) []
        es).map .map
    | _ => .error (.notInstance v (mapping k key value))
  | optional s, v =>
    if conforms o s v then encodeValue o s v
    else match v with
      | .none => .ok .null
      | _ => .error (.notInstance v (optional s))
  | union ss, v => encodeBranch o (union ss) ss v
  | literal ls, v =>
    match ls.find? (·.fits v) with
    | some l => encodeLiteral l
    | Option.none => .error (.notInstance v (literal ls))
  | record name fs, v => match v with
    | .record _ vs =>
      (encodeFields o fs vs).map fun es =>
        if o.recordsAsLists then .list (es.map (·.2)) else .map es
    | _ => .error (.notInstance v (record name fs))
  | enum name ms, v => match v with
    | .member e m => if e = name then .ok (.str m) else .error (.notInstance v (enum name ms))
    | _ => .error (.notInstance v (enum name ms))
  | typedDict name ks, v => match v with
    | .map _ es => (encodeKeys o ks es).map .map
    | _ => .error (.notInstance v (typedDict name ks))

def encodeItems (o : Settings) : List Shape → List Value → Except Reason (List Json)
  | s :: ss, x :: xs => do
    let j ← encodeValue o s x
    let js ← encodeItems o ss xs
    return j :: js
  | _, _ => .ok []

/-- Encodes a value by the first branch that it conforms to. -/
def encodeBranch (o : Settings) (whole : Shape) : List Shape → Value → Except Reason Json
  | [], v => .error (.notInstance v whole)
  | s :: ss, v => if conforms o s v then encodeValue o s v else encodeBranch o whole ss v

def encodeFields (o : Settings) :
    List (Field Shape) → List (String × Value) → Except Reason (List (String × Json))
  | f :: fs, (name, v) :: vs => do
    let j ← encodeValue o f.shape v
    let js ← encodeFields o fs vs
    return (name, j) :: js
  | _, _ => .ok []

/-- Encodes the entries of a typed dict, in the order in which its keys are declared. -/
def encodeKeys (o : Settings) :
    List (Key Shape) → List (Value × Value) → Except Reason (List (String × Json))
  | [], _ => .ok []
  | k :: ks, es =>
    match Value.lookup? es (.str k.name) with
    | some v => do
      let j ← encodeValue o k.shape v
      let js ← encodeKeys o ks es
      return (k.name, j) :: js
    | Option.none => encodeKeys o ks es

end

end Shape

end ShapeCodec
