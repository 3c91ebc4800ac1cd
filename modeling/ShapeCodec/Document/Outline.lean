import ShapeCodec.Codec
import ShapeCodec.Number.Binary64

/-! # Outlines

What a document says about a shape before its literals and defaults are looked at: the tree of the
shape with JSON in their places, numbers as they are written. The literals must be scalars within
range, and a default is what its JSON decodes to under the shape of its field.
-/

namespace ShapeCodec

/-- A field of a record as a document has it, with the JSON of its default. -/
structure FieldOutline (σ : Type) where
  name : String
  shape : σ
  default? : Option Json

structure MemberOutline where
  name : String
  value : Json

inductive Outline
  /-- A shape without parts. -/
  | plain (shape : Shape)
  | sequence (kind : SequenceKind) (item : Outline)
  | tuple (items : List Outline)
  | mapping (kind : MappingKind) (key value : Outline)
  | optional (inner : Outline)
  | union (branches : List Outline)
  | literal (values : List Json)
  | record (name : String) (fields : List (FieldOutline Outline))
  | enum (name : String) (members : List MemberOutline)
  | typedDict (name : String) (keys : List (Key Outline))

inductive ContentFault
  | literalRange (n : Numeral)
  | literalKind (json : Json)
  | badDefault (field record : String) (failure : Failure)

def ContentFault.message : ContentFault → String
  | literalRange n => "literal number " ++ n.text ++ " is out of range"
  | literalKind json => "literal values must be JSON scalars, found " ++ json.merged.write
  | badDefault field record failure =>
    "default for field " ++ quoted field ++ " of record " ++ record ++ ": " ++ failure.message

/-- The literal that a JSON value stands for. A number is a 64-bit integer if it can be, and else
the float nearest to it. -/
def Literal.ofJson : Json → Except ContentFault Literal
  | .null => .ok .none
  | .bool b => .ok (.bool b)
  | .int i => .ok (.int i)
  | .number n =>
    match n.toInt64?, n.toBinary64? with
    | some i, _ => .ok (.int i)
    | Option.none, some x => .ok (.float x)
    | Option.none, Option.none => .error (.literalRange n)
  | .str s => .ok (.str s)
  | .list xs => .error (.literalKind (.list xs))
  | .map es => .error (.literalKind (.map es))

def Field.readDefault (record field : String) (shape : Shape) :
    Option Json → Except ContentFault (Option Value)
  | none => .ok none
  | some json =>
    match decode Settings.standard shape json.merged.withIntegers with
    | .ok v => .ok (some v)
    | .error failure => .error (.badDefault field record failure)

def EnumMember.ofOutlines (ms : List MemberOutline) : Except ContentFault (List EnumMember) :=
  ms.mapM fun m => (Literal.ofJson m.value).map fun l => ⟨m.name, l⟩

namespace Outline

mutual

def toShape : Outline → Except ContentFault Shape
  | plain s => .ok s
  | sequence k s => (toShape s).map (.sequence k)
  | tuple ss => (toShapes ss).map .tuple
  | mapping k key value => do
    let key ← toShape key
    let value ← toShape value
    return .mapping k key value
  | optional s => (toShape s).map .optional
  | union ss => (toShapes ss).map .union
  | literal js => (js.mapM Literal.ofJson).map .literal
  | record name fs => (toFields name fs).map (.record name)
  | enum name ms => (EnumMember.ofOutlines ms).map (.enum name)
  | typedDict name ks => (toKeys ks).map (.typedDict name)

def toShapes : List Outline → Except ContentFault (List Shape)
  | [] => .ok []
  | s :: ss => do
    let s ← toShape s
    let ss ← toShapes ss
    return s :: ss

def toFields (record : String) :
    List (FieldOutline Outline) → Except ContentFault (List (Field Shape))
  | [] => .ok []
  | f :: fs => do
    let s ← toShape f.shape
    let d ← Field.readDefault record f.name s f.default?
    let fs ← toFields record fs
    return ⟨f.name, s, d⟩ :: fs

def toKeys : List (Key Outline) → Except ContentFault (List (Key Shape))
  | [] => .ok []
  | k :: ks => do
    let s ← toShape k.shape
    let ks ← toKeys ks
    return ⟨k.name, s, k.required⟩ :: ks

end

end Outline

end ShapeCodec
