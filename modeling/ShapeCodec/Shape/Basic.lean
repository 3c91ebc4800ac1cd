import ShapeCodec.Value.Basic

/-! # Shapes

A shape describes the values that are meant at some place: a finite tree that the engines walk
together with a value or a JSON tree. Nothing is required of a shape when it is built; which shapes
are usable is the matter of their classification.
-/

namespace ShapeCodec

/-- A literal, matched by kind and value. -/
inductive Literal
  | none
  | bool (b : Bool)
  | int (i : Int64)
  | float (x : Binary64)
  | str (s : String)
deriving DecidableEq

def Literal.toValue : Literal → Value
  | none => .none
  | bool b => .bool b
  | int i => .int i
  | float x => .float x
  | str s => .str s

/-- A field of a record over shapes `σ`, with its default if it has one. -/
structure Field (σ : Type) where
  name : String
  shape : σ
  default? : Option Value

structure Key (σ : Type) where
  name : String
  shape : σ
  required : Bool

structure EnumMember where
  name : String
  value : Literal
deriving DecidableEq

/-- The kinds of mappings that a shape can ask for; `mapping` takes any map. -/
inductive MappingKind
  | dict
  | ordered
  | mapping
deriving DecidableEq

def MappingKind.built : MappingKind → MapKind
  | ordered => .ordered
  | _ => .dict

/-- Which kinds of maps a mapping shape takes. A dict shape takes an ordered one too. -/
def MappingKind.takes : MappingKind → MapKind → Bool
  | ordered, .dict => false
  | _, _ => true

inductive Shape
  | bool
  | int
  | float
  | str
  | none
  | ellipsis
  | any
  | decimal
  /-- A sequence of any length; the kind `tuple` is the uniform tuple. -/
  | sequence (kind : SequenceKind) (item : Shape)
  /-- A tuple with one shape for each member. -/
  | tuple (items : List Shape)
  | mapping (kind : MappingKind) (key value : Shape)
  /-- A value or nothing. -/
  | optional (inner : Shape)
  /-- The first branch that fits. -/
  | union (branches : List Shape)
  | literal (values : List Literal)
  | record (name : String) (fields : List (Field Shape))
  | enum (name : String) (members : List EnumMember)
  /-- A dict with declared string keys. -/
  | typedDict (name : String) (keys : List (Key Shape))

namespace Shape

def branches? : Shape → Option (List Shape)
  | optional inner => some [inner, none]
  | union branches => some branches
  | _ => Option.none

def mappingParts? : Shape → Option (Shape × Shape)
  | mapping _ key value => some (key, value)
  | _ => Option.none

end Shape

end ShapeCodec
