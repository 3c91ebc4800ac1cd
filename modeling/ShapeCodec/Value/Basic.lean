import ShapeCodec.Number.Binary64
import ShapeCodec.Number.Decimal

/-! # Values

Typed values in memory. Sets and maps keep the order in which their members came in.
-/

namespace ShapeCodec

inductive SequenceKind
  | list
  | deque
  | set
  | frozenSet
  | tuple
deriving DecidableEq

/-- True of the kinds that hold equal members once and ignore their order. -/
def SequenceKind.isSet : SequenceKind → Bool
  | set => true
  | frozenSet => true
  | _ => false

inductive MapKind
  | dict
  | ordered
deriving DecidableEq

inductive Value
  | none
  | ellipsis
  | bool (b : Bool)
  | int (i : Int64)
  | float (x : Binary64)
  | decimal (d : Decimal)
  | str (s : String)
  | sequence (kind : SequenceKind) (items : List Value)
  | map (kind : MapKind) (entries : List (Value × Value))
  | record (name : String) (fields : List (String × Value))
  | member (enum : String) (name : String)

namespace Value

def kind : Value → String
  | none => "None"
  | ellipsis => "ellipsis"
  | bool _ => "bool"
  | int _ => "int"
  | float _ => "float"
  | decimal _ => "Decimal"
  | str _ => "str"
  | sequence .list _ => "list"
  | sequence .deque _ => "deque"
  | sequence .set _ => "set"
  | sequence .frozenSet _ => "frozenset"
  | sequence .tuple _ => "tuple"
  | map .dict _ => "dict"
  | map .ordered _ => "OrderedDict"
  | record _ _ => "record"
  | member _ _ => "enum"

/-- The value of a field of a record, the first of that name. -/
def field? : Value → String → Option Value
  | record _ fields, name => (fields.find? (·.1 == name)).map (·.2)
  | _, _ => Option.none

end Value

end ShapeCodec
