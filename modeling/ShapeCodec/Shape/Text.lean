import ShapeCodec.Shape.Basic
import ShapeCodec.Value.Text

/-! # The text of a shape

Shapes are shown as type annotations: `List[int]`, `Optional[str]`, `Tuple[int, ...]`. Records,
enums and typed dicts are shown by their names.
-/

namespace ShapeCodec

def Literal.text (l : Literal) : String := l.toValue.text

namespace Shape

mutual

def text : Shape → String
  | bool => "bool"
  | int => "int"
  | float => "float"
  | str => "str"
  | none => "None"
  | ellipsis => "..."
  | any => "Any"
  | decimal => "Decimal"
  | sequence .list s => "List[" ++ s.text ++ "]"
  | sequence .deque s => "Deque[" ++ s.text ++ "]"
  | sequence .set s => "Set[" ++ s.text ++ "]"
  | sequence .frozenSet s => "FrozenSet[" ++ s.text ++ "]"
  | sequence .tuple s => "Tuple[" ++ s.text ++ ", ...]"
  | tuple ss => "Tuple[" ++ commaText (texts ss) ++ "]"
  | mapping .dict k v => "Dict[" ++ k.text ++ ", " ++ v.text ++ "]"
  | mapping .ordered k v => "OrderedDict[" ++ k.text ++ ", " ++ v.text ++ "]"
  | mapping .mapping k v => "Mapping[" ++ k.text ++ ", " ++ v.text ++ "]"
  | optional s => "Optional[" ++ s.text ++ "]"
  | union ss => "Union[" ++ commaText (texts ss) ++ "]"
  | literal ls => "Literal[" ++ commaText (ls.map Literal.text) ++ "]"
  | record name _ => name
  | enum name _ => name
  | typedDict name _ => name

def texts : List Shape → List String
  | [] => []
  | s :: ss => s.text :: texts ss

end

end Shape

end ShapeCodec
