import ShapeCodec.Value.Basic
import ShapeCodec.Number.Shortest

/-! # The text of a value

Values as they are shown in messages. Strings stand between single quotes and are not escaped.
-/

namespace ShapeCodec

def commaText (texts : List String) : String := ", ".intercalate texts

def quoted (s : String) : String := "'" ++ s ++ "'"

namespace Value

mutual

def text : Value → String
  | none => "None"
  | ellipsis => "Ellipsis"
  | bool true => "True"
  | bool false => "False"
  | int i => Digit.intText i.toInt
  | float x => x.text
  | decimal d => "Decimal('" ++ d.text ++ "')"
  | str s => quoted s
  | sequence .list xs => "[" ++ commaText (itemTexts xs) ++ "]"
  | sequence .deque xs => "deque([" ++ commaText (itemTexts xs) ++ "])"
  | sequence .set xs => "\x7b" ++ commaText (itemTexts xs) ++ "\x7d"
  | sequence .frozenSet xs => "frozenset(\x7b" ++ commaText (itemTexts xs) ++ "\x7d)"
  | sequence .tuple [x] => "(" ++ x.text ++ ",)"
  | sequence .tuple xs => "(" ++ commaText (itemTexts xs) ++ ")"
  | map .dict es => "\x7b" ++ commaText (entryTexts es) ++ "\x7d"
  | map .ordered es => "OrderedDict(\x7b" ++ commaText (entryTexts es) ++ "\x7d)"
  | record name fs => name ++ "(" ++ commaText (fieldTexts fs) ++ ")"
  | member enum name => enum ++ "." ++ name

def itemTexts : List Value → List String
  | [] => []
  | x :: xs => x.text :: itemTexts xs

def entryTexts : List (Value × Value) → List String
  | [] => []
  | (k, v) :: es => (k.text ++ ": " ++ v.text) :: entryTexts es

def fieldTexts : List (String × Value) → List String
  | [] => []
  | (n, v) :: fs => (n ++ "=" ++ v.text) :: fieldTexts fs

end

end Value

end ShapeCodec
