import ShapeCodec.Number.Numeral

/-! # JSON trees

The tree that a JSON text stands for. In data an integer that fits 64 bits is an integer, and every
other number keeps its digits as they are written. The entries of a map keep their order.
-/

namespace ShapeCodec

inductive Json
  | null
  | bool (b : Bool)
  | int (i : Int64)
  | number (n : Numeral)
  | str (s : String)
  | list (items : List Json)
  | map (entries : List (String × Json))

namespace Json

def kind : Json → String
  | null => "null"
  | bool _ => "boolean"
  | int _ => "integer"
  | number _ => "decimal number"
  | str _ => "string"
  | list _ => "list"
  | map _ => "map"

def ofNumeral (n : Numeral) : Json :=
  match n.toInt64? with
  | some i => int i
  | none => number n

def boolName (b : Bool) : String := if b then "boolean `true`" else "boolean `false`"

def integerName (i : Int) : String := "integer `" ++ Digit.intText i ++ "`"

/-- The text of a scalar that stands for it as a map key. -/
def scalarText? : Json → Option String
  | null => some "null"
  | bool true => some "true"
  | bool false => some "false"
  | int i => some (Digit.intText i.toInt)
  | number n => some n.text
  | str s => some s
  | list _ => none
  | map _ => none

/-- Sets the value of a key: a key that is there keeps its place, a new one comes last. -/
def put (entries : List (String × Json)) (key : String) (value : Json) : List (String × Json) :=
  match entries with
  | [] => [(key, value)]
  | (k, v) :: rest => if k = key then (k, value) :: rest else (k, v) :: put rest key value

/-- The entries of a list without repeated keys, the last value at the first place. -/
def collect (entries : List (String × Json)) : List (String × Json) :=
  entries.foldl (fun done e => put done e.1 e.2) []

mutual

/-- A tree in which each repeated key holds only its last value, at its first place. -/
def merged : Json → Json
  | list items => list (mergedItems items)
  | map entries => map (collect (mergedEntries entries))
  | json => json

def mergedItems : List Json → List Json
  | [] => []
  | x :: xs => x.merged :: mergedItems xs

def mergedEntries : List (String × Json) → List (String × Json)
  | [] => []
  | (k, x) :: rest => (k, x.merged) :: mergedEntries rest

end

mutual

/-- A tree in which every number that fits is a 64-bit integer. -/
def withIntegers : Json → Json
  | number n => ofNumeral n
  | list items => list (withIntegersItems items)
  | map entries => map (withIntegersEntries entries)
  | json => json

def withIntegersItems : List Json → List Json
  | [] => []
  | x :: xs => x.withIntegers :: withIntegersItems xs

def withIntegersEntries : List (String × Json) → List (String × Json)
  | [] => []
  | (k, x) :: rest => (k, x.withIntegers) :: withIntegersEntries rest

end

end Json

end ShapeCodec
