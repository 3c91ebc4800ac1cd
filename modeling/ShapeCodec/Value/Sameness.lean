import ShapeCodec.Value.Basic

/-! # Sameness of values

When two values count as one: members of a set, keys of a map, results of a round trip. Values of
different kinds are never the same. Sets and maps are compared without regard to order, decimals by
their number and floating-point numbers with one zero and one not-a-number.
-/

namespace ShapeCodec

namespace Value

mutual

/-- Sameness of two values. -/
def same : Value → Value → Bool
  | none, none => true
  | ellipsis, ellipsis => true
  | bool a, bool b => a == b
  | int a, int b => a == b
  | float a, float b => a.same b
  | decimal a, decimal b => a.same b
  | str a, str b => a == b
  | sequence k xs, sequence l ys =>
    k == l && (if k.isSet then xs.length == ys.length && sameWithin xs ys else sameItems xs ys)
  | map k xs, map l ys => k == l && xs.length == ys.length && sameEntries xs ys
  | record m xs, record n ys => m == n && sameFields xs ys
  | member e m, member f n => e == f && m == n
  | _, _ => false

def sameItems : List Value → List Value → Bool
  | [], [] => true
  | x :: xs, y :: ys => x.same y && sameItems xs ys
  | _, _ => false

/-- Each member of the first list is the same as some member of the second. -/
def sameWithin : List Value → List Value → Bool
  | [], _ => true
  | x :: xs, ys => ys.any x.same && sameWithin xs ys

/-- Each entry of the first list is the same as some entry of the second, in key and value. -/
def sameEntries : List (Value × Value) → List (Value × Value) → Bool
  | [], _ => true
  | (k, v) :: xs, ys => ys.any (fun e => k.same e.1 && v.same e.2) && sameEntries xs ys

def sameFields : List (String × Value) → List (String × Value) → Bool
  | [], [] => true
  | (m, v) :: xs, (n, w) :: ys => m == n && v.same w && sameFields xs ys
  | _, _ => false

end

/-- Adds a member to a set, unless the same one is there. -/
def insert (members : List Value) (v : Value) : List Value :=
  if members.any v.same then members else members ++ [v]

/-- The members of a list, each of them once, in the order in which they first come. -/
def distinct (items : List Value) : List Value := items.foldl insert []

def ofItems (kind : SequenceKind) (items : List Value) : Value :=
  sequence kind (if kind.isSet then distinct items else items)

def hasKey (entries : List (Value × Value)) (key : Value) : Bool :=
  entries.any (fun e => key.same e.1)

def lookup? (entries : List (Value × Value)) (key : Value) : Option Value :=
  (entries.find? (fun e => key.same e.1)).map (·.2)

/-- Sets the value of a key: the same key that is there stays and keeps its place, a new one comes
last. -/
def put (entries : List (Value × Value)) (key value : Value) : List (Value × Value) :=
  match entries with
  | [] => [(key, value)]
  | (k, v) :: rest => if key.same k then (k, value) :: rest else (k, v) :: put rest key value

def ofEntries (kind : MapKind) (entries : List (Value × Value)) : Value :=
  map kind (entries.foldl (fun done e => put done e.1 e.2) [])

end Value

end ShapeCodec
