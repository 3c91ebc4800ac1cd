import ShapeCodec.Value.Sameness

/-! # Values in hash tables

A table looks for a member or a key by what it feeds to a hasher, and compares it only with those it
meets there. Sets and maps feed their size and no more, since their order does not count.
-/

namespace ShapeCodec

inductive Chunk
  | kind (number : Nat)
  | flag (b : Bool)
  | int (i : Int64)
  | word (n : Nat)
  | size (n : Nat)
  | text (s : String)
deriving DecidableEq

/-- How hash tables work: what the numbers other than integers feed, and whether a search for what
feeds the first data meets an entry that feeds the second. -/
structure Hashing where
  float : Binary64 → List Chunk
  decimal : Decimal → List Chunk
  meets : List Chunk → List Chunk → Bool

namespace Value

def kindNumber : Value → Nat
  | none => 0
  | ellipsis => 1
  | bool _ => 2
  | int _ => 3
  | float _ => 4
  | decimal _ => 5
  | str _ => 6
  | sequence .list _ => 7
  | sequence .deque _ => 8
  | sequence .set _ => 9
  | sequence .frozenSet _ => 10
  | sequence .tuple _ => 11
  | map .dict _ => 12
  | map .ordered _ => 13
  | record _ _ => 14
  | member _ _ => 15

variable (h : Hashing)

mutual

/-- What a value feeds after the number of its kind. -/
def contentFeed : Value → List Chunk
  | none => []
  | ellipsis => []
  | bool b => [.flag b]
  | int i => [.int i]
  | float x => h.float x
  | decimal d => h.decimal d
  | str s => [.text s]
  | sequence k xs => .size xs.length :: if k.isSet then [] else itemsFeed xs
  | map _ es => [.size es.length]
  | record n fs => .text n :: .size fs.length :: fieldsFeed fs
  | member e n => [.text e, .text n]

def itemsFeed : List Value → List Chunk
  | [] => []
  | x :: xs => .kind x.kindNumber :: contentFeed x ++ itemsFeed xs

def fieldsFeed : List (String × Value) → List Chunk
  | [] => []
  | (n, v) :: fs => .text n :: .kind v.kindNumber :: contentFeed v ++ fieldsFeed fs

end

/-- What a value feeds to a hasher. -/
def feed (v : Value) : List Chunk := .kind v.kindNumber :: v.contentFeed h

mutual

/-- Sameness of two values when sets and maps are hash tables. -/
def tableSame : Value → Value → Bool
  | none, none => true
  | ellipsis, ellipsis => true
  | bool a, bool b => a == b
  | int a, int b => a == b
  | float a, float b => a.same b
  | decimal a, decimal b => a.same b
  | str a, str b => a == b
  | sequence k xs, sequence l ys =>
    k == l && (if k.isSet then xs.length == ys.length && tableWithin xs ys else tableItems xs ys)
  | map k xs, map l ys => k == l && xs.length == ys.length && tableEntries xs ys
  | record m xs, record n ys => m == n && tableFields xs ys
  | member e m, member f n => e == f && m == n
  | _, _ => false

def tableItems : List Value → List Value → Bool
  | [], [] => true
  | x :: xs, y :: ys => tableSame x y && tableItems xs ys
  | _, _ => false

/-- Each member of the list is found in the table. -/
def tableWithin : List Value → List Value → Bool
  | [], _ => true
  | x :: xs, ys =>
    ys.any (fun y => h.meets (x.feed h) (y.feed h) && tableSame x y) && tableWithin xs ys

def tableEntries : List (Value × Value) → List (Value × Value) → Bool
  | [], _ => true
  | (k, v) :: xs, ys =>
    (ys.find? fun e => h.meets (k.feed h) (e.1.feed h) && tableSame k e.1).any
      (fun e => tableSame v e.2) && tableEntries xs ys

def tableFields : List (String × Value) → List (String × Value) → Bool
  | [], [] => true
  | (m, v) :: xs, (n, w) :: ys => m == n && tableSame v w && tableFields xs ys
  | _, _ => false

end

def tableHas (members : List Value) (v : Value) : Bool :=
  members.any fun m => h.meets (v.feed h) (m.feed h) && v.tableSame h m

def tableFind? (entries : List (Value × Value)) (key : Value) : Option (Value × Value) :=
  entries.find? fun e => h.meets (key.feed h) (e.1.feed h) && key.tableSame h e.1

end Value

end ShapeCodec
