import ShapeCodec.Number.Numeral

/-! # Places in a text

A place in a text is given by what follows it. Lines count from one and columns count the bytes
of the UTF-8 form since the last line feed.
-/

namespace ShapeCodec

structure Position where
  line : Nat
  column : Nat
deriving DecidableEq

namespace Position

def start : Position := ⟨1, 0⟩

def advance (p : Position) (c : Char) : Position :=
  if c = '\n' then ⟨p.line + 1, 0⟩ else ⟨p.line, p.column + c.utf8Size⟩

def after (cs : List Char) : Position := cs.foldl advance start

end Position

/-- A place in a text: the text that follows, and a number of bytes of its first character that
the place lies behind. -/
structure Place where
  rest : List Char
  bytes : Nat

namespace Place

def before (rest : List Char) : Place := ⟨rest, 0⟩

def onto (rest : List Char) : Place := ⟨rest, 1⟩

/-- The place a number of bytes into a text, unless the text is shorter. -/
def skipBytes? : Nat → List Char → Option Place
  | 0, rest => some ⟨rest, 0⟩
  | _ + 1, [] => none
  | n + 1, c :: cs =>
    if c.utf8Size ≤ n + 1 then skipBytes? (n + 1 - c.utf8Size) cs else some ⟨c :: cs, n + 1⟩
termination_by _ cs => cs.length

def position (text : List Char) (place : Place) : Position :=
  let p := Position.after (text.take (text.length - place.rest.length))
  match place.bytes, place.rest with
  | 0, _ => p
  | _ + 1, [] => p
  | n + 1, c :: _ => if c = '\n' then ⟨p.line + 1, 0⟩ else ⟨p.line, p.column + (n + 1)⟩

end Place

end ShapeCodec
