import ShapeCodec.Json.Basic

/-! # Writing JSON

The compact form has no white space. The spread form puts each member on a line of its own, two
spaces deeper than its bracket, and a space behind each colon; empty brackets stay closed.
-/

namespace ShapeCodec

namespace Json

def hexChar (n : Nat) : Char :=
  if n < 10 then Char.ofNat (48 + n) else Char.ofNat (87 + n)

/-- A character as it is written in a string. Only quotes, backslashes and control characters are
escaped. -/
def escape (c : Char) : List Char :=
  match c with
  | '"' => ['\\', '"']
  | '\\' => ['\\', '\\']
  | '\x08' => ['\\', 'b']
  | '\x0c' => ['\\', 'f']
  | '\n' => ['\\', 'n']
  | '\r' => ['\\', 'r']
  | '\t' => ['\\', 't']
  | c =>
    if c < ' ' then ['\\', 'u', '0', '0', hexChar (c.toNat / 16), hexChar (c.toNat % 16)]
    else [c]

def quote (s : String) : List Char := '"' :: s.toList.flatMap escape ++ ['"']

mutual

def chars : Json → List Char
  | null => ['n', 'u', 'l', 'l']
  | bool true => ['t', 'r', 'u', 'e']
  | bool false => ['f', 'a', 'l', 's', 'e']
  | int i => Digit.intChars i.toInt
  | number n => n.chars
  | str s => quote s
  | list [] => ['[', ']']
  | list (x :: xs) => '[' :: (x.chars ++ charsItems xs)
  | map [] => ['{', '}']
  | map ((k, x) :: rest) => '{' :: (quote k ++ ':' :: (x.chars ++ charsEntries rest))

/-- The members of a list behind its first one, and its end. -/
def charsItems : List Json → List Char
  | [] => [']']
  | x :: xs => ',' :: (x.chars ++ charsItems xs)

def charsEntries : List (String × Json) → List Char
  | [] => ['}']
  | (k, x) :: rest => ',' :: (quote k ++ ':' :: (x.chars ++ charsEntries rest))

end

def newLine (depth : Nat) : List Char := '\n' :: List.replicate (2 * depth) ' '

mutual

/-- The characters of the spread form, inside a number of brackets. -/
def spreadChars (depth : Nat) : Json → List Char
  | null => ['n', 'u', 'l', 'l']
  | bool true => ['t', 'r', 'u', 'e']
  | bool false => ['f', 'a', 'l', 's', 'e']
  | int i => Digit.intChars i.toInt
  | number n => n.chars
  | str s => quote s
  | list [] => ['[', ']']
  | list (x :: xs) =>
    '[' :: (newLine (depth + 1) ++ x.spreadChars (depth + 1) ++ spreadItems depth xs)
  | map [] => ['{', '}']
  | map ((k, x) :: rest) =>
    '{' :: (newLine (depth + 1) ++ quote k ++ ':' :: ' ' ::
      (x.spreadChars (depth + 1) ++ spreadEntries depth rest))

def spreadItems (depth : Nat) : List Json → List Char
  | [] => newLine depth ++ [']']
  | x :: xs =>
    ',' :: (newLine (depth + 1) ++ x.spreadChars (depth + 1) ++ spreadItems depth xs)

def spreadEntries (depth : Nat) : List (String × Json) → List Char
  | [] => newLine depth ++ ['}']
  | (k, x) :: rest =>
    ',' :: (newLine (depth + 1) ++ quote k ++ ':' :: ' ' ::
      (x.spreadChars (depth + 1) ++ spreadEntries depth rest))

end

/-- The compact text of a value. -/
def write (json : Json) : String := String.ofList json.chars

/-- The spread text of a value. -/
def writeSpread (json : Json) : String := String.ofList (json.spreadChars 0)

end Json

end ShapeCodec
