import ShapeCodec.Number.Digit
import ShapeCodec.Text.Unseen

/-! # Escaped texts

A text between double quotes in which every character can be told apart: quotes, backslashes and
the common controls have short escapes, other characters without a visible form are written by
their code points.
-/

namespace ShapeCodec

namespace Escaped

def hexOnto (n : Nat) (after : List Char) : List Char :=
  let d := n % 16
  let rest := (if d < 10 then Char.ofNat (48 + d) else Char.ofNat (87 + d)) :: after
  if n < 16 then rest else hexOnto (n / 16) rest

def escape (c : Char) : List Char :=
  match c with
  | '\x00' => ['\\', '0']
  | '\t' => ['\\', 't']
  | '\r' => ['\\', 'r']
  | '\n' => ['\\', 'n']
  | '"' => ['\\', '"']
  | '\\' => ['\\', '\\']
  | c => if isUnseen c then ['\\', 'u', '{'] ++ hexOnto c.toNat ['}'] else [c]

def text (s : String) : String := String.ofList ('"' :: s.toList.flatMap escape ++ ['"'])

end Escaped

end ShapeCodec
