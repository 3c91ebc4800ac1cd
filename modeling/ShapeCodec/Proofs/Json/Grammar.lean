import ShapeCodec.Json.Basic
import ShapeCodec.Proofs.Number.Grammar

/-! # The grammar of JSON

Each relation leads from the text that a piece starts at, over what it stands for, to the text
behind it. A character that is escaped by its code is a character, so a single surrogate spells
nothing. The grammar itself takes repeated keys and any depth.
-/

namespace ShapeCodec

namespace Grammar

inductive Blanks : List Char → List Char → Prop
  | refl (cs : List Char) : Blanks cs cs
  | cons {c : Char} {cs rest : List Char} (hc : c = ' ' ∨ c = '\t' ∨ c = '\n' ∨ c = '\r')
    (h : Blanks cs rest) : Blanks (c :: cs) rest

/-! ## Strings -/

def smallHexDigits : List Char :=
  ['0', '1', '2', '3', '4', '5', '6', '7', '8', '9', 'a', 'b', 'c', 'd', 'e', 'f']

def capitalHexDigits : List Char :=
  ['0', '1', '2', '3', '4', '5', '6', '7', '8', '9', 'A', 'B', 'C', 'D', 'E', 'F']

def HexDigit (c : Char) (n : Nat) : Prop :=
  smallHexDigits[n]? = some c ∨ capitalHexDigits[n]? = some c

inductive UnitText : List Char → Nat → List Char → Prop
  | mk {a b c d : Char} {k l m n : Nat} {rest : List Char} (ha : HexDigit a k) (hb : HexDigit b l)
    (hc : HexDigit c m) (hd : HexDigit d n) :
    UnitText (a :: b :: c :: d :: rest) (((k * 16 + l) * 16 + m) * 16 + n) rest

def letterEscapes : List (Char × Char) :=
  [('"', '"'), ('\\', '\\'), ('/', '/'), ('b', '\x08'), ('f', '\x0c'), ('n', '\n'), ('r', '\r'),
    ('t', '\t')]

/-- A character of a string: plain, behind a backslash, by its code, or by a pair of surrogates. -/
inductive CharText : List Char → Char → List Char → Prop
  | plain {c : Char} {rest : List Char} (hc : ' ' ≤ c) (hq : c ≠ '"') (hb : c ≠ '\\') :
    CharText (c :: rest) c rest
  | letter {l c : Char} {rest : List Char} (hl : (l, c) ∈ letterEscapes) :
    CharText ('\\' :: l :: rest) c rest
  | unit {c : Char} {cs rest : List Char} (hc : UnitText cs c.toNat rest) :
    CharText ('\\' :: 'u' :: cs) c rest
  | pair {c : Char} {lead trail : Nat} {cs mid rest : List Char}
    (hl : UnitText cs lead ('\\' :: 'u' :: mid)) (ht : UnitText mid trail rest)
    (lead_mem : 0xD800 ≤ lead ∧ lead ≤ 0xDBFF) (trail_mem : 0xDC00 ≤ trail ∧ trail ≤ 0xDFFF)
    (hc : c.toNat = 0x10000 + (lead - 0xD800) * 0x400 + (trail - 0xDC00)) :
    CharText ('\\' :: 'u' :: cs) c rest

/-- The characters of a string behind its opening quote, up to and with the closing one. -/
inductive StringText : List Char → List Char → List Char → Prop
  | close {rest : List Char} : StringText ('"' :: rest) [] rest
  | cons {c : Char} {cs mid s rest : List Char} (hc : CharText cs c mid)
    (hs : StringText mid s rest) : StringText cs (c :: s) rest

/-! ## Values -/

/-- Pieces of one kind with commas between them, up to and with a closing bracket. -/
inductive Separated {α : Type} (piece : List Char → α → List Char → Prop) (close : Char) :
    List Char → List α → List Char → Prop
  | last {x : α} {cs rest : List Char} (hx : piece cs x (close :: rest)) :
    Separated piece close cs [x] rest
  | next {x : α} {xs : List α} {cs mid rest : List Char} (hx : piece cs x (',' :: mid))
    (hxs : Separated piece close mid xs rest) : Separated piece close cs (x :: xs) rest

inductive Padded (value : List Char → Json → List Char → Prop) :
    List Char → Json → List Char → Prop
  | mk {j : Json} {cs start stop rest : List Char} (before : Blanks cs start)
    (hj : value start j stop) (after : Blanks stop rest) : Padded value cs j rest

inductive EntryText (value : List Char → Json → List Char → Prop) :
    List Char → String × Json → List Char → Prop
  | mk {j : Json} {cs start s stop colon rest : List Char} (before : Blanks cs ('"' :: start))
    (hs : StringText start s stop) (after : Blanks stop (':' :: colon))
    (hj : Padded value colon j rest) : EntryText value cs (String.ofList s, j) rest

/-- A JSON value. A number without fraction and exponent is an integer when it fits 64 bits. -/
inductive ValueText : List Char → Json → List Char → Prop
  | null {rest : List Char} : ValueText ('n' :: 'u' :: 'l' :: 'l' :: rest) .null rest
  | true {rest : List Char} : ValueText ('t' :: 'r' :: 'u' :: 'e' :: rest) (.bool true) rest
  | false {rest : List Char} :
    ValueText ('f' :: 'a' :: 'l' :: 's' :: 'e' :: rest) (.bool false) rest
  | int {i : Int64} {written kept rest : List Char} (h : NumberText written kept)
    (hi : IntegerText written i.toInt) : ValueText (written ++ rest) (.int i) rest
  | number {n : Numeral} {written rest : List Char} (h : NumberText written n.chars)
    (hn : ∀ i : Int64, ¬ IntegerText written i.toInt) :
    ValueText (written ++ rest) (.number n) rest
  | str {cs s rest : List Char} (hs : StringText cs s rest) :
    ValueText ('"' :: cs) (.str (String.ofList s)) rest
  | emptyList {cs rest : List Char} (h : Blanks cs (']' :: rest)) :
    ValueText ('[' :: cs) (.list []) rest
  | list {xs : List Json} {cs rest : List Char}
    (hxs : Separated (Padded ValueText) ']' cs xs rest) : ValueText ('[' :: cs) (.list xs) rest
  | emptyMap {cs rest : List Char} (h : Blanks cs ('}' :: rest)) :
    ValueText ('{' :: cs) (.map []) rest
  | map {es : List (String × Json)} {cs rest : List Char}
    (hes : Separated (EntryText ValueText) '}' cs es rest) : ValueText ('{' :: cs) (.map es) rest

/-! ## Integers -/

variable {n : Numeral} {written rest : List Char}

theorem ofNumeral_eq_int {i : Int64} (h : NumberText written n.chars)
    (hi : IntegerText written i.toInt) : Json.ofNumeral n = .int i := by
  rw [Json.ofNumeral, (toInt64?_eq_some_iff h).mpr hi]

theorem ofNumeral_eq_number (h : NumberText written n.chars)
    (hn : ∀ i : Int64, ¬ IntegerText written i.toInt) : Json.ofNumeral n = .number n := by
  have hnone : n.toInt64? = none := Option.eq_none_iff_forall_ne_some.mpr fun i hi =>
    hn i ((toInt64?_eq_some_iff h).mp hi)
  rw [Json.ofNumeral, hnone]

theorem valueText_ofNumeral (h : NumberText written n.chars) :
    ValueText (written ++ rest) (.ofNumeral n) rest := by
  by_cases hi : ∃ i : Int64, IntegerText written i.toInt
  · obtain ⟨i, hi⟩ := hi
    rw [ofNumeral_eq_int h hi]
    exact .int h hi
  · rw [ofNumeral_eq_number h (not_exists.mp hi)]
    exact .number h (not_exists.mp hi)

end Grammar

/-- The whole text is one JSON value, with white space around it. -/
def Json.SpelledBy (j : Json) (text : List Char) : Prop :=
  Grammar.Padded Grammar.ValueText text j []

end ShapeCodec
