import ShapeCodec.Json.Basic
import ShapeCodec.Json.Fault

/-! # Lexemes of a JSON text

A text is cut into lexemes: brackets, separators, words, numerals and strings. Each keeps the text
from its first character on and the text that follows it. The sequence ends with the end of the
text or with the first lexeme that is broken.
-/

namespace ShapeCodec

inductive Token
  | openList
  | closeList
  | openMap
  | closeMap
  | comma
  | colon
  | null
  | bool (b : Bool)
  | number (n : Numeral)
  | str (s : String)

inductive Content
  | token (t : Token)
  /-- A value or key that is cut off or misspelled. -/
  | broken (fault : LexicalFault)
  | finish

/-- A piece of a text, with the text from its first character on and the text behind it. -/
structure Lexeme where
  content : Content
  start : List Char
  rest : List Char

namespace Lexeme

/-- How a message names a value that begins where a string is asked for, and the place that it
gives: behind a scalar, and before a bracket. -/
def otherKind? (x : Lexeme) : Option (String × Place) :=
  match x.content with
  | .token .null => some ("null", .before x.rest)
  | .token (.bool b) => some (Json.boolName b, .before x.rest)
  | .token (.number n) =>
    match n.word? with
    | some i => some (Json.integerName i, .before x.rest)
    | none => some ("number", .before x.rest)
  | .token .openList => some ("sequence", .before x.start)
  | .token .openMap => some ("map", .before x.start)
  | _ => none

def hexValue? (c : Char) : Option Nat :=
  if '0' ≤ c ∧ c ≤ '9' then some (c.toNat - '0'.toNat)
  else if 'a' ≤ c ∧ c ≤ 'f' then some (c.toNat - 'a'.toNat + 10)
  else if 'A' ≤ c ∧ c ≤ 'F' then some (c.toNat - 'A'.toNat + 10)
  else none

def hexFault (cs : List Char) : LexicalFault :=
  match Place.skipBytes? 4 cs with
  | some place => ⟨.invalidEscape, place⟩
  | none => ⟨.endInString, .before []⟩

def scanUnit : List Char → Except LexicalFault (Nat × List Char)
  | a :: b :: c :: d :: rest =>
    match hexValue? a, hexValue? b, hexValue? c, hexValue? d with
    | some a, some b, some c, some d => .ok (((a * 16 + b) * 16 + c) * 16 + d, rest)
    | _, _, _, _ => .error (hexFault (a :: b :: c :: d :: rest))
  | cs => .error (hexFault cs)

def scanTrailing (lead : Nat) : List Char → Except LexicalFault (Char × List Char)
  | [] => .error ⟨.endInString, .before []⟩
  | '\\' :: [] => .error ⟨.endInString, .before []⟩
  | '\\' :: 'u' :: cs => do
    let (trail, rest) ← scanUnit cs
    if 0xDC00 ≤ trail ∧ trail ≤ 0xDFFF then
      return (Char.ofNat ((lead - 0xD800) * 0x400 + (trail - 0xDC00) + 0x10000), rest)
    else throw ⟨.loneSurrogate, .before rest⟩
  | '\\' :: cs => .error ⟨.endInEscape, .onto cs⟩
  | cs => .error ⟨.endInEscape, .onto cs⟩

/-- Reads the code of a `\u` escape: one unit, or a pair of surrogates. -/
def scanCode (cs : List Char) : Except LexicalFault (Char × List Char) := do
  let (unit, rest) ← scanUnit cs
  if 0xDC00 ≤ unit ∧ unit ≤ 0xDFFF then throw ⟨.loneSurrogate, .before rest⟩
  else if 0xD800 ≤ unit ∧ unit ≤ 0xDBFF then scanTrailing unit rest
  else return (Char.ofNat unit, rest)

def simpleEscape? : Char → Option Char
  | '"' => some '"'
  | '\\' => some '\\'
  | '/' => some '/'
  | 'b' => some '\x08'
  | 'f' => some '\x0c'
  | 'n' => some '\n'
  | 'r' => some '\r'
  | 't' => some '\t'
  | _ => none

def scanEscape : List Char → Except LexicalFault (Char × List Char)
  | [] => .error ⟨.endInString, .before []⟩
  | 'u' :: cs => scanCode cs
  | c :: cs =>
    match simpleEscape? c with
    | some e => .ok (e, cs)
    | none => .error ⟨.invalidEscape, .onto (c :: cs)⟩

theorem scanUnit_length {cs rest : List Char} {n : Nat} (h : scanUnit cs = .ok (n, rest)) :
    rest.length < cs.length := by
  unfold scanUnit at h
  split at h
  · split at h
    · cases h; simp only [List.length_cons]; omega
    · cases h
  · cases h

theorem scanTrailing_length {lead : Nat} {cs rest : List Char} {c : Char}
    (h : scanTrailing lead cs = .ok (c, rest)) : rest.length < cs.length := by
  unfold scanTrailing at h
  split at h
  · cases h
  · cases h
  · rename_i cs'
    cases hu : scanUnit cs' with
    | error f => rw [hu] at h; cases h
    | ok p =>
      obtain ⟨t, r⟩ := p
      rw [hu] at h
      have := scanUnit_length hu
      simp only [bind, Except.bind] at h
      split at h
      · simp only [pure, Except.pure, Except.ok.injEq, Prod.mk.injEq] at h
        simp only [List.length_cons, ← h.2]; omega
      · cases h
  · cases h
  · cases h

theorem scanCode_length {cs rest : List Char} {c : Char} (h : scanCode cs = .ok (c, rest)) :
    rest.length < cs.length := by
  unfold scanCode at h
  cases hu : scanUnit cs with
  | error f => rw [hu] at h; cases h
  | ok p =>
    obtain ⟨u, r⟩ := p
    rw [hu] at h
    have hr := scanUnit_length hu
    simp only [bind, Except.bind] at h
    split at h
    · cases h
    · split at h
      · exact Nat.lt_trans (scanTrailing_length h) hr
      · simp only [pure, Except.pure, Except.ok.injEq, Prod.mk.injEq] at h
        exact h.2 ▸ hr

theorem scanEscape_length {cs rest : List Char} {c : Char} (h : scanEscape cs = .ok (c, rest)) :
    rest.length < cs.length := by
  unfold scanEscape at h
  split at h
  · cases h
  · exact Nat.lt_succ_of_lt (scanCode_length h)
  · split at h
    · cases h; simp
    · cases h

/-- Reads a string behind its opening quote, up to and with the closing one. -/
def scanString (cs : List Char) : Except LexicalFault (List Char × List Char) :=
  match cs with
  | [] => .error ⟨.endInString, .before []⟩
  | '"' :: rest => .ok ([], rest)
  | '\\' :: rest =>
    match _h : scanEscape rest with
    | .error f => .error f
    | .ok (c, rest') =>
      match scanString rest' with
      | .error f => .error f
      | .ok (s, after) => .ok (c :: s, after)
  | c :: rest =>
    if c < ' ' then .error ⟨.controlCharacter, .onto (c :: rest)⟩
    else
      match scanString rest with
      | .error f => .error f
      | .ok (s, after) => .ok (c :: s, after)
termination_by cs.length
decreasing_by
  · exact Nat.lt_succ_of_lt (scanEscape_length _h)
  · simp

def scanWord (token : Token) : List Char → List Char → Except LexicalFault (Token × List Char)
  | [], cs => .ok (token, cs)
  | _ :: _, [] => .error ⟨.endInValue, .before []⟩
  | w :: ws, c :: cs =>
    if c = w then scanWord token ws cs else .error ⟨.expectedWord, .onto (c :: cs)⟩

def numberFault : List Char → LexicalFault
  | [] => ⟨.endInValue, .before []⟩
  | c :: cs => ⟨.invalidNumber, .onto (c :: cs)⟩

def scanNumber (cs : List Char) : Except LexicalFault (Token × List Char) :=
  match Numeral.scan cs with
  | .ok (n, rest) => .ok (.number n, rest)
  | .error rest => .error (numberFault rest)

def scanToken (c : Char) (rest : List Char) : Except LexicalFault (Token × List Char) :=
  match c with
  | '[' => .ok (.openList, rest)
  | ']' => .ok (.closeList, rest)
  | '{' => .ok (.openMap, rest)
  | '}' => .ok (.closeMap, rest)
  | ',' => .ok (.comma, rest)
  | ':' => .ok (.colon, rest)
  | 'n' => scanWord .null ['u', 'l', 'l'] rest
  | 't' => scanWord (.bool true) ['r', 'u', 'e'] rest
  | 'f' => scanWord (.bool false) ['a', 'l', 's', 'e'] rest
  | '"' =>
    match scanString rest with
    | .ok (s, after) => .ok (.str (String.ofList s), after)
    | .error f => .error f
  | c =>
    if c = '-' ∨ (Digit.ofChar? c).isSome then scanNumber (c :: rest)
    else .error ⟨.expectedValue, .onto (c :: rest)⟩

theorem scanString_length {cs s rest : List Char} (h : scanString cs = .ok (s, rest)) :
    rest.length < cs.length := by
  fun_induction scanString cs generalizing s rest with
  | case1 => cases h
  | case2 => cases h; simp
  | case3 => cases h
  | case4 => cases h
  | case5 _ _ _ he s' after hs ih =>
    cases h
    have := ih hs
    have := scanEscape_length he
    simp only [List.length_cons]; omega
  | case6 => cases h
  | case7 => cases h
  | case8 _ _ _ _ _ s' after hs ih =>
    cases h
    have := ih hs
    simp only [List.length_cons]; omega

theorem scanWord_length {token t : Token} {word cs rest : List Char}
    (h : scanWord token word cs = .ok (t, rest)) : rest.length ≤ cs.length := by
  induction word generalizing cs with
  | nil => simp only [scanWord, Except.ok.injEq, Prod.mk.injEq] at h; simp [h.2]
  | cons w ws ih =>
    cases cs with
    | nil => cases h
    | cons c cs =>
      unfold scanWord at h
      split at h
      · exact Nat.le_succ_of_le (ih h)
      · cases h

theorem scanNumber_length {cs rest : List Char} {t : Token}
    (h : scanNumber cs = .ok (t, rest)) : rest.length < cs.length := by
  unfold scanNumber at h
  split at h
  · rename_i hn
    cases h
    exact Numeral.scan_length hn
  · cases h

theorem scanToken_length {c : Char} {cs rest : List Char} {t : Token}
    (h : scanToken c cs = .ok (t, rest)) : rest.length ≤ cs.length := by
  unfold scanToken at h
  split at h
  all_goals try (cases h; exact Nat.le_refl _)
  · exact scanWord_length h
  · exact scanWord_length h
  · exact scanWord_length h
  · split at h
    · rename_i hs
      cases h
      exact Nat.le_of_lt (scanString_length hs)
    · cases h
  · split at h
    · exact Nat.le_of_lt_succ (scanNumber_length h)
    · cases h

/-- The lexemes of a text. The last one is the end of the text or the first broken one. -/
def ofChars (cs : List Char) : List Lexeme :=
  match _h : cs.dropWhile Numeral.isBlank with
  | [] => [⟨.finish, [], []⟩]
  | c :: rest =>
    match _ht : scanToken c rest with
    | .error f => [⟨.broken f, c :: rest, []⟩]
    | .ok (t, after) => ⟨.token t, c :: rest, after⟩ :: ofChars after
termination_by cs.length
decreasing_by
  have h₁ := (List.dropWhile_suffix (l := cs) Numeral.isBlank).length_le
  have h₂ := scanToken_length _ht
  rw [_h] at h₁
  simp only [List.length_cons] at h₁
  omega

end Lexeme

end ShapeCodec
