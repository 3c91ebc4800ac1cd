import Mathlib.Data.Fintype.Basic
import Mathlib.Tactic.FinCases
import ShapeCodec.Proofs.Json.Strings

/-! # Lexemes and the grammar

A lexeme is spelled as the grammar spells what it is, and the sequence of lexemes passes over white
space. A number is cut off where it ends only when something else follows.
-/

namespace ShapeCodec

theorem Grammar.Blanks.suffix {cs rest : List Char} (h : Blanks cs rest) : rest <:+ cs := by
  induction h with
  | refl => exact List.suffix_rfl
  | cons _ _ ih => exact ih.trans (List.suffix_cons _ _)

namespace Lexeme

open Grammar

variable {c : Char} {cs start after rest : List Char} {t : Token}

/-! ## Tokens -/

/-- The text of a complete lexeme. -/
inductive TokenText : List Char → Token → List Char → Prop
  | openList {rest : List Char} : TokenText ('[' :: rest) .openList rest
  | closeList {rest : List Char} : TokenText (']' :: rest) .closeList rest
  | openMap {rest : List Char} : TokenText ('{' :: rest) .openMap rest
  | closeMap {rest : List Char} : TokenText ('}' :: rest) .closeMap rest
  | comma {rest : List Char} : TokenText (',' :: rest) .comma rest
  | colon {rest : List Char} : TokenText (':' :: rest) .colon rest
  | null {rest : List Char} : TokenText ('n' :: 'u' :: 'l' :: 'l' :: rest) .null rest
  | true {rest : List Char} : TokenText ('t' :: 'r' :: 'u' :: 'e' :: rest) (.bool true) rest
  | false {rest : List Char} :
    TokenText ('f' :: 'a' :: 'l' :: 's' :: 'e' :: rest) (.bool false) rest
  | number {n : Numeral} {written rest : List Char} (h : NumberText written n.chars) :
    TokenText (written ++ rest) (.number n) rest
  | str {cs s rest : List Char} (h : StringText cs s rest) :
    TokenText ('"' :: cs) (.str (String.ofList s)) rest

theorem scanWord_eq_ok_iff {token : Token} {word : List Char} :
    scanWord token word cs = .ok (t, rest) ↔ t = token ∧ cs = word ++ rest := by
  induction word generalizing cs with
  | nil => simp [scanWord, eq_comm]
  | cons w ws ih =>
    cases cs with
    | nil => simp [scanWord]
    | cons c cs =>
      unfold scanWord
      split
      · rename_i hc
        rw [ih, hc, List.cons_append, List.cons.injEq, and_iff_right rfl]
      · rename_i hc
        simp [hc]

theorem tokenText_of_scanToken (h : scanToken c cs = .ok (t, after)) :
    TokenText (c :: cs) t after := by
  unfold scanToken at h
  split at h
  · cases h
    exact .openList
  · cases h
    exact .closeList
  · cases h
    exact .openMap
  · cases h
    exact .closeMap
  · cases h
    exact .comma
  · cases h
    exact .colon
  · obtain ⟨rfl, rfl⟩ := scanWord_eq_ok_iff.mp h
    exact .null
  · obtain ⟨rfl, rfl⟩ := scanWord_eq_ok_iff.mp h
    exact .true
  · obtain ⟨rfl, rfl⟩ := scanWord_eq_ok_iff.mp h
    exact .false
  · split at h
    · rename_i hs
      cases h
      exact .str (scanString_eq_ok_iff.mp hs)
    · cases h
  · split at h
    · unfold scanNumber at h
      split at h
      · rename_i hn
        cases h
        obtain ⟨written, hw, ht⟩ := numberText_of_scan hn
        rw [hw]
        exact .number ht
      · cases h
    · cases h

theorem scanToken_of_number (hc : c = '-' ∨ ∃ d : Digit, c = d.char) (cs : List Char) :
    Numeral.isBlank c = false ∧ scanToken c cs = scanNumber (c :: cs) := by
  rcases hc with rfl | ⟨d, rfl⟩
  · exact ⟨rfl, rfl⟩
  · fin_cases d <;> exact ⟨rfl, rfl⟩

theorem exists_numberText_eq_cons {n : Numeral} (h : NumberText cs n.chars) :
    ∃ c rest, cs = c :: rest ∧ (c = '-' ∨ ∃ d : Digit, c = d.char) := by
  obtain ⟨e, rfl, -, -⟩ := h.exists_exponent
  obtain ⟨d, ds, hd⟩ := List.exists_cons_of_ne_nil (Digit.ofNat_ne_nil n.whole)
  rw [Numeral.mantissaChars, Digit.natChars, Digit.chars, hd]
  cases n.negative
  · exact ⟨_, _, rfl, .inr ⟨d, rfl⟩⟩
  · exact ⟨_, _, rfl, .inl rfl⟩

/-! ## The sequence -/

theorem ofChars_of_nil (h : cs.dropWhile Numeral.isBlank = []) :
    ofChars cs = [⟨.finish, [], []⟩] := by
  rw [ofChars]
  split
  · rfl
  · rename_i hc
    rw [h] at hc
    cases hc

theorem ofChars_of_token (h : cs.dropWhile Numeral.isBlank = c :: rest)
    (ht : scanToken c rest = .ok (t, after)) :
    ofChars cs = ⟨.token t, c :: rest, after⟩ :: ofChars after := by
  rw [ofChars]
  split
  · rename_i hc
    rw [h] at hc
    cases hc
  · rename_i hc
    rw [h] at hc
    obtain ⟨rfl, rfl⟩ := List.cons.inj hc
    split
    · rename_i he
      rw [ht] at he
      cases he
    · rename_i he
      rw [ht] at he
      cases he
      rfl

theorem ofChars_of_broken {f : LexicalFault} (h : cs.dropWhile Numeral.isBlank = c :: rest)
    (hf : scanToken c rest = .error f) : ofChars cs = [⟨.broken f, c :: rest, []⟩] := by
  rw [ofChars]
  split
  · rename_i hc
    rw [h] at hc
    cases hc
  · rename_i hc
    rw [h] at hc
    obtain ⟨rfl, rfl⟩ := List.cons.inj hc
    split
    · rename_i he
      rw [hf] at he
      cases he
      rfl
    · rename_i he
      rw [hf] at he
      cases he

theorem blanks_dropWhile (cs : List Char) : Blanks cs (cs.dropWhile Numeral.isBlank) := by
  induction cs with
  | nil => exact .refl []
  | cons c cs ih =>
    rw [List.dropWhile_cons]
    split
    · rename_i hc
      refine .cons ?_ ih
      simpa [Numeral.isBlank, or_assoc] using hc
    · exact .refl _

theorem dropWhile_of_blanks (h : Blanks cs rest) :
    cs.dropWhile Numeral.isBlank = rest.dropWhile Numeral.isBlank := by
  induction h with
  | refl => rfl
  | cons hc _ ih =>
    rw [List.dropWhile_cons_of_pos, ih]
    rcases hc with rfl | rfl | rfl | rfl <;> rfl

theorem ofChars_of_blanks (h : Blanks cs rest) : ofChars cs = ofChars rest := by
  have hd := dropWhile_of_blanks h
  cases hr : rest.dropWhile Numeral.isBlank with
  | nil => rw [ofChars_of_nil hr, ofChars_of_nil (hd.trans hr)]
  | cons c rest' =>
    cases ht : scanToken c rest' with
    | ok p =>
      obtain ⟨t, after⟩ := p
      rw [ofChars_of_token hr ht, ofChars_of_token (hd.trans hr) ht]
    | error f => rw [ofChars_of_broken hr ht, ofChars_of_broken (hd.trans hr) ht]

theorem ofChars_cons (hb : Numeral.isBlank c = false) (ht : scanToken c cs = .ok (t, after)) :
    ofChars (c :: cs) = ⟨.token t, c :: cs, after⟩ :: ofChars after :=
  ofChars_of_token (List.dropWhile_cons_of_neg (by simp [hb])) ht

/-- The text of a lexeme is cut into that lexeme and those of the text behind it. -/
theorem ofChars_of_tokenText (h : TokenText cs t after)
    (hn : ∀ n, t = .number n → Numeral.Ends after) :
    ofChars cs = ⟨.token t, cs, after⟩ :: ofChars after := by
  have word : ∀ {token word}, scanWord token word (word ++ after) = .ok (token, after) :=
    scanWord_eq_ok_iff.mpr ⟨rfl, rfl⟩
  cases h with
  | null => exact ofChars_cons rfl word
  | true => exact ofChars_cons rfl word
  | false => exact ofChars_cons rfl word
  | @number n written _ h =>
    have hs := h.scan (hn n rfl)
    obtain ⟨c, more, rfl, hc⟩ := exists_numberText_eq_cons h
    rw [List.cons_append] at hs ⊢
    obtain ⟨hb, ht⟩ := scanToken_of_number hc (more ++ after)
    apply ofChars_cons hb
    rw [ht, scanNumber, hs]
  | str h =>
    apply ofChars_cons rfl
    rw [scanToken, scanString_eq_ok_iff.mpr h]
  | _ => exact ofChars_cons rfl rfl

theorem ofChars_cases (cs : List Char) :
    Blanks cs [] ∧ ofChars cs = [⟨.finish, [], []⟩] ∨
    (∃ f start, ofChars cs = [⟨.broken f, start, []⟩]) ∨
    ∃ start t after, Blanks cs start ∧ TokenText start t after ∧ after.length < cs.length ∧
      ofChars cs = ⟨.token t, start, after⟩ :: ofChars after := by
  have hb := blanks_dropWhile cs
  have hl := (List.dropWhile_suffix (l := cs) Numeral.isBlank).length_le
  cases hd : cs.dropWhile Numeral.isBlank with
  | nil =>
    rw [hd] at hb
    exact .inl ⟨hb, ofChars_of_nil hd⟩
  | cons c rest =>
    rw [hd] at hb hl
    cases ht : scanToken c rest with
    | error f => exact .inr (.inl ⟨f, _, ofChars_of_broken hd ht⟩)
    | ok p =>
      obtain ⟨t, after⟩ := p
      have hlt := Nat.lt_of_le_of_lt (scanToken_length ht) hl
      exact .inr (.inr ⟨_, t, after, hb, tokenText_of_scanToken ht, hlt, ofChars_of_token hd ht⟩)

end Lexeme

end ShapeCodec
