import ShapeCodec.Json.Writing
import ShapeCodec.Proofs.Json.Parts

/-! # Texts of one line

The compact text of a tree is one line: a line break in a string or a key is escaped, and nothing
else that is written has one. So texts that are joined by line breaks can be told apart again.
-/

namespace ShapeCodec

namespace Digit

@[simp] theorem newline_not_mem_chars (ds : List Digit) : '\n' ∉ chars ds := by
  have char : ∀ d : Digit, d.char ≠ '\n' := by decide
  simpa [chars] using fun d _ => char d

theorem newline_not_mem_intChars (i : Int) : '\n' ∉ intChars i := by
  unfold intChars natChars
  split <;> simp

end Digit

namespace Numeral

@[simp] theorem newline_not_mem_chars (n : Numeral) : '\n' ∉ n.chars := by
  have mantissa : '\n' ∉ n.mantissaChars := by
    unfold mantissaChars Digit.natChars
    cases n.negative <;> cases n.fraction.isEmpty <;> simp
  unfold chars
  cases n.exponent with
  | none => simpa using mantissa
  | some e =>
    cases he : e.negative <;> simp [mantissa, Exponent.chars, he]

end Numeral

namespace Json

@[simp] theorem newline_not_mem_escape (c : Char) : '\n' ∉ escape c := by
  have hex : ∀ n : Fin 16, '\n' ≠ hexChar n := by decide
  unfold escape
  split
  all_goals try decide
  rename_i hc _ _
  split
  · rename_i hlt
    have hn : c.toNat < 32 := hlt
    have high := hex ⟨c.toNat / 16, by omega⟩
    have low := hex ⟨c.toNat % 16, by omega⟩
    simp [high, low]
  · simpa using fun h : '\n' = c => hc h.symm

@[simp] theorem newline_not_mem_quote (s : String) : '\n' ∉ quote s := by
  simp [quote]

theorem newline_not_mem_charsItems {xs : List Json} (h : ∀ x ∈ xs, '\n' ∉ x.chars) :
    '\n' ∉ charsItems xs := by
  induction xs with
  | nil => decide
  | cons x xs ih =>
    obtain ⟨hx, hxs⟩ := List.forall_mem_cons.mp h
    simp [charsItems, hx, ih hxs]

theorem newline_not_mem_charsEntries {es : List (String × Json)}
    (h : ∀ e ∈ es, '\n' ∉ e.2.chars) : '\n' ∉ charsEntries es := by
  induction es with
  | nil => decide
  | cons e es ih =>
    obtain ⟨he, hes⟩ := List.forall_mem_cons.mp h
    simp [charsEntries, he, ih hes]

@[simp] theorem newline_not_mem_chars (j : Json) : '\n' ∉ j.chars := by
  induction j using inductionParts with
  | step j ih =>
  cases j with
  | null => decide
  | bool b => cases b <;> decide
  | int i => exact Digit.newline_not_mem_intChars i.toInt
  | number n => exact n.newline_not_mem_chars
  | str s => exact newline_not_mem_quote s
  | list xs =>
    cases xs with
    | nil => decide
    | cons x xs =>
      obtain ⟨hx, hxs⟩ := List.forall_mem_cons.mp ih
      simp [chars, hx, newline_not_mem_charsItems hxs]
  | map es =>
    cases es with
    | nil => decide
    | cons e es =>
      obtain ⟨he, hes⟩ := List.forall_mem_cons.mp fun e he => ih _ (mem_parts_map he)
      simp [chars, he, newline_not_mem_charsEntries hes]

end Json

/-- The texts between the line breaks of a text. -/
def linesOf (text : String) : List String := (text.toList.splitOn '\n').map String.ofList

/-- Texts of one line each are told apart by the line breaks between them. -/
theorem linesOf_intercalate {texts : List String} (h : ∀ t ∈ texts, '\n' ∉ t.toList)
    (hn : texts ≠ []) : linesOf ("\n".intercalate texts) = texts := by
  have hlines : ∀ cs ∈ texts.map String.toList, '\n' ∉ cs := List.forall_mem_map.mpr h
  have hsplit := List.splitOn_intercalate '\n' hlines (List.map_eq_nil_iff.not.mpr hn)
  have hjoin : ("\n".intercalate texts).toList = ['\n'].intercalate (texts.map String.toList) :=
    String.toList_intercalate
  rw [linesOf, hjoin, hsplit, List.map_map]
  simp

end ShapeCodec
