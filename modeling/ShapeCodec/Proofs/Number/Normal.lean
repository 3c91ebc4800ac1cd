import Mathlib
import ShapeCodec.Proofs.Number.Written

/-! # The normal form of a number

A number is kept as one text, whatever white space stands around it and however its exponent is
spelled. That text has the digits of the number as they are written, stands for the same rational
number and is kept as itself.
-/

namespace ShapeCodec

namespace Grammar

def whiteSpace : List Char := [' ', '\t', '\n', '\r']

def stripped (cs : List Char) : List Char :=
  (cs.dropWhile (· ∈ whiteSpace)).rdropWhile (· ∈ whiteSpace)

def exponentMarks : List Char := ['e', 'E']

/-- What stands before the exponent of a number: its sign and its digits, with their point. -/
def mantissa (cs : List Char) : List Char := cs.takeWhile (· ∉ exponentMarks)

/-- The rational number that a text is written for. -/
def NumberValue (cs : List Char) (q : ℚ) : Prop := ∃ w : Written, w.SpelledBy cs ∧ w.toRat = q

inductive FractionalText : List Char → Prop
  | mk {minus whole fraction exponent kept : List Char} (hm : minus = [] ∨ minus = ['-'])
    (hw : WholeText whole) (hf : FractionText fraction) (he : ExponentText exponent kept)
    (h : fraction ≠ [] ∨ exponent ≠ []) : FractionalText (minus ++ whole ++ fraction ++ exponent)

/-- A change of a text that changes no number: white space at one of its ends, the other letter for
the exponent, or a plus sign between this letter and the digits. -/
inductive Change : List Char → List Char → Prop
  | before {c : Char} (hc : c ∈ whiteSpace) (cs : List Char) : Change cs (c :: cs)
  | behind {c : Char} (hc : c ∈ whiteSpace) (cs : List Char) : Change cs (cs ++ [c])
  | mark (cs rest : List Char) : Change (cs ++ 'e' :: rest) (cs ++ 'E' :: rest)
  | plus {m : Char} (hm : m ∈ exponentMarks) (d : Digit) (cs rest : List Char) :
    Change (cs ++ m :: d.char :: rest) (cs ++ m :: '+' :: d.char :: rest)

/-- Texts that differ in nothing but such changes. -/
def Respelled : List Char → List Char → Prop := Relation.EqvGen Change

variable {t u e k cs cs' before behind : List Char} {c m m' : Char} {n : Numeral}

/-! ## White space at the ends -/

theorem isBlank_eq : Numeral.isBlank = fun c => decide (c ∈ whiteSpace) := by
  funext c
  rw [Bool.eq_iff_iff]
  simp [Numeral.isBlank, whiteSpace, or_assoc]

theorem isBlank_iff : Numeral.isBlank c = true ↔ c ∈ whiteSpace := by
  rw [isBlank_eq, decide_eq_true_iff]

theorem dropWhile_append_cons {p : Char → Bool} (hc : ¬ p c) (t u : List Char) :
    (t ++ c :: u).dropWhile p = t.dropWhile p ++ c :: u := by
  rw [List.dropWhile_append]
  split
  · rename_i ht
    rw [List.dropWhile_cons_of_neg hc, List.isEmpty_iff.mp ht, List.nil_append]
  · rfl

theorem rdropWhile_append_cons {p : Char → Bool} (hc : ¬ p c) (t u : List Char) :
    (t ++ c :: u).rdropWhile p = t ++ c :: u.rdropWhile p := by
  rw [List.rdropWhile, List.reverse_append, List.reverse_cons, List.append_assoc,
    List.singleton_append, dropWhile_append_cons hc, List.rdropWhile]
  simp

theorem rdropWhile_append_of_pos {p : Char → Bool} (h : ∀ c ∈ behind, p c) (cs : List Char) :
    (cs ++ behind).rdropWhile p = cs.rdropWhile p := by
  rw [List.rdropWhile, List.reverse_append,
    List.dropWhile_append_of_pos fun c hc => h c (List.mem_reverse.mp hc), List.rdropWhile]

theorem stripped_padded (before cs behind : List Char) (hb : ∀ c ∈ before, c ∈ whiteSpace)
    (hb' : ∀ c ∈ behind, c ∈ whiteSpace) : stripped (before ++ cs ++ behind) = stripped cs := by
  have hbehind : ∀ c ∈ behind, decide (c ∈ whiteSpace) := fun c hc => decide_eq_true (hb' c hc)
  rw [stripped, List.append_assoc,
    List.dropWhile_append_of_pos fun c hc => decide_eq_true (hb c hc), List.dropWhile_append,
    stripped]
  split
  · rename_i h
    rw [List.isEmpty_iff.mp h, List.dropWhile_eq_nil_iff.mpr hbehind]
  · exact rdropWhile_append_of_pos hbehind _

theorem exists_dropWhile_eq (cs : List Char) : ∃ behind, (∀ c ∈ behind, c ∈ whiteSpace) ∧
    cs.dropWhile Numeral.isBlank = stripped cs ++ behind := by
  refine ⟨(cs.dropWhile (· ∈ whiteSpace)).rtakeWhile (· ∈ whiteSpace), fun c hc => ?_, ?_⟩
  · simpa using List.mem_rtakeWhile_imp hc
  · rw [stripped, List.rdropWhile_append_rtakeWhile, isBlank_eq]

theorem stripped_append_cons (hc : c ∉ whiteSpace) (t u : List Char) :
    stripped (t ++ c :: u) =
      t.dropWhile (· ∈ whiteSpace) ++ c :: u.rdropWhile (· ∈ whiteSpace) := by
  have hc' : ¬ decide (c ∈ whiteSpace) := by simpa using hc
  rw [stripped, dropWhile_append_cons hc', rdropWhile_append_cons hc']

theorem stripped_eq_self (h : ∀ c ∈ cs, c ∉ whiteSpace) : stripped cs = cs := by
  have hd : cs.dropWhile (· ∈ whiteSpace) = cs :=
    List.dropWhile_eq_self_iff.mpr fun hl => by simpa using h _ (List.getElem_mem hl)
  rw [stripped, hd]
  exact List.rdropWhile_eq_self_iff.mpr fun hl => by simpa using h _ (List.getLast_mem hl)

/-! ## The characters of a number -/

/-- A character that stands in a number, if not at the start of its exponent. -/
def Plain (c : Char) : Prop := c ∈ ['+', '-', '.'] ∨ ∃ d : Digit, c = d.char

theorem char_ne_plus_point : ∀ d : Digit, d.char ≠ '+' ∧ d.char ≠ '.' := by decide

theorem Plain.not_mem (h : Plain c) : c ∉ exponentMarks ∧ c ∉ whiteSpace := by
  rcases h with h | ⟨d, rfl⟩
  · fin_cases h <;> decide
  · revert d
    decide

theorem plain_of_mem_chars {ds : List Digit} (h : c ∈ Digit.chars ds) : Plain c := by
  obtain ⟨d, -, rfl⟩ := List.mem_map.mp h
  exact .inr ⟨d, rfl⟩

theorem plain_of_mem_mantissaChars (h : c ∈ n.mantissaChars) : Plain c := by
  rw [Numeral.mantissaChars, List.mem_append, List.mem_append] at h
  rcases h with (h | h) | h
  · split at h
    · obtain rfl := List.mem_singleton.mp h
      exact .inl (by decide)
    · cases h
  · exact plain_of_mem_chars h
  · split at h
    · cases h
    · rcases List.mem_cons.mp h with rfl | h
      · exact .inl (by decide)
      · exact plain_of_mem_chars h

theorem ExponentText.eq_nil_or_cons (h : ExponentText e k) :
    e = [] ∨ ∃ m u, e = m :: u ∧ m ∈ exponentMarks ∧ ∀ c ∈ u, Plain c := by
  cases h with
  | none => exact .inl rfl
  | digits hm hs d ds =>
    refine .inr ⟨_, _, rfl, by simpa [exponentMarks] using hm, fun c hc => ?_⟩
    rcases List.mem_append.mp hc with hc | hc
    · cases hs with
      | none => cases hc
      | plus | minus =>
        obtain rfl := List.mem_singleton.mp hc
        exact .inl (by decide)
    · exact plain_of_mem_chars hc

theorem mark_not_mem_whiteSpace (hm : m ∈ exponentMarks) : m ∉ whiteSpace := by
  fin_cases hm <;> decide

theorem NumberText.not_mem_whiteSpace (h : NumberText t n.chars) (hc : c ∈ t) : c ∉ whiteSpace := by
  obtain ⟨e, rfl, he⟩ := numberText_iff.mp h
  rcases List.mem_append.mp hc with hc | hc
  · exact (plain_of_mem_mantissaChars hc).not_mem.2
  · rcases he.eq_nil_or_cons with rfl | ⟨m, u, rfl, hm, hu⟩
    · cases hc
    · rcases List.mem_cons.mp hc with rfl | hc
      · exact mark_not_mem_whiteSpace hm
      · exact (hu c hc).not_mem.2

theorem NumberText.stripped_eq (h : NumberText t n.chars) : stripped t = t :=
  stripped_eq_self fun _ => h.not_mem_whiteSpace

theorem NumberText.mantissa_eq (h : NumberText t n.chars) : mantissa t = n.mantissaChars := by
  obtain ⟨e, rfl, he⟩ := numberText_iff.mp h
  have hmantissa : ∀ c ∈ n.mantissaChars, decide (c ∉ exponentMarks) := fun c hc =>
    decide_eq_true (plain_of_mem_mantissaChars hc).not_mem.1
  rw [mantissa, List.takeWhile_append_of_pos hmantissa]
  rcases he.eq_nil_or_cons with rfl | ⟨m, u, rfl, hm, -⟩
  · exact List.append_nil _
  · rw [List.takeWhile_cons_of_neg (by simpa using hm), List.append_nil]

/-- A number is written for one rational number. -/
theorem NumberText.numberValue_iff (h : NumberText t n.chars) {q : ℚ} :
    NumberValue t q ↔ q = n.written.toRat := by
  constructor
  · rintro ⟨w, hw, rfl⟩
    rw [hw.eq_written h]
  · rintro rfl
    exact ⟨n.written, h.spelledBy, rfl⟩

/-! ## Reading -/

theorem ends_of_whiteSpace (h : ∀ c ∈ behind, c ∈ whiteSpace) : Numeral.Ends behind := by
  intro c hc
  have hws := h c (List.mem_of_mem_head? hc)
  fin_cases hws <;> decide

theorem ofText?_eq_some_iff {s : String} :
    Numeral.ofText? s = some n ↔ NumberText (stripped s.toList) n.chars := by
  unfold Numeral.ofText?
  constructor
  · intro h
    split at h
    · rename_i m rest hscan
      split at h
      · rename_i hrest
        cases h
        obtain ⟨t, ht, hn⟩ := numberText_of_scan hscan
        have hs : s.toList = s.toList.takeWhile Numeral.isBlank ++ t ++ rest := by
          rw [List.append_assoc, ← ht, List.takeWhile_append_dropWhile]
        rw [hs, stripped_padded, hn.stripped_eq]
        · exact hn
        · exact fun c hc => isBlank_iff.mp (List.mem_takeWhile_imp hc)
        · exact fun c hc => isBlank_iff.mp (List.all_eq_true.mp hrest c hc)
      · cases h
    · cases h
  · intro h
    obtain ⟨behind, hb, hdrop⟩ := exists_dropWhile_eq s.toList
    rw [hdrop, h.scan (ends_of_whiteSpace hb)]
    exact if_pos (List.all_eq_true.mpr fun c hc => isBlank_iff.mpr (hb c hc))

theorem exists_ofText?_iff {s : String} :
    (∃ n, Numeral.ofText? s = some n) ↔ ∃ kept, NumberText (stripped s.toList) kept := by
  constructor
  · rintro ⟨n, hn⟩
    exact ⟨n.chars, ofText?_eq_some_iff.mp hn⟩
  · rintro ⟨kept, hkept⟩
    obtain ⟨n, -, rfl, -⟩ := hkept.exists_numeral
    exact ⟨n, ofText?_eq_some_iff.mpr hkept⟩

theorem ofText?_text (n : Numeral) : Numeral.ofText? n.text = some n := by
  rw [ofText?_eq_some_iff, Numeral.text, String.toList_ofList, (numberText_chars n).stripped_eq]
  exact numberText_chars n

/-! ## Spellings -/

theorem ExponentText.mark (hm : m' ∈ exponentMarks) (h : ExponentText (m :: u) k) :
    ExponentText (m' :: u) k := by
  cases h with
  | digits _ hs d ds => exact .digits (by simpa [exponentMarks] using hm) hs d ds

theorem exponentText_plus_iff {d : Digit} :
    ExponentText (m :: d.char :: u) k ↔ ExponentText (m :: '+' :: d.char :: u) k := by
  constructor
  · intro h
    generalize hv : d.char :: u = v at h ⊢
    cases h with
    | digits hm hs d' ds =>
      cases hs with
      | none => exact .digits hm .plus d' ds
      | plus => exact absurd (List.cons.inj hv).1 (char_ne_plus_point d).1
      | minus => exact absurd (List.cons.inj hv).1 (Numeral.char_ne_minus d)
  · intro h
    generalize hv : '+' :: d.char :: u = v at h
    cases h with
    | digits hm hs d' ds =>
      cases hs with
      | none => exact absurd (List.cons.inj hv).1.symm (char_ne_plus_point d').1
      | plus =>
        rw [(List.cons.inj hv).2]
        exact .digits hm .none d' ds
      | minus => exact absurd (List.cons.inj hv).1 (by decide)

theorem numberText_append_cons_iff (hm : m ∈ exponentMarks) : NumberText (t ++ m :: u) n.chars ↔
    t = n.mantissaChars ∧ ExponentText (m :: u) (n.exponent.elim [] Exponent.chars) := by
  constructor
  · intro h
    obtain ⟨e, ht, he⟩ := numberText_iff.mp h
    have hm' : m ∉ n.mantissaChars := fun h => (plain_of_mem_mantissaChars h).not_mem.1 hm
    rcases he.eq_nil_or_cons with rfl | ⟨m', v, rfl, -, hv⟩
    · rw [List.append_nil] at ht
      exact (hm' (ht ▸ List.mem_append_right t List.mem_cons_self)).elim
    · -- The letter stands neither before the exponent nor behind its start, so this is the place.
      have hmv : m ∉ v := fun h => (hv m h).not_mem.1 hm
      obtain ⟨rfl, rfl, rfl⟩ := (List.append_cons_inj_of_notMem hm' hmv).mp ht.symm
      exact ⟨rfl, he⟩
  · rintro ⟨rfl, he⟩
    exact numberText_of_exponentText he

/-- A change changes nothing of what is kept. -/
theorem Change.numberText_iff (h : Change cs cs') :
    NumberText (stripped cs) n.chars ↔ NumberText (stripped cs') n.chars := by
  cases h with
  | @before c hc =>
    have hs := stripped_padded [c] cs [] (by simpa using hc) nofun
    rw [List.append_nil] at hs
    exact iff_of_eq (congrArg (NumberText · n.chars) hs.symm)
  | @behind c hc =>
    have hs := stripped_padded [] cs [c] nofun (by simpa using hc)
    exact iff_of_eq (congrArg (NumberText · n.chars) hs.symm)
  | mark t u =>
    rw [stripped_append_cons (by decide), stripped_append_cons (by decide),
      numberText_append_cons_iff (by decide), numberText_append_cons_iff (by decide)]
    exact and_congr_right fun _ => ⟨.mark (by decide), .mark (by decide)⟩
  | plus hm d t u =>
    have hd : Plain d.char := .inr ⟨d, rfl⟩
    have hu : (d.char :: u).rdropWhile (· ∈ whiteSpace) =
        d.char :: u.rdropWhile (· ∈ whiteSpace) :=
      rdropWhile_append_cons (by simpa using hd.not_mem.2) [] u
    have hpu : ('+' :: d.char :: u).rdropWhile (· ∈ whiteSpace) =
        '+' :: (d.char :: u).rdropWhile (· ∈ whiteSpace) :=
      rdropWhile_append_cons (by decide) [] _
    rw [stripped_append_cons (mark_not_mem_whiteSpace hm),
      stripped_append_cons (mark_not_mem_whiteSpace hm), hpu, hu,
      numberText_append_cons_iff hm, numberText_append_cons_iff hm]
    exact and_congr_right fun _ => exponentText_plus_iff

theorem Respelled.numberText_iff (h : Respelled cs cs') :
    NumberText (stripped cs) n.chars ↔ NumberText (stripped cs') n.chars := by
  induction h with
  | rel _ _ h => exact h.numberText_iff
  | refl _ => rfl
  | symm _ _ _ ih => exact ih.symm
  | trans _ _ _ _ _ ih₁ ih₂ => exact ih₁.trans ih₂

theorem respelled_append_left (hb : ∀ c ∈ before, c ∈ whiteSpace) (cs : List Char) :
    Respelled cs (before ++ cs) := by
  induction before with
  | nil => exact .refl _
  | cons c before ih =>
    obtain ⟨hc, hb⟩ := List.forall_mem_cons.mp hb
    exact .trans _ _ _ (ih hb) (.rel _ _ (.before hc _))

theorem respelled_append_right (hb : ∀ c ∈ behind, c ∈ whiteSpace) (cs : List Char) :
    Respelled cs (cs ++ behind) := by
  induction behind generalizing cs with
  | nil =>
    rw [List.append_nil]
    exact .refl _
  | cons c behind ih =>
    obtain ⟨hc, hb⟩ := List.forall_mem_cons.mp hb
    have h := ih hb (cs ++ [c])
    rw [List.append_assoc, List.singleton_append] at h
    exact .trans _ _ _ (.rel _ _ (.behind hc cs)) h

theorem respelled_stripped (cs : List Char) : Respelled (stripped cs) cs := by
  obtain ⟨behind, hb, hdrop⟩ := exists_dropWhile_eq cs
  have hbehind := respelled_append_right hb (stripped cs)
  have hb' : ∀ c ∈ cs.takeWhile Numeral.isBlank, c ∈ whiteSpace := fun c hc =>
    isBlank_iff.mp (List.mem_takeWhile_imp hc)
  have hbefore := respelled_append_left hb' (cs.dropWhile Numeral.isBlank)
  rw [List.takeWhile_append_dropWhile] at hbefore
  exact .trans _ _ _ hbehind (hdrop ▸ hbefore)

/-- A number is a respelling of what is kept of it. -/
theorem NumberText.respelled (h : NumberText t n.chars) : Respelled t n.chars := by
  obtain ⟨e, rfl, he⟩ := numberText_iff.mp h
  rw [chars_eq]
  generalize n.exponent.elim [] Exponent.chars = kept at he
  cases he with
  | none => exact .refl _
  | @digits mark sign signs hm hs d ds =>
    have hmark : Respelled (n.mantissaChars ++ mark :: (signs ++ Digit.chars (d :: ds)))
        (n.mantissaChars ++ 'e' :: (signs ++ Digit.chars (d :: ds))) := by
      rcases hm with rfl | rfl
      · exact .refl _
      · exact .symm _ _ (.rel _ _ (.mark _ _))
    refine .trans _ _ _ hmark ?_
    cases hs with
    | none => exact .rel _ _ (.plus (by decide) d _ _)
    | plus => exact .refl _
    | minus => exact .refl _

theorem respelled_of_ofText? {s : String} (h : Numeral.ofText? s = some n) :
    Respelled s.toList n.chars :=
  .trans _ _ _ (.symm _ _ (respelled_stripped _)) (ofText?_eq_some_iff.mp h).respelled

/-- The same is kept of two texts exactly when they are respellings of each other. -/
theorem ofText?_eq_some_iff_respelled {s s' : String} (h : Numeral.ofText? s = some n) :
    Numeral.ofText? s' = some n ↔ Respelled s.toList s'.toList := by
  constructor
  · intro h'
    exact .trans _ _ _ (respelled_of_ofText? h) (.symm _ _ (respelled_of_ofText? h'))
  · intro hr
    exact ofText?_eq_some_iff.mpr (hr.numberText_iff.mp (ofText?_eq_some_iff.mp h))

/-! ## Fractions and exponents -/

theorem fractionalText_of_isFractional (h : n.isFractional = true) : FractionalText n.chars := by
  rw [chars_eq, Numeral.mantissaChars]
  refine .mk ?_ (wholeText_iff.mpr ⟨n.whole, rfl⟩) (fractionText_iff.mpr ⟨n.fraction, rfl⟩)
    (exponentText_chars n.exponent) ?_
  · cases n.negative
    · exact .inl rfl
    · exact .inr rfl
  · rcases Bool.or_eq_true_iff.mp h with hf | hx
    · left
      rw [if_neg (by simpa using hf)]
      exact List.cons_ne_nil _ _
    · obtain ⟨x, hx⟩ := Option.isSome_iff_exists.mp hx
      right
      rw [hx]
      exact List.cons_ne_nil _ _

theorem FractionalText.exists_mark (h : FractionalText t) :
    ∃ c ∈ t, c = '.' ∨ c ∈ exponentMarks := by
  obtain ⟨-, -, hf, he, h⟩ := h
  rcases h with h | h
  · cases hf with
    | none => exact (h rfl).elim
    | digits d ds => exact ⟨'.', by simp, .inl rfl⟩
  · rcases he.eq_nil_or_cons with rfl | ⟨m, u, rfl, hm, -⟩
    · exact (h rfl).elim
    · exact ⟨m, by simp, .inr hm⟩

theorem isFractional_of_mem (hc : c ∈ n.chars) (h : c = '.' ∨ c ∈ exponentMarks) :
    n.isFractional = true := by
  by_contra hn
  have hz := integerText_coefficient (numberText_chars n) (Bool.eq_false_iff.mpr hn)
  rcases hz.mem hc with rfl | ⟨d, rfl⟩
  · exact absurd h (by decide)
  · exact h.elim (char_ne_plus_point d).2 (Plain.not_mem (.inr ⟨d, rfl⟩)).1

theorem fractionalText_iff : FractionalText n.chars ↔ n.isFractional = true := by
  constructor
  · intro h
    obtain ⟨c, hc, h⟩ := h.exists_mark
    exact isFractional_of_mem hc h
  · exact fractionalText_of_isFractional

theorem isFractional_iff_exists_mark :
    n.isFractional = true ↔ ∃ c ∈ n.chars, c = '.' ∨ c ∈ exponentMarks := by
  constructor
  · exact fun h => (fractionalText_of_isFractional h).exists_mark
  · rintro ⟨c, hc, h⟩
    exact isFractional_of_mem hc h

end Grammar

open Grammar

/-- A text is read as a number exactly when it is one between white space. What is kept of it stands
for the same rational number, has the same digits before the exponent, and is kept when it is read
itself. The same is kept of the texts that differ only in white space at the ends, in the letter of
the exponent or in a plus sign before its digits, and of no others. What is kept has a fraction or
an exponent exactly when a point or the letter of an exponent stands in it. -/
theorem number_texts_normalized (s : String) :
    ((∃ n, Numeral.ofText? s = some n) ↔ ∃ kept, NumberText (stripped s.toList) kept) ∧
    ∀ n, Numeral.ofText? s = some n →
      (∃! q, NumberValue (stripped s.toList) q) ∧
      (∀ q, NumberValue n.text.toList q ↔ NumberValue (stripped s.toList) q) ∧
      mantissa n.text.toList = mantissa (stripped s.toList) ∧
      Numeral.ofText? n.text = some n ∧
      (∀ s' : String, Numeral.ofText? s' = some n ↔ Respelled s.toList s'.toList) ∧
      (FractionalText n.text.toList ↔ n.isFractional = true) ∧
      (n.isFractional = true ↔ ∃ c ∈ n.text.toList, c = '.' ∨ c ∈ exponentMarks) := by
  refine ⟨exists_ofText?_iff, fun n hn => ?_⟩
  have hs := ofText?_eq_some_iff.mp hn
  have ht := numberText_chars n
  have htext : n.text.toList = n.chars := String.toList_ofList
  rw [htext]
  refine ⟨?_, fun q => ?_, ?_, ofText?_text n, fun s' => ofText?_eq_some_iff_respelled hn,
    fractionalText_iff, isFractional_iff_exists_mark⟩
  · simp only [hs.numberValue_iff]
    exact existsUnique_eq
  · rw [ht.numberValue_iff, hs.numberValue_iff]
  · rw [ht.mantissa_eq, hs.mantissa_eq]

theorem number_texts_normalized_capital_letter :
    ∃ n, Numeral.ofText? "\t-12.50E07 \n" = some n ∧ n.text = "-12.50e+07" ∧
      Numeral.ofText? "-12.50e+07" = some n ∧
      mantissa "-12.50e+07".toList = mantissa (stripped "\t-12.50E07 \n".toList) ∧
      Respelled "\t-12.50E07 \n".toList "-12.50e07".toList ∧
      FractionalText "-12.50e+07".toList := by
  have hn : Numeral.ofText? "\t-12.50E07 \n" =
      some ⟨true, 12, [5, 0], some ⟨false, 0, [7]⟩⟩ := by cbv
  have ht : (⟨true, 12, [5, 0], some ⟨false, 0, [7]⟩⟩ : Numeral).text = "-12.50e+07" := by cbv
  have hsmall : Numeral.ofText? "-12.50e07" =
      some ⟨true, 12, [5, 0], some ⟨false, 0, [7]⟩⟩ := by cbv
  obtain ⟨-, -, hmantissa, hfixed, hrespelled, hfractional, -⟩ :=
    (number_texts_normalized "\t-12.50E07 \n").2 _ hn
  rw [ht] at hmantissa hfixed hfractional
  exact ⟨_, hn, ht, hfixed, hmantissa, (hrespelled _).mp hsmall, hfractional.mpr rfl⟩

end ShapeCodec
