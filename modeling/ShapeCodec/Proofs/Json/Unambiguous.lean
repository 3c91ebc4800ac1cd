import ShapeCodec.Proofs.Json.Writing

/-! # The grammar is unambiguous

A text spells at most one tree. The first lexeme of a value says what kind of value it is, and each
piece inside brackets ends at the comma or bracket behind it. So trees with one text differ at most
in how their integers are spelled, and the text of a tree that is nested too deeply is not read.
-/

namespace ShapeCodec

open Lexeme

namespace Grammar

variable {cs rest rest' : List Char} {c c' : Char} {j k : Json}

/-! ## One lexeme -/

/-- What the lexemes behind the first one of a value make of it. -/
inductive GoesOn : Token → List Char → Json → List Char → Prop
  | null {rest : List Char} : GoesOn .null rest .null rest
  | bool {b : Bool} {rest : List Char} : GoesOn (.bool b) rest (.bool b) rest
  | number {n : Numeral} {rest : List Char} : GoesOn (.number n) rest (.ofNumeral n) rest
  | str {s : String} {rest : List Char} : GoesOn (.str s) rest (.str s) rest
  | emptyList {cs rest : List Char} : Blanks cs (']' :: rest) → GoesOn .openList cs (.list []) rest
  | list {xs : List Json} {cs rest : List Char} :
    Separated (Padded ValueText) ']' cs xs rest → GoesOn .openList cs (.list xs) rest
  | emptyMap {cs rest : List Char} : Blanks cs ('}' :: rest) → GoesOn .openMap cs (.map []) rest
  | map {es : List (String × Json)} {cs rest : List Char} :
    Separated (EntryText ValueText) '}' cs es rest → GoesOn .openMap cs (.map es) rest

theorem ValueText.exists_token (h : ValueText cs j rest) (hr : Numeral.Ends rest) :
    ∃ t after, ofChars cs = ⟨.token t, cs, after⟩ :: ofChars after ∧ GoesOn t after j rest := by
  cases h with
  | null => exact ⟨_, _, ofChars_of_tokenText .null nofun, .null⟩
  | true => exact ⟨_, _, ofChars_of_tokenText .true nofun, .bool⟩
  | false => exact ⟨_, _, ofChars_of_tokenText .false nofun, .bool⟩
  | int h hi =>
    obtain ⟨n, -, rfl, -⟩ := h.exists_numeral
    rw [← ofNumeral_eq_int h hi]
    exact ⟨_, _, ofChars_of_tokenText (.number h) fun _ _ => hr, .number⟩
  | number h hn =>
    rw [← ofNumeral_eq_number h hn]
    exact ⟨_, _, ofChars_of_tokenText (.number h) fun _ _ => hr, .number⟩
  | str hs => exact ⟨_, _, ofChars_of_tokenText (.str hs) nofun, .str⟩
  | emptyList h => exact ⟨_, _, ofChars_of_tokenText .openList nofun, .emptyList h⟩
  | list h => exact ⟨_, _, ofChars_of_tokenText .openList nofun, .list h⟩
  | emptyMap h => exact ⟨_, _, ofChars_of_tokenText .openMap nofun, .emptyMap h⟩
  | map h => exact ⟨_, _, ofChars_of_tokenText .openMap nofun, .map h⟩

/-- What a value is depends on what follows its first lexeme. -/
theorem ValueText.goesOn {t : Token} {after : List Char} (h : ValueText cs j rest)
    (hr : Numeral.Ends rest) (ht : TokenText cs t after)
    (hn : ∀ n, t = .number n → Numeral.Ends after) : GoesOn t after j rest := by
  obtain ⟨t', after', ht', hg⟩ := h.exists_token hr
  rw [ofChars_of_tokenText ht hn] at ht'
  obtain ⟨hc, -, rfl⟩ := Lexeme.mk.inj (List.cons.inj ht').1
  exact Content.token.inj hc ▸ hg

theorem Blanks.token_unique {start start' after after' : List Char} {t t' : Token}
    (hb : Blanks cs start) (ht : ofChars start = ⟨.token t, start, after⟩ :: ofChars after)
    (hb' : Blanks cs start')
    (ht' : ofChars start' = ⟨.token t', start', after'⟩ :: ofChars after') :
    t = t' ∧ start = start' := by
  have hx := (ofChars_of_blanks hb).symm.trans (ofChars_of_blanks hb')
  rw [ht, ht'] at hx
  obtain ⟨hc, hs, -⟩ := Lexeme.mk.inj (List.cons.inj hx).1
  exact ⟨Content.token.inj hc, hs⟩

theorem ValueText.start_unique {start start' : List Char} (hb : Blanks cs start)
    (h : ValueText start j rest) (hr : Numeral.Ends rest) (hb' : Blanks cs start')
    (h' : ValueText start' k rest') (hr' : Numeral.Ends rest') : start = start' := by
  obtain ⟨t, after, ht, -⟩ := h.exists_token hr
  obtain ⟨t', after', ht', -⟩ := h'.exists_token hr'
  exact (hb.token_unique ht hb' ht').2

theorem Blanks.unique (h : Blanks cs (c :: rest)) (h' : Blanks cs (c' :: rest'))
    (hc : Numeral.isBlank c = false) (hc' : Numeral.isBlank c' = false) :
    c = c' ∧ rest = rest' := by
  have he := (dropWhile_of_blanks h).symm.trans (dropWhile_of_blanks h')
  rw [List.dropWhile_cons_of_neg (by simp [hc]), List.dropWhile_cons_of_neg (by simp [hc'])] at he
  exact List.cons.inj he

theorem StringText.unique {s s' : List Char} (h : StringText cs s rest)
    (h' : StringText cs s' rest') : s = s' ∧ rest = rest' := by
  have he := (scanString_eq_ok_iff.mpr h).symm.trans (scanString_eq_ok_iff.mpr h')
  exact Prod.mk.inj (Except.ok.inj he)

/-! ## Pieces inside brackets -/

def Stop (c : Char) : Prop := c = ',' ∨ c = ']' ∨ c = '}'

theorem Stop.isBlank (h : Stop c) : Numeral.isBlank c = false := by
  rcases h with rfl | rfl | rfl <;> rfl

/-- Whatever value a text also spells, it is this one, and the same text stands behind it. -/
def Determined (j : Json) : Prop :=
  ∀ {cs rest : List Char} {k : Json} {rest' : List Char}, ValueText cs j rest →
    ValueText cs k rest' → Numeral.Ends rest → Numeral.Ends rest' → j = k ∧ rest = rest'

theorem Padded.unique (hj : Determined j) (h : Padded ValueText cs j (c :: rest))
    (h' : Padded ValueText cs k (c' :: rest')) (hc : Stop c) (hc' : Stop c') :
    j = k ∧ c = c' ∧ rest = rest' := by
  obtain ⟨hb, hv, ha⟩ := h
  obtain ⟨hb', hv', ha'⟩ := h'
  have hr := Reading.ends_of_blanks ha (Reading.ends_cons hc rest)
  have hr' := Reading.ends_of_blanks ha' (Reading.ends_cons hc' rest')
  obtain rfl := ValueText.start_unique hb hv hr hb' hv' hr'
  obtain ⟨rfl, rfl⟩ := hj hv hv' hr hr'
  exact ⟨rfl, ha.unique ha' hc.isBlank hc'.isBlank⟩

theorem EntryText.unique {e f : String × Json} (he : Determined e.2)
    (h : EntryText ValueText cs e (c :: rest)) (h' : EntryText ValueText cs f (c' :: rest'))
    (hc : Stop c) (hc' : Stop c') : e = f ∧ c = c' ∧ rest = rest' := by
  obtain ⟨hb, hs, ha, hj⟩ := h
  obtain ⟨hb', hs', ha', hj'⟩ := h'
  obtain ⟨-, rfl⟩ := hb.unique hb' rfl rfl
  obtain ⟨rfl, rfl⟩ := hs.unique hs'
  obtain ⟨-, rfl⟩ := ha.unique ha' rfl rfl
  obtain ⟨rfl, hrest⟩ := hj.unique he hj' hc hc'
  exact ⟨rfl, hrest⟩

/-- Pieces that are determined up to the comma or bracket behind them are so all together. -/
theorem Separated.unique {α : Type} {piece : List Char → α → List Char → Prop} {close : Char}
    {xs ys : List α} (hclose : close = ']' ∨ close = '}') (h : Separated piece close cs xs rest)
    (h' : Separated piece close cs ys rest') (hp : ∀ x ∈ xs, ∀ y cs c rest c' rest',
      piece cs x (c :: rest) → piece cs y (c' :: rest') → Stop c → Stop c' →
        x = y ∧ c = c' ∧ rest = rest') : xs = ys ∧ rest = rest' := by
  have hne : ',' ≠ close := by rcases hclose with rfl | rfl <;> decide
  induction h generalizing ys with
  | last hx =>
    have piece := hp _ List.mem_cons_self
    cases h' with
    | last hy =>
      obtain ⟨rfl, -, rfl⟩ := piece _ _ _ _ _ _ hx hy (.inr hclose) (.inr hclose)
      exact ⟨rfl, rfl⟩
    | next hy _ =>
      obtain ⟨-, hc, -⟩ := piece _ _ _ _ _ _ hx hy (.inr hclose) (.inl rfl)
      exact (hne hc.symm).elim
  | next hx _ ih =>
    obtain ⟨piece, pieces⟩ := List.forall_mem_cons.mp hp
    cases h' with
    | last hy =>
      obtain ⟨-, hc, -⟩ := piece _ _ _ _ _ _ hx hy (.inl rfl) (.inr hclose)
      exact (hne hc).elim
    | next hy hys =>
      obtain ⟨rfl, -, rfl⟩ := piece _ _ _ _ _ _ hx hy (.inl rfl) (.inl rfl)
      obtain ⟨rfl, rfl⟩ := ih hys pieces
      exact ⟨rfl, rfl⟩

/-! ## Values -/

theorem Padded.not_blanks (h : Padded ValueText cs j (c :: rest)) (hc : Stop c) :
    ¬ Blanks cs (']' :: rest') := by
  intro hb
  obtain ⟨hb', hv, ha⟩ := h
  obtain ⟨t, after, ht, hg⟩ := hv.exists_token (Reading.ends_of_blanks ha (Reading.ends_cons hc _))
  obtain ⟨rfl, -⟩ := hb.token_unique (ofChars_of_tokenText .closeList nofun) hb' ht
  cases hg

theorem not_blanks_of_items {xs : List Json} (h : Separated (Padded ValueText) ']' cs xs rest) :
    ¬ Blanks cs (']' :: rest') := by
  cases h with
  | last h => exact h.not_blanks (.inr (.inl rfl))
  | next h => exact h.not_blanks (.inl rfl)

theorem not_blanks_of_entries {es : List (String × Json)}
    (h : Separated (EntryText ValueText) '}' cs es rest) : ¬ Blanks cs ('}' :: rest') := by
  intro hb
  have first : ∃ start, Blanks cs ('"' :: start) := by
    cases h with
    | last h => obtain ⟨hb, -⟩ := h; exact ⟨_, hb⟩
    | next h => obtain ⟨hb, -⟩ := h; exact ⟨_, hb⟩
  obtain ⟨start, hb'⟩ := first
  obtain ⟨hc, -⟩ := hb.unique hb' rfl rfl
  cases hc

theorem determined (j : Json) : Determined j := by
  induction j using Json.inductionParts with
  | step j ih =>
  intro cs rest k rest' h h' hr hr'
  obtain ⟨t, after, ht, hg⟩ := h.exists_token hr
  obtain ⟨t', after', ht', hg'⟩ := h'.exists_token hr'
  obtain ⟨hc, -, rfl⟩ := Lexeme.mk.inj (List.cons.inj (ht.symm.trans ht')).1
  obtain rfl := Content.token.inj hc
  cases hg with
  | null => cases hg'; exact ⟨rfl, rfl⟩
  | bool => cases hg'; exact ⟨rfl, rfl⟩
  | number => cases hg'; exact ⟨rfl, rfl⟩
  | str => cases hg'; exact ⟨rfl, rfl⟩
  | emptyList hb =>
    cases hg' with
    | emptyList hb' => exact ⟨rfl, (hb.unique hb' rfl rfl).2⟩
    | list hxs' => exact (not_blanks_of_items hxs' hb).elim
  | list hxs =>
    cases hg' with
    | emptyList hb' => exact (not_blanks_of_items hxs hb').elim
    | list hxs' =>
      obtain ⟨rfl, rfl⟩ := hxs.unique (.inl rfl) hxs' fun x hx _ _ _ _ _ _ =>
        Padded.unique (ih x hx)
      exact ⟨rfl, rfl⟩
  | emptyMap hb =>
    cases hg' with
    | emptyMap hb' => exact ⟨rfl, (hb.unique hb' rfl rfl).2⟩
    | map hes' => exact (not_blanks_of_entries hes' hb).elim
  | map hes =>
    cases hg' with
    | emptyMap hb' => exact (not_blanks_of_entries hes hb').elim
    | map hes' =>
      obtain ⟨rfl, rfl⟩ := hes.unique (.inr rfl) hes'
        fun e he _ _ _ _ _ _ => EntryText.unique (ih _ (Json.mem_parts_map he))
      exact ⟨rfl, rfl⟩

end Grammar

namespace Json

variable {j k : Json}

/-- A text spells at most one tree. -/
theorem SpelledBy.unique {text : List Char} (h : j.SpelledBy text) (h' : k.SpelledBy text) :
    j = k := by
  obtain ⟨hb, hv, ha⟩ := h
  obtain ⟨hb', hv', ha'⟩ := h'
  have hr := Reading.ends_of_blanks ha nofun
  have hr' := Reading.ends_of_blanks ha' nofun
  obtain rfl := Grammar.ValueText.start_unique hb hv hr hb' hv' hr'
  exact (Grammar.determined j hv hv' hr hr').1

theorem spelledBy_write (j : Json) : j.withIntegers.SpelledBy j.write.toList := by
  have h := Layout.compact.spells j 0 []
  rw [List.append_nil] at h
  rw [write, String.toList_ofList]
  exact .mk (.refl _) h (.refl _)

/-- Trees with one text differ at most in how their integers are spelled. -/
theorem withIntegers_eq_of_write_eq (h : j.write = k.write) : j.withIntegers = k.withIntegers :=
  (spelledBy_write j).unique (h ▸ spelledBy_write k)

/-- The text of a tree without repeated keys and without maps that stand for numbers is read back
exactly when the tree is not too deep. -/
theorem read_write_eq_ok_iff (hu : j.UniqueKeys) (hn : j.NumberMapFree) :
    read j.write = .ok k ↔ j.depth ≤ Reading.maxDepth ∧ k = j.withIntegers := by
  constructor
  · intro h
    obtain ⟨i, hs, hd, -, hr⟩ := spelledBy_of_read h
    obtain rfl := hs.unique (spelledBy_write j)
    have hfree := numberMapFree_withIntegers_iff.mpr hn
    exact ⟨depth_withIntegers j ▸ hd,
      (Except.ok.inj ((resolve_of_numberMapFree hfree).symm.trans hr)).symm⟩
  · rintro ⟨hd, rfl⟩
    exact read_write hu ⟨hd, hn⟩

end Json

end ShapeCodec
