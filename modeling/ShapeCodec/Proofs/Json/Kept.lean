import ShapeCodec.Json.Reading
import ShapeCodec.Proofs.Json.Grammar
import ShapeCodec.Proofs.Json.Parts

/-! # Texts and the numbers in them

A text spells numbers, and the mode of reading says which of them become integers. So each value of
the grammar is spelled by a tree whose numbers are kept digit for digit, and what a mode reads is
made from that tree.
-/

namespace ShapeCodec

namespace Grammar

/-- A JSON value whose numbers are kept digit for digit. -/
inductive KeptText : List Char → Json → List Char → Prop
  | null {rest : List Char} : KeptText ('n' :: 'u' :: 'l' :: 'l' :: rest) .null rest
  | true {rest : List Char} : KeptText ('t' :: 'r' :: 'u' :: 'e' :: rest) (.bool true) rest
  | false {rest : List Char} :
    KeptText ('f' :: 'a' :: 'l' :: 's' :: 'e' :: rest) (.bool false) rest
  | number {n : Numeral} {written rest : List Char} (h : NumberText written n.chars) :
    KeptText (written ++ rest) (.number n) rest
  | str {cs s rest : List Char} (hs : StringText cs s rest) :
    KeptText ('"' :: cs) (.str (String.ofList s)) rest
  | emptyList {cs rest : List Char} (h : Blanks cs (']' :: rest)) :
    KeptText ('[' :: cs) (.list []) rest
  | list {xs : List Json} {cs rest : List Char}
    (hxs : Separated (Padded KeptText) ']' cs xs rest) : KeptText ('[' :: cs) (.list xs) rest
  | emptyMap {cs rest : List Char} (h : Blanks cs ('}' :: rest)) :
    KeptText ('{' :: cs) (.map []) rest
  | map {es : List (String × Json)} {cs rest : List Char}
    (hes : Separated (EntryText KeptText) '}' cs es rest) : KeptText ('{' :: cs) (.map es) rest

variable {α β : Type} {close : Char} {cs rest : List Char}

theorem Separated.exists_map {p : List Char → α → List Char → Prop}
    {q : List Char → β → List Char → Prop} {f : α → β} {ys : List β}
    (h : Separated q close cs ys rest)
    (hq : ∀ y ∈ ys, ∀ cs rest, q cs y rest → ∃ x, p cs x rest ∧ f x = y) :
    ∃ xs, Separated p close cs xs rest ∧ xs.map f = ys := by
  induction h with
  | last h =>
    obtain ⟨x, hx, rfl⟩ := hq _ List.mem_cons_self _ _ h
    exact ⟨[x], .last hx, rfl⟩
  | next h _ ih =>
    obtain ⟨hy, hys⟩ := List.forall_mem_cons.mp hq
    obtain ⟨x, hx, rfl⟩ := hy _ _ h
    obtain ⟨xs, hxs, rfl⟩ := ih hys
    exact ⟨x :: xs, .next hx hxs, rfl⟩

/-- What a text spells is spelled with its numbers kept, which become integers where they fit. -/
theorem ValueText.exists_kept {j : Json} (h : ValueText cs j rest) :
    ∃ k, KeptText cs k rest ∧ k.withIntegers = j := by
  induction j using Json.inductionParts generalizing cs rest with
  | step j ih =>
  cases h with
  | null => exact ⟨_, .null, rfl⟩
  | true => exact ⟨_, .true, rfl⟩
  | false => exact ⟨_, .false, rfl⟩
  | int h hi =>
    obtain ⟨n, -, rfl, -⟩ := h.exists_numeral
    exact ⟨_, .number h, ofNumeral_eq_int h hi⟩
  | number h hn => exact ⟨_, .number h, ofNumeral_eq_number h hn⟩
  | str hs => exact ⟨_, .str hs, rfl⟩
  | emptyList h => exact ⟨_, .emptyList h, rfl⟩
  | emptyMap h => exact ⟨_, .emptyMap h, rfl⟩
  | @list ys _ _ h =>
    have item : ∀ y ∈ ys, ∀ cs rest, Padded ValueText cs y rest →
        ∃ x, Padded KeptText cs x rest ∧ x.withIntegers = y := by
      rintro y hy cs rest ⟨hb, hv, ha⟩
      obtain ⟨x, hx, rfl⟩ := ih y hy hv
      exact ⟨x, .mk hb hx ha, rfl⟩
    obtain ⟨xs, hxs, rfl⟩ := h.exists_map item
    exact ⟨.list xs, .list hxs, Json.withIntegers_list xs⟩
  | @map fs _ _ h =>
    have entry : ∀ f ∈ fs, ∀ cs rest, EntryText ValueText cs f rest →
        ∃ e : String × Json, EntryText KeptText cs e rest ∧ (e.1, e.2.withIntegers) = f := by
      rintro f hf cs rest ⟨hb, hs, hc, ⟨hb', hv, ha⟩⟩
      obtain ⟨x, hx, rfl⟩ := ih _ (Json.mem_parts_map hf) hv
      exact ⟨(_, x), .mk hb hs hc (.mk hb' hx ha), rfl⟩
    obtain ⟨es, hes, rfl⟩ := h.exists_map entry
    exact ⟨.map es, .map hes, Json.withIntegers_map es⟩

end Grammar

namespace ReadMode

def tree : ReadMode → Json → Json
  | data, j => j.withIntegers
  | values, j => j.withIntegers
  | document, j => j

variable (mode : ReadMode)

theorem tree_number (n : Numeral) : mode.tree (.number n) = mode.number n := by
  cases mode <;> rfl

theorem tree_of_scalar {j : Json} (h : j.withIntegers = j) : mode.tree j = j := by
  cases mode with
  | document => rfl
  | _ => exact h

@[simp] theorem tree_list (xs : List Json) : mode.tree (.list xs) = .list (xs.map mode.tree) := by
  cases mode with
  | document => exact congrArg Json.list (List.map_id' xs).symm
  | _ => exact Json.withIntegers_list xs

@[simp] theorem tree_map (es : List (String × Json)) :
    mode.tree (.map es) = .map (es.map fun e => (e.1, mode.tree e.2)) := by
  cases mode with
  | document => exact congrArg Json.map (List.map_id' es).symm
  | _ => exact Json.withIntegers_map es

end ReadMode

end ShapeCodec
