import ShapeCodec.Json.Writing
import ShapeCodec.Proofs.Json.Passes

/-! # What is written is read

The two forms of a tree differ by their white space only, and a layout says where it stands. In
every layout a tree is written as a text of the grammar, which spells it with an integer for every
number that is one. So reading undoes writing, up to the numbers that fit 64 bits, where no map
stands for a number.
-/

namespace ShapeCodec

open Grammar

namespace Json

/-! ## Strings and numbers -/

theorem hexDigit_hexChar : ∀ n : Fin 16, HexDigit (hexChar n) n.val := by
  unfold HexDigit
  decide

theorem charText_escape (c : Char) (rest : List Char) : CharText (escape c ++ rest) c rest := by
  unfold escape
  split
  case h_8 hq hb _ _ _ _ _ =>
    split
    · rename_i hc
      have hn : c.toNat < 32 := hc
      have hzero : HexDigit '0' 0 := .inl rfl
      have hhigh := hexDigit_hexChar ⟨c.toNat / 16, by omega⟩
      have hlow := hexDigit_hexChar ⟨c.toNat % 16, by omega⟩
      have hunit : UnitText ('0' :: '0' :: hexChar (c.toNat / 16) :: hexChar (c.toNat % 16) :: rest)
          _ rest := .mk hzero hzero hhigh hlow
      have hvalue : ((0 * 16 + 0) * 16 + c.toNat / 16) * 16 + c.toNat % 16 = c.toNat := by omega
      rw [hvalue] at hunit
      exact .unit hunit
    · rename_i hc
      exact .plain (Char.not_lt.mp hc) hq hb
  all_goals exact .letter (by decide)

theorem stringText_escape (cs rest : List Char) :
    StringText (cs.flatMap escape ++ '"' :: rest) cs rest := by
  induction cs with
  | nil => exact .close
  | cons c cs ih =>
    rw [List.flatMap_cons, List.append_assoc]
    exact .cons (charText_escape c _) ih

theorem quote_append (s : String) (rest : List Char) :
    quote s ++ rest = '"' :: (s.toList.flatMap escape ++ '"' :: rest) := by
  simp [quote]

/-- What has no parts is written alike in all layouts. -/
theorem valueText_chars {j : Json} (hj : j.parts = []) (rest : List Char) :
    ValueText (j.chars ++ rest) j.withIntegers rest := by
  cases j with
  | null => exact .null
  | bool b =>
    cases b
    · exact .false
    · exact .true
  | int i =>
    have h : ValueText _ _ rest := valueText_ofNumeral (numberText_chars (.ofInt i.toInt))
    rwa [ofNumeral, Numeral.toInt64?_ofInt, Numeral.chars_ofInt] at h
  | number n => exact valueText_ofNumeral (numberText_chars n)
  | str s =>
    rw [chars, quote_append]
    have h := ValueText.str (stringText_escape s.toList rest)
    rwa [String.ofList_toList] at h
  | list xs =>
    obtain rfl : xs = [] := hj
    exact .emptyList (.refl _)
  | map es =>
    obtain rfl : es = [] := List.map_eq_nil_iff.mp hj
    exact .emptyMap (.refl _)

/-! ## Layouts -/

/-- A form in which trees are written: what a line begins with inside a number of brackets, and
what stands behind a colon. -/
structure Layout where
  text : Nat → Json → List Char
  items : Nat → List Json → List Char
  entries : Nat → List (String × Json) → List Char
  line : Nat → List Char
  gap : List Char
  blanks_line : ∀ depth rest, Blanks (line depth ++ rest) rest
  blanks_gap : ∀ rest, Blanks (gap ++ rest) rest
  text_of_parts_eq_nil : ∀ depth j, j.parts = [] → text depth j = j.chars
  text_list : ∀ depth x xs, text depth (list (x :: xs)) =
    '[' :: (line (depth + 1) ++ text (depth + 1) x ++ items depth xs)
  items_nil : ∀ depth, items depth [] = line depth ++ [']']
  items_cons : ∀ depth x xs, items depth (x :: xs) =
    ',' :: (line (depth + 1) ++ text (depth + 1) x ++ items depth xs)
  text_map : ∀ depth k x es, text depth (map ((k, x) :: es)) =
    '{' :: (line (depth + 1) ++ quote k ++ ':' :: (gap ++ (text (depth + 1) x ++ entries depth es)))
  entries_nil : ∀ depth, entries depth [] = line depth ++ ['}']
  entries_cons : ∀ depth k x es, entries depth ((k, x) :: es) =
    ',' :: (line (depth + 1) ++ quote k ++ ':' :: (gap ++ (text (depth + 1) x ++ entries depth es)))

namespace Layout

def compact : Layout where
  text _ := chars
  items _ := charsItems
  entries _ := charsEntries
  line _ := []
  gap := []
  blanks_line _ := .refl
  blanks_gap := .refl
  text_of_parts_eq_nil _ _ _ := rfl
  text_list _ _ _ := rfl
  items_nil _ := rfl
  items_cons _ _ _ := rfl
  text_map _ _ _ _ := rfl
  entries_nil _ := rfl
  entries_cons _ _ _ _ := rfl

theorem blanks_newLine (depth : Nat) (rest : List Char) : Blanks (newLine depth ++ rest) rest := by
  refine .cons (.inr (.inr (.inl rfl))) ?_
  generalize 2 * depth = n
  induction n with
  | zero => exact .refl rest
  | succ n ih => exact .cons (.inl rfl) ih

def spread : Layout where
  text := spreadChars
  items := spreadItems
  entries := spreadEntries
  line := newLine
  gap := [' ']
  blanks_line := blanks_newLine
  blanks_gap rest := .cons (.inl rfl) (.refl rest)
  text_of_parts_eq_nil depth j hj := by
    cases j with
    | bool b => cases b <;> rfl
    | list xs =>
      obtain rfl : xs = [] := hj
      rfl
    | map es =>
      obtain rfl : es = [] := List.map_eq_nil_iff.mp hj
      rfl
    | _ => rfl
  text_list _ _ _ := rfl
  items_nil _ := rfl
  items_cons _ _ _ := rfl
  text_map _ _ _ _ := rfl
  entries_nil _ := rfl
  entries_cons _ _ _ _ := rfl

variable (l : Layout) {depth : Nat}

/-- The text of a tree spells it, with its integers, in every place. -/
def Spells (j : Json) : Prop :=
  ∀ depth rest, ValueText (l.text depth j ++ rest) j.withIntegers rest

theorem separated_items {x : Json} {xs : List Json} (hx : ∀ y ∈ x :: xs, l.Spells y)
    (rest : List Char) : Separated (Padded ValueText) ']'
      (l.line (depth + 1) ++ l.text (depth + 1) x ++ l.items depth xs ++ rest)
      ((x :: xs).map withIntegers) rest := by
  induction xs generalizing x with
  | nil =>
    rw [l.items_nil]
    simp only [List.append_assoc]
    exact .last (.mk (l.blanks_line _ _) (hx x List.mem_cons_self _ _) (l.blanks_line _ _))
  | cons y xs ih =>
    obtain ⟨hx, hxs⟩ := List.forall_mem_cons.mp hx
    rw [l.items_cons]
    simp only [List.append_assoc, List.cons_append]
    refine .next (.mk (l.blanks_line _ _) (hx _ _) (.refl _)) ?_
    simpa only [List.append_assoc] using ih hxs

theorem entryText (k : String) {x : Json} (hx : l.Spells x) {stop rest : List Char}
    (hs : Blanks stop rest) : EntryText ValueText
      (l.line (depth + 1) ++ (quote k ++ ':' :: (l.gap ++ (l.text (depth + 1) x ++ stop))))
      (k, x.withIntegers) rest := by
  rw [quote_append]
  have h := EntryText.mk (l.blanks_line (depth + 1) _) (stringText_escape k.toList _) (.refl _)
    (.mk (l.blanks_gap _) (hx (depth + 1) _) hs)
  rwa [String.ofList_toList] at h

theorem separated_entries {k : String} {x : Json} {es : List (String × Json)}
    (he : ∀ e ∈ (k, x) :: es, l.Spells e.2) (rest : List Char) :
    Separated (EntryText ValueText) '}'
      (l.line (depth + 1) ++ quote k ++ ':' ::
        (l.gap ++ (l.text (depth + 1) x ++ l.entries depth es)) ++ rest)
      (((k, x) :: es).map fun e => (e.1, e.2.withIntegers)) rest := by
  induction es generalizing k x with
  | nil =>
    rw [l.entries_nil]
    simp only [List.append_assoc, List.cons_append]
    exact .last (l.entryText k (he _ List.mem_cons_self) (l.blanks_line _ _))
  | cons e es ih =>
    obtain ⟨hx, hes⟩ := List.forall_mem_cons.mp he
    rw [l.entries_cons]
    simp only [List.append_assoc, List.cons_append]
    refine .next (l.entryText k hx (.refl _)) ?_
    simpa only [List.append_assoc, List.cons_append] using ih hes

theorem spells (j : Json) : l.Spells j := by
  induction j using inductionParts with
  | step j ih =>
  intro depth rest
  cases j with
  | list xs =>
    cases xs with
    | nil =>
      rw [l.text_of_parts_eq_nil depth _ rfl]
      exact valueText_chars rfl rest
    | cons x xs =>
      rw [l.text_list, withIntegers_list]
      exact .list (l.separated_items ih rest)
  | map es =>
    cases es with
    | nil =>
      rw [l.text_of_parts_eq_nil depth _ rfl]
      exact valueText_chars rfl rest
    | cons e es =>
      obtain ⟨k, x⟩ := e
      rw [l.text_map, withIntegers_map]
      exact .map (l.separated_entries (fun e he => ih _ (mem_parts_map he)) rest)
  | _ =>
    rw [l.text_of_parts_eq_nil depth _ rfl]
    exact valueText_chars rfl rest

end Layout

/-! ## Reading what is written -/

theorem read_layout (l : Layout) {j : Json} (hu : j.UniqueKeys) (hr : j.Readable) :
    read (String.ofList (l.text 0 j)) = .ok j.withIntegers := by
  have h := l.spells j 0 []
  rw [List.append_nil] at h
  apply read_of_spelledBy
  · rw [String.toList_ofList]
    exact .mk (.refl _) h (.refl _)
  · rw [depth_withIntegers]
    exact hr.depth
  · exact uniqueKeys_withIntegers_iff.mpr hu
  · exact numberMapFree_withIntegers_iff.mpr hr.numberMapFree

theorem read_write {j : Json} (hu : j.UniqueKeys) (hr : j.Readable) :
    read j.write = .ok j.withIntegers := read_layout .compact hu hr

theorem read_writeSpread {j : Json} (hu : j.UniqueKeys) (hr : j.Readable) :
    read j.writeSpread = .ok j.withIntegers := read_layout .spread hu hr

theorem read_write_of_scalarText? {j : Json} (h : j.scalarText?.isSome = true) :
    read j.write = .ok j.withIntegers :=
  read_write (uniqueKeys_of_parts_eq_nil (scalar_of_scalarText? h).1) (readable_of_scalarText? h)

theorem exists_of_mem_separated {α : Type} {piece : List Char → α → List Char → Prop}
    {close : Char} {cs rest : List Char} {xs : List α} (h : Separated piece close cs xs rest)
    {x : α} (hx : x ∈ xs) : ∃ start stop, piece start x stop := by
  induction h with
  | last hp =>
    obtain rfl := List.mem_singleton.mp hx
    exact ⟨_, _, hp⟩
  | next hp _ ih =>
    rcases List.mem_cons.mp hx with rfl | hx
    · exact ⟨_, _, hp⟩
    · exact ih hx

theorem withIntegers_of_valueText {j : Json} {cs rest : List Char} (h : ValueText cs j rest) :
    j.withIntegers = j := by
  induction j using inductionParts generalizing cs rest with
  | step j ih =>
  cases h with
  | number h hn => rw [Json.withIntegers, ofNumeral_eq_number h hn]
  | @list xs cs rest hxs =>
    have item : ∀ x ∈ xs, x.withIntegers = x := by
      intro x hx
      obtain ⟨_, _, ⟨_, hv, _⟩⟩ := exists_of_mem_separated hxs hx
      exact ih x hx hv
    rw [withIntegers_list, List.map_congr_left item, List.map_id']
  | @map es cs rest hes =>
    have entry : ∀ e ∈ es, (e.1, e.2.withIntegers) = e := by
      intro e he
      obtain ⟨_, _, ⟨_, _, _, ⟨_, hv, _⟩⟩⟩ := exists_of_mem_separated hes he
      rw [ih _ (mem_parts_map he) hv]
    rw [withIntegers_map, List.map_congr_left entry, List.map_id']
  | _ => rfl

theorem withIntegers_ofNumeral (n : Numeral) : (ofNumeral n).withIntegers = ofNumeral n := by
  unfold ofNumeral
  split
  · rfl
  · rename_i hn
    rw [withIntegers, ofNumeral, hn]

theorem withIntegers_of_read {text : String} {j : Json} (h : read text = .ok j) :
    j.withIntegers = j := by
  obtain ⟨k, ⟨_, hk, _⟩, -, -, hr⟩ := spelledBy_of_read h
  exact withIntegers_of_resolve withIntegers_ofNumeral hr (withIntegers_of_valueText hk)

/-- Reading undoes writing: both forms of a tree are read as the tree, with an integer for every
number without fraction and exponent that fits 64 bits. A tree that was read is read back as it
is. -/
theorem read_written (j : Json) :
    (j.NumberMapFree → j.UniqueKeys → j.depth ≤ 127 →
      read j.write = .ok j.withIntegers ∧ read j.writeSpread = .ok j.withIntegers) ∧
    ∀ text, read text = .ok j → read j.write = .ok j ∧ read j.writeSpread = .ok j := by
  have both : j.NumberMapFree → j.UniqueKeys → j.depth ≤ 127 →
      read j.write = .ok j.withIntegers ∧ read j.writeSpread = .ok j.withIntegers :=
    fun hn hu hd => ⟨read_write hu ⟨hd, hn⟩, read_writeSpread hu ⟨hd, hn⟩⟩
  refine ⟨both, fun text h => ?_⟩
  have hboth := both (numberMapFree_of_read h) (uniqueKeys_of_read h) (depth_le_of_read h)
  rwa [withIntegers_of_read h] at hboth

def note : Json :=
  .map [("a\"\n", .list [.number (.ofInt 7), .number ⟨true, 0, [.zero], none⟩]), ("b", .map [])]

theorem read_written_note :
    read note.write = .ok note.withIntegers ∧ read note.writeSpread = .ok note.withIntegers ∧
      read note.withIntegers.write = .ok note.withIntegers ∧
      read note.withIntegers.writeSpread = .ok note.withIntegers := by
  have hu : note.UniqueKeys := by
    have number : ∀ n, (number n).UniqueKeys := fun n => uniqueKeys_of_parts_eq_nil rfl
    simp [note, number]
  have hd : note.depth ≤ 127 := by decide
  have hn : note.NumberMapFree := by
    have number : ∀ n, (number n).NumberMapFree := fun n => numberMapFree_of_parts_eq_nil rfl
    simp [note, number, numberKey]
  obtain ⟨hw, hs⟩ := (read_written note).1 hn hu hd
  exact ⟨hw, hs, (read_written note.withIntegers).2 _ hw⟩

end Json

end ShapeCodec
