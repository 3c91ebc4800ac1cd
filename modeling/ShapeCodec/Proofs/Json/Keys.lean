import ShapeCodec.Proofs.Json.Unambiguous

/-! # Keys in a text

Where the keys of a text stand, by the descent that leads to them: the pieces that are passed in
each bracket, and the piece that is entered. What stands behind a piece is the end of the text that
the piece starts at, so that of two places in a text the one with more behind it comes first.
-/

namespace ShapeCodec

open Lexeme

namespace Grammar

variable {α : Type} {cs mid start rest rest' : List Char} {c : Char} {j : Json}

/-! ## The text behind a piece -/

theorem UnitText.suffix {n : Nat} (h : UnitText cs n rest) : rest <:+ cs := by
  obtain ⟨_, _, _, _⟩ := h
  exact ⟨[_, _, _, _], rfl⟩

theorem CharText.suffix (h : CharText cs c rest) : rest <:+ cs := by
  cases h with
  | plain => exact List.suffix_cons _ _
  | letter => exact ⟨[_, _], rfl⟩
  | unit hc => exact hc.suffix.trans ⟨['\\', 'u'], rfl⟩
  | pair hl ht =>
    exact ((ht.suffix.trans ⟨['\\', 'u'], rfl⟩).trans hl.suffix).trans ⟨['\\', 'u'], rfl⟩

theorem StringText.quote_suffix {s : List Char} (h : StringText cs s rest) :
    '"' :: rest <:+ cs := by
  induction h with
  | close => exact List.suffix_rfl
  | cons hc _ ih => exact ih.trans hc.suffix

theorem StringText.suffix {s : List Char} (h : StringText cs s rest) : rest <:+ cs :=
  (List.suffix_cons _ _).trans h.quote_suffix

theorem Separated.suffix {piece : List Char → α → List Char → Prop} {close : Char} {xs : List α}
    (h : Separated piece close cs xs rest)
    (hp : ∀ x ∈ xs, ∀ cs rest, piece cs x rest → rest <:+ cs) : rest <:+ cs := by
  induction h with
  | last hx => exact (List.suffix_cons _ _).trans (hp _ List.mem_cons_self _ _ hx)
  | next hx _ ih =>
    obtain ⟨hp, hps⟩ := List.forall_mem_cons.mp hp
    exact (ih hps).trans ((List.suffix_cons _ _).trans (hp _ _ hx))

theorem Padded.suffix_of (hj : ∀ cs rest, ValueText cs j rest → rest <:+ cs)
    (h : Padded ValueText cs j rest) : rest <:+ cs := by
  obtain ⟨hb, hv, ha⟩ := h
  exact (ha.suffix.trans (hj _ _ hv)).trans hb.suffix

theorem EntryText.suffix_of {e : String × Json}
    (hj : ∀ cs rest, ValueText cs e.2 rest → rest <:+ cs)
    (h : EntryText ValueText cs e rest) : rest <:+ cs := by
  obtain ⟨hb, hs, hc, hv⟩ := h
  have hcolon := (List.suffix_cons _ _).trans hc.suffix
  have hquote := (List.suffix_cons _ _).trans hb.suffix
  exact (((hv.suffix_of hj).trans hcolon).trans hs.suffix).trans hquote

theorem ValueText.suffix (h : ValueText cs j rest) : rest <:+ cs := by
  induction j using Json.inductionParts generalizing cs rest with
  | step j ih =>
  cases h with
  | null => exact ⟨['n', 'u', 'l', 'l'], rfl⟩
  | true => exact ⟨['t', 'r', 'u', 'e'], rfl⟩
  | false => exact ⟨['f', 'a', 'l', 's', 'e'], rfl⟩
  | int | number => exact List.suffix_append _ _
  | str hs => exact hs.suffix.trans (List.suffix_cons _ _)
  | emptyList h | emptyMap h =>
    exact ((List.suffix_cons _ _).trans h.suffix).trans (List.suffix_cons _ _)
  | list hxs =>
    exact (hxs.suffix fun x hx _ _ => Padded.suffix_of fun _ _ => ih x hx).trans
      (List.suffix_cons _ _)
  | map hes =>
    exact (hes.suffix fun e he _ _ => EntryText.suffix_of fun _ _ =>
      ih _ (Json.mem_parts_map he)).trans (List.suffix_cons _ _)

theorem Padded.suffix (h : Padded ValueText cs j rest) : rest <:+ cs :=
  h.suffix_of fun _ _ => ValueText.suffix

theorem EntryText.suffix {e : String × Json} (h : EntryText ValueText cs e rest) : rest <:+ cs :=
  h.suffix_of fun _ _ => ValueText.suffix

/-! ## Pieces that are passed -/

/-- The text behind some pieces and the comma behind each of them. -/
inductive Past {α : Type} (piece : List Char → α → List Char → Prop) :
    List Char → List α → List Char → Prop
  | refl (cs : List Char) : Past piece cs [] cs
  | next {x : α} {xs : List α} {cs mid rest : List Char} (hx : piece cs x (',' :: mid))
    (h : Past piece mid xs rest) : Past piece cs (x :: xs) rest

/-- A piece is determined up to the comma or bracket behind it. -/
def Unambiguous {α : Type} (piece : List Char → α → List Char → Prop) : Prop :=
  ∀ {cs : List Char} {x y : α} {c c' : Char} {rest rest' : List Char}, piece cs x (c :: rest) →
    piece cs y (c' :: rest') → Stop c → Stop c' → x = y ∧ c = c' ∧ rest = rest'

theorem unambiguous_padded : Unambiguous (Padded ValueText) := Padded.unique (determined _)

theorem unambiguous_entryText : Unambiguous (EntryText ValueText) :=
  EntryText.unique (determined _)

section Past

variable {piece : List Char → α → List Char → Prop} {close : Char} {xs ys : List α} {x : α}
  {mid' : List Char}

theorem Past.concat (h : Past piece cs xs mid) (hx : piece mid x (',' :: rest)) :
    Past piece cs (xs ++ [x]) rest := by
  induction h with
  | refl => exact .next hx (.refl _)
  | next hy _ ih => exact .next hy (ih hx)

theorem Past.suffix (h : Past piece cs xs rest) (hp : ∀ cs x rest, piece cs x rest → rest <:+ cs) :
    rest <:+ cs := by
  induction h with
  | refl => exact List.suffix_rfl
  | next hx _ ih => exact ih.trans ((List.suffix_cons _ _).trans (hp _ _ _ hx))

theorem Separated.exists_past (h : Separated piece close cs xs rest) :
    ∃ before x mid, xs = before ++ [x] ∧ Past piece cs before mid ∧
      piece mid x (close :: rest) := by
  induction h with
  | last hx => exact ⟨[], _, _, rfl, .refl _, hx⟩
  | next hx _ ih =>
    obtain ⟨before, y, mid, rfl, hp, hy⟩ := ih
    exact ⟨_ :: before, y, mid, rfl, .next hx hp, hy⟩

theorem Past.exists_rest (hclose : close = ']' ∨ close = '}') (h : Past piece cs xs mid)
    (h' : Separated piece close cs ys rest) (hu : Unambiguous piece)
    (hs : ∀ cs x rest, piece cs x rest → rest <:+ cs) :
    ∃ y more c after, ys = xs ++ y :: more ∧ Stop c ∧ piece mid y (c :: after) ∧
      rest <:+ after := by
  have hne : ',' ≠ close := by rcases hclose with rfl | rfl <;> decide
  induction h generalizing ys with
  | refl =>
    cases h' with
    | last hy => exact ⟨_, [], _, _, rfl, .inr hclose, hy, List.suffix_rfl⟩
    | next hy hys => exact ⟨_, _, _, _, rfl, .inl rfl, hy, hys.suffix fun x _ cs => hs cs x⟩
  | next hx _ ih =>
    cases h' with
    | last hy => exact (hne (hu hx hy (.inl rfl) (.inr hclose)).2.1).elim
    | next hy hys =>
      obtain ⟨rfl, -, rfl⟩ := hu hx hy (.inl rfl) (.inl rfl)
      obtain ⟨y, more, c, after, rfl, hpiece⟩ := ih hys
      exact ⟨y, more, c, after, rfl, hpiece⟩

/-- The end of a text, of length `n`, begins in the piece that is at the front of the text. -/
def EndsIn (piece : List Char → α → List Char → Prop) (cs : List Char) (n : Nat) : Prop :=
  n ≤ cs.length ∧ ∀ x after, piece cs x (',' :: after) → after.length < n

theorem Past.unique {n : Nat} (h : Past piece cs xs mid) (h' : Past piece cs ys mid')
    (hu : Unambiguous piece) (hs : ∀ cs x rest, piece cs x rest → rest <:+ cs)
    (hn : EndsIn piece mid n) (hn' : EndsIn piece mid' n) : xs = ys ∧ mid = mid' := by
  induction h generalizing ys with
  | refl =>
    cases h' with
    | refl => exact ⟨rfl, rfl⟩
    | next hy hys =>
      exact absurd (hn.2 _ _ hy) (hn'.1.trans (hys.suffix hs).length_le).not_gt
  | next hx hxs ih =>
    cases h' with
    | refl => exact absurd (hn'.2 _ _ hx) (hn.1.trans (hxs.suffix hs).length_le).not_gt
    | next hy hys =>
      obtain ⟨rfl, -, rfl⟩ := hu hx hy (.inl rfl) (.inl rfl)
      obtain ⟨rfl, rfl⟩ := ih hys hn
      exact ⟨rfl, rfl⟩

end Past

end Grammar

/-! ## Keys -/

/-- A key in a text: the way to the map that holds it, the keys before it in that map, and the text
behind its closing quote. -/
structure KeyOccurrence where
  path : Path
  before : List String
  key : String
  behind : List Char

namespace KeyOccurrence

def Repeated (o : KeyOccurrence) : Prop := o.key ∈ o.before

def inside (o : KeyOccurrence) (step : Segment) : KeyOccurrence := { o with path := step :: o.path }

@[simp] theorem behind_inside (o : KeyOccurrence) (step : Segment) :
    (o.inside step).behind = o.behind := rfl

end KeyOccurrence

namespace Grammar

/-- A key of the value that a text begins with: one of its own, or of one of its parts. -/
inductive KeyIn : List Char → KeyOccurrence → Prop
  | own {es : List (String × Json)} {cs mid start s behind colon : List Char}
    (hes : Past (EntryText ValueText) cs es mid) (before : Blanks mid ('"' :: start))
    (hs : StringText start s behind) (after : Blanks behind (':' :: colon)) :
    KeyIn ('{' :: cs) ⟨[], es.map (·.1), String.ofList s, behind⟩
  | item {xs : List Json} {cs mid start : List Char} {o : KeyOccurrence}
    (hxs : Past (Padded ValueText) cs xs mid) (before : Blanks mid start) (ho : KeyIn start o) :
    KeyIn ('[' :: cs) (o.inside (.index xs.length))
  | value {es : List (String × Json)} {cs mid start s stop colon inner : List Char}
    {o : KeyOccurrence} (hes : Past (EntryText ValueText) cs es mid)
    (before : Blanks mid ('"' :: start)) (hs : StringText start s stop)
    (after : Blanks stop (':' :: colon)) (gap : Blanks colon inner) (ho : KeyIn inner o) :
    KeyIn ('{' :: cs) (o.inside (.key (String.ofList s)))

end Grammar

def KeyOccurrence.InText (o : KeyOccurrence) (text : List Char) : Prop :=
  ∃ start, Grammar.Blanks text start ∧ Grammar.KeyIn start o

namespace Grammar

variable {cs mid start start' rest : List Char} {o : KeyOccurrence} {j : Json}

theorem KeyIn.quote_suffix (h : KeyIn cs o) : '"' :: o.behind <:+ cs := by
  induction h with
  | own hes before hs after =>
    have hquote := (List.suffix_cons _ _).trans before.suffix
    have hentry := hes.suffix fun _ _ _ => EntryText.suffix
    exact ((hs.quote_suffix.trans hquote).trans hentry).trans (List.suffix_cons _ _)
  | item hxs before _ ih =>
    have hitem := hxs.suffix fun _ _ _ => Padded.suffix
    exact ((ih.trans before.suffix).trans hitem).trans (List.suffix_cons _ _)
  | value hes before hs after gap _ ih =>
    have hcolon := (List.suffix_cons _ _).trans after.suffix
    have hquote := (List.suffix_cons _ _).trans before.suffix
    have hentry := hes.suffix fun _ _ _ => EntryText.suffix
    exact (((((ih.trans gap.suffix).trans hcolon).trans hs.suffix).trans hquote).trans
      hentry).trans (List.suffix_cons _ _)

theorem KeyIn.suffix (h : KeyIn cs o) : o.behind <:+ cs :=
  (List.suffix_cons _ _).trans h.quote_suffix

theorem KeyIn.exists_colon (h : KeyIn cs o) : ∃ colon, Blanks o.behind (':' :: colon) := by
  induction h with
  | own _ _ _ after => exact ⟨_, after⟩
  | item _ _ _ ih => exact ih
  | value _ _ _ _ _ _ ih => exact ih

theorem KeyIn.exists_token (h : KeyIn cs o) : ∃ t after,
    ofChars cs = ⟨.token t, cs, after⟩ :: ofChars after ∧ t ≠ .closeList := by
  cases h with
  | item => exact ⟨_, _, ofChars_of_tokenText .openList nofun, nofun⟩
  | own | value => exact ⟨_, _, ofChars_of_tokenText .openMap nofun, nofun⟩

theorem KeyIn.start_eq_of_keyIn {o' : KeyOccurrence} (hb : Blanks cs start) (h : KeyIn start o)
    (hb' : Blanks cs start') (h' : KeyIn start' o') : start = start' := by
  obtain ⟨t, after, ht, -⟩ := h.exists_token
  obtain ⟨t', after', ht', -⟩ := h'.exists_token
  exact (hb.token_unique ht hb' ht').2

theorem KeyIn.start_eq (hb : Blanks cs start) (h : KeyIn start o) (hb' : Blanks cs start')
    (hv : ValueText start' j rest) (hr : Numeral.Ends rest) : start = start' := by
  obtain ⟨t, after, ht, -⟩ := h.exists_token
  obtain ⟨t', after', ht', -⟩ := hv.exists_token hr
  exact (hb.token_unique ht hb' ht').2

theorem Past.not_blanks {xs : List Json} (h : Past (Padded ValueText) cs xs mid)
    (hb : Blanks mid start) (ho : KeyIn start o) : ¬ Blanks cs (']' :: rest) := by
  intro he
  cases h with
  | refl =>
    obtain ⟨t, after, ht, hne⟩ := ho.exists_token
    exact hne (he.token_unique (ofChars_of_tokenText .closeList nofun) hb ht).1.symm
  | next hx _ => exact hx.not_blanks (.inl rfl) he

theorem Past.exists_quote {es : List (String × Json)} (h : Past (EntryText ValueText) cs es mid)
    (hb : Blanks mid ('"' :: start)) : ∃ start, Blanks cs ('"' :: start) := by
  cases h with
  | refl => exact ⟨start, hb⟩
  | next hx _ =>
    obtain ⟨hb, -⟩ := hx
    exact ⟨_, hb⟩

/-! ## Where a key stands -/

variable {e : String × Json} {c : Char} {s stop behind colon inner : List Char}

theorem ValueText.exists_item {xs : List Json} (h : ValueText ('[' :: cs) j rest)
    (hr : Numeral.Ends rest) (hxs : Past (Padded ValueText) cs xs mid) (before : Blanks mid start)
    (ho : KeyIn start o) : ∃ y more c after, j = .list (xs ++ y :: more) ∧ Stop c ∧
      Padded ValueText mid y (c :: after) ∧ rest <:+ after := by
  cases h.goesOn hr .openList nofun with
  | emptyList hb => exact (hxs.not_blanks before ho hb).elim
  | list hys =>
    obtain ⟨y, more, c, after, rfl, hy⟩ := hxs.exists_rest (.inl rfl) hys unambiguous_padded
      fun _ _ _ => Padded.suffix
    exact ⟨y, more, c, after, rfl, hy⟩

theorem ValueText.exists_entry {es : List (String × Json)} (h : ValueText ('{' :: cs) j rest)
    (hr : Numeral.Ends rest) (hes : Past (EntryText ValueText) cs es mid)
    (before : Blanks mid ('"' :: start)) : ∃ e more c after, j = .map (es ++ e :: more) ∧ Stop c ∧
      EntryText ValueText mid e (c :: after) ∧ rest <:+ after := by
  cases h.goesOn hr .openMap nofun with
  | emptyMap hb =>
    obtain ⟨_, hq⟩ := hes.exists_quote before
    exact absurd (hb.unique hq rfl rfl).1 (by decide)
  | map hfs =>
    obtain ⟨e, more, c, after, rfl, he⟩ := hes.exists_rest (.inr rfl) hfs unambiguous_entryText
      fun _ _ _ => EntryText.suffix
    exact ⟨e, more, c, after, rfl, he⟩

theorem EntryText.padded (h : EntryText ValueText mid e rest) (before : Blanks mid ('"' :: start))
    (hs : StringText start s stop) (after : Blanks stop (':' :: colon)) :
    e.1 = String.ofList s ∧ Padded ValueText colon e.2 rest := by
  obtain ⟨before', hs', after', hj⟩ := h
  obtain ⟨-, rfl⟩ := before.unique before' rfl rfl
  obtain ⟨rfl, rfl⟩ := hs.unique hs'
  obtain ⟨-, rfl⟩ := after.unique after' rfl rfl
  exact ⟨rfl, hj⟩

theorem EntryText.length_lt_key (h : EntryText ValueText mid e rest)
    (before : Blanks mid ('"' :: start)) (hs : StringText start s stop)
    (after : Blanks stop (':' :: colon)) : rest.length < stop.length :=
  (h.padded before hs after).2.suffix.length_le.trans_lt (Nat.lt_of_succ_le after.suffix.length_le)

/-- A value that starts at `start` ends behind a key of it. -/
def Encloses (start behind : List Char) : Prop :=
  ∀ {j : Json} {rest : List Char}, ValueText start j rest → Numeral.Ends rest →
    rest.length < behind.length

theorem Encloses.padded (h : Encloses start behind) (ho : KeyIn start o) (hb : Blanks cs start)
    (hj : Padded ValueText cs j (c :: rest)) (hc : Stop c) : rest.length < behind.length := by
  obtain ⟨hb', hv, ha⟩ := hj
  have hends := Reading.ends_of_blanks ha (Reading.ends_cons hc _)
  obtain rfl := ho.start_eq hb hb' hv hends
  exact (Nat.le_of_succ_le ha.suffix.length_le).trans_lt (h hv hends)

theorem KeyIn.encloses (h : KeyIn cs o) : Encloses cs o.behind := by
  intro j rest hv hr
  induction h generalizing j rest with
  | own hes before hs after =>
    obtain ⟨e, more, c, _, -, hc, he, hrest⟩ := hv.exists_entry hr hes before
    have hkey := he.length_lt_key before hs after
    exact hrest.length_le.trans_lt (Nat.lt_of_succ_lt hkey)
  | item hxs before ho ih =>
    obtain ⟨y, more, c, _, -, hc, hy, hrest⟩ := hv.exists_item hr hxs before ho
    exact hrest.length_le.trans_lt (Encloses.padded ih ho before hy hc)
  | value hes before hs after gap ho ih =>
    obtain ⟨e, more, c, _, -, hc, he, hrest⟩ := hv.exists_entry hr hes before
    have hvalue := (he.padded before hs after).2
    exact hrest.length_le.trans_lt (Encloses.padded ih ho gap hvalue hc)

theorem endsIn_own (before : Blanks mid ('"' :: start)) (hs : StringText start s behind)
    (after : Blanks behind (':' :: colon)) : EndsIn (EntryText ValueText) mid behind.length := by
  have hle := (hs.suffix.trans ((List.suffix_cons _ _).trans before.suffix)).length_le
  exact ⟨hle, fun e rest he => Nat.lt_of_succ_lt (he.length_lt_key before hs after)⟩

theorem endsIn_value (before : Blanks mid ('"' :: start)) (hs : StringText start s stop)
    (after : Blanks stop (':' :: colon)) (gap : Blanks colon inner) (ho : KeyIn inner o) :
    EndsIn (EntryText ValueText) mid o.behind.length := by
  have hkey := (hs.suffix.trans ((List.suffix_cons _ _).trans before.suffix)).length_le
  have hvalue := ((ho.suffix.trans gap.suffix).trans
    ((List.suffix_cons _ _).trans after.suffix)).length_le
  exact ⟨hvalue.trans hkey, fun e rest he =>
    Encloses.padded ho.encloses ho gap (he.padded before hs after).2 (.inl rfl)⟩

theorem endsIn_item (before : Blanks mid start) (ho : KeyIn start o) :
    EndsIn (Padded ValueText) mid o.behind.length :=
  ⟨(ho.suffix.trans before.suffix).length_le, fun _ _ hx =>
    Encloses.padded ho.encloses ho before hx (.inl rfl)⟩

theorem length_lt_of_value (after : Blanks stop (':' :: colon)) (gap : Blanks colon inner)
    (ho : KeyIn inner o) : o.behind.length < stop.length :=
  (ho.suffix.trans gap.suffix).length_le.trans_lt (Nat.lt_of_succ_le after.suffix.length_le)

/-- No two keys of a value end at one place. -/
theorem KeyIn.unique {o' : KeyOccurrence} (h : KeyIn cs o) (h' : KeyIn cs o')
    (hn : o'.behind.length = o.behind.length) : o = o' := by
  -- The entries that hold the two keys are one, since the text is cut in it at one place.
  have entry {cs mid mid' : List Char} {es es' : List (String × Json)} {n n' : Nat} (he : n' = n)
      (hes : Past (EntryText ValueText) cs es mid) (hes' : Past (EntryText ValueText) cs es' mid')
      (hm : EndsIn (EntryText ValueText) mid n) (hm' : EndsIn (EntryText ValueText) mid' n') :=
    hes.unique hes' unambiguous_entryText (fun _ _ _ => EntryText.suffix) hm (he ▸ hm')
  induction h generalizing o' with simp only [KeyOccurrence.behind_inside] at hn
  | own hes before hs after =>
    cases h' with simp only [KeyOccurrence.behind_inside] at hn
    | own hes' before' hs' after' =>
      obtain ⟨rfl, rfl⟩ := entry hn hes hes' (endsIn_own before hs after)
        (endsIn_own before' hs' after')
      obtain ⟨-, rfl⟩ := before.unique before' rfl rfl
      obtain ⟨rfl, rfl⟩ := hs.unique hs'
      rfl
    | value hes' before' hs' after' gap ho =>
      obtain ⟨rfl, rfl⟩ := entry hn hes hes' (endsIn_own before hs after)
        (endsIn_value before' hs' after' gap ho)
      obtain ⟨-, rfl⟩ := before.unique before' rfl rfl
      obtain ⟨rfl, rfl⟩ := hs.unique hs'
      exact absurd hn (length_lt_of_value after' gap ho).ne
  | item hxs before ho ih =>
    cases h' with simp only [KeyOccurrence.behind_inside] at hn
    | item hxs' before' ho' =>
      obtain ⟨rfl, rfl⟩ := hxs.unique hxs' unambiguous_padded (fun _ _ _ => Padded.suffix)
        (endsIn_item before ho) (hn ▸ endsIn_item before' ho')
      obtain rfl := ho.start_eq_of_keyIn before before' ho'
      rw [ih ho' hn]
  | value hes before hs after gap ho ih =>
    cases h' with simp only [KeyOccurrence.behind_inside] at hn
    | own hes' before' hs' after' =>
      obtain ⟨rfl, rfl⟩ := entry hn hes hes' (endsIn_value before hs after gap ho)
        (endsIn_own before' hs' after')
      obtain ⟨-, rfl⟩ := before.unique before' rfl rfl
      obtain ⟨rfl, rfl⟩ := hs.unique hs'
      exact absurd hn.symm (length_lt_of_value after gap ho).ne
    | value hes' before' hs' after' gap' ho' =>
      obtain ⟨rfl, rfl⟩ := entry hn hes hes' (endsIn_value before hs after gap ho)
        (endsIn_value before' hs' after' gap' ho')
      obtain ⟨-, rfl⟩ := before.unique before' rfl rfl
      obtain ⟨rfl, rfl⟩ := hs.unique hs'
      obtain ⟨-, rfl⟩ := after.unique after' rfl rfl
      obtain rfl := ho.start_eq_of_keyIn gap gap' ho'
      rw [ih ho' hn]

end Grammar

end ShapeCodec
