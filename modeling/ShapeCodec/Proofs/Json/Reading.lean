import ShapeCodec.Json.Reading
import ShapeCodec.Proofs.Json.Lexemes
import ShapeCodec.Proofs.Json.Parts

/-! # The states of the reader

A state waits for a value or a key, or for what stands behind one. In every state that is reached
nothing is repeated so far, so a tree that is read repeats no key.
-/

namespace ShapeCodec

open Lexeme

namespace Reading

variable {mode : ReadMode} {state next : Reading} {context : List Frame} {x : Lexeme}
  {xs : List Lexeme} {cs rest : List Char}

open Grammar

/-! ## Walks -/

section Walk

variable {ε α : Type} {read : Reading → Lexeme → Except ε Reading} {cut : ε}

@[simp]
theorem walk_complete (json : Json) (rest : List Char) (xs : List Lexeme) :
    walk read cut (.complete json) rest xs = .ok (json, rest) := by
  cases xs <;> rfl

theorem walk_rest (h : ∀ json, state ≠ .complete json) :
    walk read cut state cs xs = walk read cut state rest xs := by
  cases state with
  | complete json => exact (h json rfl).elim
  | _ => cases xs <;> rfl

theorem walk_of_step (hc : ∀ json, read (.complete json) x ≠ .ok next)
    (h : read state x = .ok next) :
    walk read cut state cs (x :: xs) = walk read cut next x.rest xs := by
  cases state with
  | complete json => exact (hc json h).elim
  | _ => rw [walk, h]; nofun

theorem walk_of_step_error {f : ε} (hc : ∀ json, state ≠ .complete json)
    (h : read state x = .error f) : walk read cut state cs (x :: xs) = .error f := by
  cases state with
  | complete json => exact (hc json rfl).elim
  | _ => rw [walk, h]; nofun

/-- White space in front is passed over, and also white space behind the value, when the result is
the same with it. -/
theorem walk_of_blanks {result : Json × List Char → α} (h : Blanks cs rest)
    (hr : ∀ json, result (json, cs) = result (json, rest)) :
    (walk read cut state cs (ofChars cs)).map result =
      (walk read cut state rest (ofChars rest)).map result := by
  cases state with
  | complete json =>
    rw [walk_complete, walk_complete]
    exact congrArg Except.ok (hr json)
  | _ => rw [ofChars_of_blanks h, walk_rest (by intro json hj; cases hj)]

end Walk

/-! ## The first pass -/

/-- A value with the text behind it, and behind the white space there. -/
def pastBlanks (p : Json × List Char) : Json × List Char := (p.1, p.2.dropWhile Numeral.isBlank)

theorem pastBlanks_of_blanks (h : Blanks cs rest) (json : Json) :
    pastBlanks (json, cs) = pastBlanks (json, rest) :=
  congrArg (json, ·) (dropWhile_of_blanks h)

def run (state : Reading) (cs : List Char) : Except ReadFault (Json × List Char) :=
  (readData state cs).map pastBlanks

theorem run_of_blanks (h : Blanks cs rest) : run state cs = run state rest :=
  walk_of_blanks h (pastBlanks_of_blanks h)

theorem run_complete (json : Json) (cs : List Char) :
    run (.complete json) cs = .ok (json, cs.dropWhile Numeral.isBlank) := by
  rw [run, readData, walk_complete]
  rfl

theorem run_of_step (hx : ofChars cs = x :: ofChars x.rest) (h : step .data state x = .ok next) :
    run state cs = run next x.rest := by
  rw [run, readData, hx, walk_of_step (by intro json hj; cases hj) h]
  rfl

theorem run_of_step_error {f : ReadFault} (hx : ofChars cs = x :: xs)
    (hc : ∀ json, state ≠ .complete json) (h : step .data state x = .error f) :
    run state cs = .error f := by
  rw [run, readData, hx, walk_of_step_error hc h]
  rfl

/-! ## States that wait -/

/-- A state that waits for a value inside brackets. -/
inductive Awaits : Reading → List Frame → Prop
  | value {context : List Frame} : Awaits (.value context) context
  | firstItem {context : List Frame} : Awaits (.firstItem context) (.list [] :: context)
  | nextItem {items : List Json} {context : List Frame} :
    Awaits (.nextItem items context) (.list items :: context)

theorem Awaits.step_eq (h : Awaits state context) {t : Token} (hx : x.content = .token t)
    (ht : t ≠ .closeList) : step mode state x = stepValue mode context x := by
  cases h with
  | value => rfl
  | firstItem =>
    rw [step, hx]
    cases t <;> first | rfl | exact (ht rfl).elim
  | nextItem =>
    rw [step, hx]
    cases t <;> first | rfl | exact (ht rfl).elim

inductive AwaitsKey : Reading → List (String × Json) → List Frame → Prop
  | first {context : List Frame} : AwaitsKey (.firstKey context) [] context
  | next {entries : List (String × Json)} {context : List Frame} :
    AwaitsKey (.nextKey entries context) entries context

theorem AwaitsKey.step_eq {entries : List (String × Json)} (h : AwaitsKey state entries context)
    {key : String} (hx : x.content = .token (.str key))
    (hk : mode = .data → ∀ e ∈ entries, e.1 ≠ key) :
    step mode state x = .ok (.colon entries key context) := by
  have hn : ¬ (mode = .data ∧ entries.any (·.1 == key) = true) := by
    rintro ⟨hm, h⟩
    obtain ⟨e, he, hek⟩ := List.any_eq_true.mp h
    exact hk hm e he (by simpa using hek)
  have hs : ∀ atEnd, stepKey mode entries context atEnd x = .ok (.colon entries key context) := by
    intro atEnd
    rw [stepKey, hx]
    exact if_neg hn
  cases h
  · rw [step, hx]
    exact hs _
  · rw [step, hx]
    exact hs _

/-! ## What is read repeats no key -/

def CleanEntries (entries : List (String × Json)) : Prop :=
  (entries.map (·.1)).Nodup ∧ ∀ e ∈ entries, e.2.UniqueKeys

def CleanFrame : Frame → Prop
  | .list items => ∀ x ∈ items, x.UniqueKeys
  | .map entries key => CleanEntries entries ∧ ∀ e ∈ entries, e.1 ≠ key

/-- A state in which nothing is repeated so far. -/
def Clean : Reading → Prop
  | .value context => ∀ f ∈ context, CleanFrame f
  | .firstItem context => ∀ f ∈ context, CleanFrame f
  | .nextItem items context => (∀ x ∈ items, x.UniqueKeys) ∧ ∀ f ∈ context, CleanFrame f
  | .afterItem items context => (∀ x ∈ items, x.UniqueKeys) ∧ ∀ f ∈ context, CleanFrame f
  | .firstKey context => ∀ f ∈ context, CleanFrame f
  | .nextKey entries context => CleanEntries entries ∧ ∀ f ∈ context, CleanFrame f
  | .colon entries key context =>
    CleanFrame (.map entries key) ∧ ∀ f ∈ context, CleanFrame f
  | .afterEntry entries context => CleanEntries entries ∧ ∀ f ∈ context, CleanFrame f
  | .complete json => json.UniqueKeys

theorem clean_afterValue {json : Json} (hj : json.UniqueKeys)
    (hc : ∀ f ∈ context, CleanFrame f) : (afterValue json context).Clean := by
  cases context with
  | nil => exact hj
  | cons f context =>
    obtain ⟨hf, hr⟩ := List.forall_mem_cons.mp hc
    cases f with
    | list items => exact ⟨List.forall_mem_cons.mpr ⟨hj, hf⟩, hr⟩
    | map entries key =>
      obtain ⟨⟨hn, hu⟩, hk⟩ := hf
      refine ⟨⟨?_, List.forall_mem_cons.mpr ⟨hj, hu⟩⟩, hr⟩
      refine List.nodup_cons.mpr ⟨fun hm => ?_, hn⟩
      obtain ⟨e, he, hek⟩ := List.mem_map.mp hm
      exact hk e he hek

theorem clean_of_stepValue (hc : ∀ f ∈ context, CleanFrame f)
    (h : stepValue .data context x = .ok next) : next.Clean := by
  have scalar : ∀ json : Json, json.parts = [] → .ok (afterValue json context) =
      (.ok next : Except ReadFault Reading) → next.Clean := by
    intro json hp h
    obtain rfl := Except.ok.inj h
    exact clean_afterValue (Json.uniqueKeys_of_parts_eq_nil hp) hc
  unfold stepValue at h
  dsimp only at h
  split at h
  · cases h
  · cases h
  · exact scalar _ rfl h
  · exact scalar _ rfl h
  · refine scalar _ ?_ h
    rw [ReadMode.number, Json.ofNumeral]
    split <;> rfl
  · exact scalar _ rfl h
  · split at h <;> cases h
    exact hc
  · split at h <;> cases h
    exact hc
  · cases h

theorem clean_of_stepKey {entries : List (String × Json)} {atEnd : SyntaxCause}
    (he : CleanEntries entries) (hc : ∀ f ∈ context, CleanFrame f)
    (h : stepKey .data entries context atEnd x = .ok next) : next.Clean := by
  unfold stepKey at h
  dsimp only at h
  split at h
  · split at h <;> cases h
  · cases h
  · split at h
    · cases h
    · rename_i hn
      cases h
      refine ⟨⟨he, fun e hm hk => hn ⟨rfl, ?_⟩⟩, hc⟩
      exact List.any_eq_true.mpr ⟨e, hm, by simpa using hk⟩
  · cases h

theorem cleanFrame_nil : CleanFrame (.list []) := fun _ h => nomatch h

theorem cleanEntries_nil : CleanEntries [] := ⟨List.nodup_nil, fun _ h => nomatch h⟩

theorem clean_of_step (hs : state.Clean) (h : step .data state x = .ok next) : next.Clean := by
  unfold step at h
  split at h
  · exact clean_of_stepValue hs h
  · split at h
    · cases h
      exact clean_afterValue (Json.uniqueKeys_of_parts_eq_nil rfl) hs
    · cases h
    · exact clean_of_stepValue (List.forall_mem_cons.mpr ⟨cleanFrame_nil, hs⟩) h
  · obtain ⟨hi, hc⟩ := hs
    split at h
    · cases h
    · cases h
    · refine clean_of_stepValue (List.forall_mem_cons.mpr ⟨?_, hc⟩) h
      exact hi
  · obtain ⟨hi, hc⟩ := hs
    split at h <;> cases h
    · exact ⟨hi, hc⟩
    · exact clean_afterValue (Json.uniqueKeys_list_iff.mpr (by simpa using hi)) hc
  · split at h
    · cases h
      exact clean_afterValue (Json.uniqueKeys_of_parts_eq_nil rfl) hs
    · exact clean_of_stepKey cleanEntries_nil hs h
  · split at h
    · cases h
    · exact clean_of_stepKey hs.1 hs.2 h
  · split at h <;> cases h
    exact List.forall_mem_cons.mpr hs
  · obtain ⟨⟨hn, hu⟩, hc⟩ := hs
    dsimp only at h
    split at h <;> cases h
    · exact ⟨⟨hn, hu⟩, hc⟩
    · refine clean_afterValue (Json.uniqueKeys_map_iff.mpr ⟨?_, by simpa using hu⟩) hc
      rw [List.map_reverse]
      exact List.nodup_reverse.mpr hn
  · cases h

theorem uniqueKeys_of_walk {cut : ReadFault} {out : Json × List Char} (hs : state.Clean)
    (h : walk (step .data) cut state rest xs = .ok out) : out.1.UniqueKeys := by
  fun_induction walk (step .data) cut state rest xs with
  | case1 =>
    cases h
    exact hs
  | case2 => cases h
  | case3 _ _ _ _ _ _ hn ih => exact ih (clean_of_step hs hn) h
  | case4 => cases h

theorem uniqueKeys_of_run {out : Json × List Char} (hs : state.Clean)
    (h : run state cs = .ok out) : out.1.UniqueKeys := by
  obtain ⟨⟨json, rest⟩, hp, rfl⟩ := map_eq_ok_iff.mp h
  exact (uniqueKeys_of_walk hs hp : json.UniqueKeys)

end Reading

end ShapeCodec
