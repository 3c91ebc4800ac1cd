import ShapeCodec.Proofs.Json.Complete

/-! # What is read is a text of the grammar

A first pass that comes to its end has passed over the text of a value wherever it waited for one.
Each state is looked at once, for what can stand before it, and the recursion of values, lists and
maps follows the text, which gets shorter.
-/

namespace ShapeCodec

open Grammar Lexeme

namespace Reading

variable {state next : Reading} {context : List Frame} {cs : List Char} {out : Json × List Char}
  {items : List Json} {entries : List (String × Json)} {key : String}

/-! ## One lexeme -/

theorem step_broken_ne_ok {f : LexicalFault} {x : Lexeme} (hx : x.content = .broken f) :
    step .data state x ≠ .ok next := by
  have hkey : ∀ entries context atEnd, stepKey .data entries context atEnd x ≠ .ok next := by
    intro entries context atEnd
    unfold stepKey
    rw [hx]
    dsimp only
    split <;> nofun
  unfold step stepValue
  rw [hx]
  cases state with
  | firstKey context => exact hkey _ _ _
  | nextKey entries context => exact hkey _ _ _
  | _ => nofun

theorem step_finish_ne_ok {start rest : List Char} :
    step .data state ⟨.finish, start, rest⟩ ≠ .ok next := by
  cases state <;> nofun

theorem exists_token_of_run (h : run state cs = .ok out) :
    (∃ json, state = .complete json ∧ out = (json, cs.dropWhile Numeral.isBlank)) ∨
    ∃ start t after next, Blanks cs start ∧ TokenText start t after ∧ after.length < cs.length ∧
      ofChars cs = ⟨.token t, start, after⟩ :: ofChars after ∧
      step .data state ⟨.token t, start, after⟩ = .ok next ∧ run next after = .ok out := by
  by_cases hc : ∃ json, state = .complete json
  · obtain ⟨json, rfl⟩ := hc
    rw [run_complete] at h
    exact .inl ⟨json, rfl, (Except.ok.inj h).symm⟩
  rw [not_exists] at hc
  right
  rcases ofChars_cases cs with ⟨-, hx⟩ | ⟨f, start, hx⟩ | ⟨start, t, after, hb, ht, hlt, hx⟩
  · cases hs : step .data state ⟨.finish, [], []⟩ with
    | ok next => exact (step_finish_ne_ok hs).elim
    | error f =>
      rw [run_of_step_error hx hc hs] at h
      cases h
  · cases hs : step .data state ⟨.broken f, start, []⟩ with
    | ok next => exact (step_broken_ne_ok rfl hs).elim
    | error f =>
      rw [run_of_step_error hx hc hs] at h
      cases h
  · cases hs : step .data state ⟨.token t, start, after⟩ with
    | ok next =>
      rw [run_of_step hx hs] at h
      exact ⟨start, t, after, next, hb, ht, hlt, hx, hs, h⟩
    | error f =>
      rw [run_of_step_error hx hc hs] at h
      cases h

/-! ## States inside brackets -/

theorem exists_of_afterItem (h : run (.afterItem items context) cs = .ok out) :
    ∃ after, after.length < cs.length ∧
      ((Blanks cs (',' :: after) ∧ run (.nextItem items context) after = .ok out) ∨
        (Blanks cs (']' :: after) ∧
          run (afterValue (.list items.reverse) context) after = .ok out)) := by
  obtain ⟨_, hs, -⟩ | ⟨start, t, after, next, hb, ht, hlt, -, hs, h⟩ := exists_token_of_run h
  · cases hs
  · cases ht with
    | comma =>
      cases hs
      exact ⟨after, hlt, .inl ⟨hb, h⟩⟩
    | closeList =>
      cases hs
      exact ⟨after, hlt, .inr ⟨hb, h⟩⟩
    | _ => cases hs

theorem exists_of_afterEntry (h : run (.afterEntry entries context) cs = .ok out) :
    ∃ after, after.length < cs.length ∧
      ((Blanks cs (',' :: after) ∧ run (.nextKey entries context) after = .ok out) ∨
        (Blanks cs ('}' :: after) ∧
          run (afterValue (.map entries.reverse) context) after = .ok out)) := by
  obtain ⟨_, hs, -⟩ | ⟨start, t, after, next, hb, ht, hlt, -, hs, h⟩ := exists_token_of_run h
  · cases hs
  · cases ht with
    | comma =>
      cases hs
      exact ⟨after, hlt, .inl ⟨hb, h⟩⟩
    | closeMap =>
      cases hs
      exact ⟨after, hlt, .inr ⟨hb, h⟩⟩
    | _ => cases hs

theorem run_value_of_nextItem (h : run (.nextItem items context) cs = .ok out) :
    run (.value (.list items :: context)) cs = .ok out := by
  obtain ⟨_, hs, -⟩ | ⟨start, t, after, next, hb, ht, hlt, hx, hs, h⟩ := exists_token_of_run h
  · cases hs
  · have hn : step .data (.value (.list items :: context)) ⟨.token t, start, after⟩ = .ok next := by
      cases ht with
      | closeList => cases hs
      | _ => exact hs
    exact (run_of_step hx hn).trans h

theorem exists_of_firstItem (h : run (.firstItem context) cs = .ok out) :
    (∃ after, Blanks cs (']' :: after) ∧ after.length < cs.length ∧
      run (afterValue (.list []) context) after = .ok out) ∨
    run (.value (.list [] :: context)) cs = .ok out := by
  obtain ⟨_, hs, -⟩ | ⟨start, t, after, next, hb, ht, hlt, hx, hs, h⟩ := exists_token_of_run h
  · cases hs
  · cases ht with
    | closeList =>
      cases hs
      exact .inl ⟨after, hb, hlt, h⟩
    | _ =>
      right
      have hn : step .data (.value (.list [] :: context)) _ = .ok next := hs
      exact (run_of_step hx hn).trans h

theorem exists_of_firstKey (h : run (.firstKey context) cs = .ok out) :
    (∃ after, Blanks cs ('}' :: after) ∧ after.length < cs.length ∧
      run (afterValue (.map []) context) after = .ok out) ∨
    run (.nextKey [] context) cs = .ok out := by
  obtain ⟨_, hs, -⟩ | ⟨start, t, after, next, hb, ht, hlt, hx, hs, h⟩ := exists_token_of_run h
  · cases hs
  · cases ht with
    | closeMap =>
      cases hs
      exact .inl ⟨after, hb, hlt, h⟩
    | str hstr =>
      right
      have hn : step .data (.nextKey [] context) ⟨.token (.str _), _, after⟩ = .ok next := hs
      exact (run_of_step hx hn).trans h
    | _ => cases hs

theorem exists_of_nextKey (h : run (.nextKey entries context) cs = .ok out) :
    ∃ start s stop after, Blanks cs ('"' :: start) ∧ StringText start s stop ∧
      Blanks stop (':' :: after) ∧ after.length < cs.length ∧
      run (.value (.map entries (String.ofList s) :: context)) after = .ok out := by
  obtain ⟨_, hs, -⟩ | ⟨start, t, stop, next, hb, ht, hlt, -, hs, h⟩ := exists_token_of_run h
  · cases hs
  · cases ht with
    | @str start s _ hstr =>
      have hn : next = .colon entries (String.ofList s) context := by
        change (if _ then _ else _) = _ at hs
        split at hs
        · cases hs
        · exact (Except.ok.inj hs).symm
      subst hn
      obtain ⟨_, hs, -⟩ | ⟨colon, t, after, next, hc, ht, hlt', -, hs, h⟩ := exists_token_of_run h
      · cases hs
      · cases ht with
        | colon =>
          cases hs
          exact ⟨start, s, stop, after, hb, hstr, hc, hlt'.trans hlt, h⟩
        | _ => cases hs
    | _ => cases hs

/-! ## Values, lists and maps -/

mutual

/-- Where a value is waited for, the text begins with one. -/
theorem exists_value_of_run {context : List Frame} {cs : List Char} (hc : context.length ≤ maxDepth)
    (h : run (.value context) cs = .ok out) : ∃ start j rest, Blanks cs start ∧
      ValueText start j rest ∧ context.length + j.depth ≤ maxDepth ∧ rest.length < cs.length ∧
        run (afterValue j context) rest = .ok out := by
  obtain ⟨_, hs, -⟩ | ⟨start, t, after, next, hb, ht, hlt, -, hs, h⟩ := exists_token_of_run h
  · cases hs
  · cases ht with
    | null =>
      cases hs
      exact ⟨_, .null, after, hb, .null, hc, hlt, h⟩
    | true =>
      cases hs
      exact ⟨_, .bool true, after, hb, .true, hc, hlt, h⟩
    | false =>
      cases hs
      exact ⟨_, .bool false, after, hb, .false, hc, hlt, h⟩
    | number hn =>
      cases hs
      refine ⟨_, _, after, hb, valueText_ofNumeral hn, ?_, hlt, h⟩
      rw [Json.depth_ofNumeral]
      exact hc
    | str hstr =>
      cases hs
      exact ⟨_, .str _, after, hb, .str hstr, hc, hlt, h⟩
    | openList =>
      change (if _ then _ else _) = _ at hs
      split at hs
      · rename_i hopen
        cases hs
        rcases exists_of_firstItem h with ⟨rest, hr, hl, h⟩ | h
        · exact ⟨_, .list [], rest, hb, .emptyList hr, hopen, hl.trans hlt, h⟩
        · obtain ⟨xs, rest, hxs, hd, hl, h⟩ := exists_items_of_run hopen h
          exact ⟨_, .list xs, rest, hb, .list hxs, Json.add_depth_list_le_iff.mpr ⟨hopen, hd⟩,
            hl.trans hlt, h⟩
      · cases hs
    | openMap =>
      change (if _ then _ else _) = _ at hs
      split at hs
      · rename_i hopen
        cases hs
        rcases exists_of_firstKey h with ⟨rest, hr, hl, h⟩ | h
        · exact ⟨_, .map [], rest, hb, .emptyMap hr, hopen, hl.trans hlt, h⟩
        · obtain ⟨es, rest, hes, hd, hl, h⟩ := exists_entries_of_run hopen h
          exact ⟨_, .map es, rest, hb, .map hes, Json.add_depth_map_le_iff.mpr ⟨hopen, hd⟩,
            hl.trans hlt, h⟩
      · cases hs
    | _ => cases hs
termination_by 2 * cs.length
decreasing_by all_goals omega

theorem exists_items_of_run {context : List Frame} {items : List Json} {cs : List Char}
    (hc : context.length < maxDepth)
    (h : run (.value (.list items :: context)) cs = .ok out) :
    ∃ xs rest, Separated (Padded ValueText) ']' cs xs rest ∧
      (∀ x ∈ xs, context.length + 1 + x.depth ≤ maxDepth) ∧ rest.length < cs.length ∧
        run (afterValue (.list (items.reverse ++ xs)) context) rest = .ok out := by
  have hroom : (Frame.list items :: context).length ≤ maxDepth := hc
  obtain ⟨start, j, stop, hb, hj, hd, hlt, h⟩ := exists_value_of_run hroom h
  obtain ⟨after, hla, ⟨ha, h⟩ | ⟨ha, h⟩⟩ := exists_of_afterItem h
  · obtain ⟨xs, rest, hxs, hds, hlr, h⟩ := exists_items_of_run hc (run_value_of_nextItem h)
    refine ⟨j :: xs, rest, .next (.mk hb hj ha) hxs, List.forall_mem_cons.mpr ⟨hd, hds⟩,
      by omega, ?_⟩
    rwa [List.reverse_cons, List.append_assoc] at h
  · refine ⟨[j], after, .last (.mk hb hj ha), List.forall_mem_singleton.mpr hd, by omega, ?_⟩
    rwa [List.reverse_cons] at h
termination_by 2 * cs.length + 1
decreasing_by all_goals omega

theorem exists_entries_of_run {context : List Frame} {entries : List (String × Json)}
    {cs : List Char} (hc : context.length < maxDepth)
    (h : run (.nextKey entries context) cs = .ok out) :
    ∃ es rest, Separated (EntryText ValueText) '}' cs es rest ∧
      (∀ e ∈ es, context.length + 1 + e.2.depth ≤ maxDepth) ∧ rest.length < cs.length ∧
        run (afterValue (.map (entries.reverse ++ es)) context) rest = .ok out := by
  obtain ⟨start, s, stop, colon, hb, hs, hsc, hlc, h⟩ := exists_of_nextKey h
  have hroom : (Frame.map entries (String.ofList s) :: context).length ≤ maxDepth := hc
  obtain ⟨begin, j, behind, hj, hv, hd, hlt, h⟩ := exists_value_of_run hroom h
  obtain ⟨after, hla, ⟨ha, h⟩ | ⟨ha, h⟩⟩ := exists_of_afterEntry h
  · obtain ⟨es, rest, hes, hds, hlr, h⟩ := exists_entries_of_run hc h
    refine ⟨(String.ofList s, j) :: es, rest, .next (.mk hb hs hsc (.mk hj hv ha)) hes,
      List.forall_mem_cons.mpr ⟨hd, hds⟩, by omega, ?_⟩
    rwa [List.reverse_cons, List.append_assoc] at h
  · refine ⟨[(String.ofList s, j)], after, .last (.mk hb hs hsc (.mk hj hv ha)),
      List.forall_mem_singleton.mpr hd, by omega, ?_⟩
    rwa [List.reverse_cons] at h
termination_by 2 * cs.length + 1
decreasing_by all_goals omega

end

/-- Where the first pass comes through, the text begins with a value of the grammar that nests at
most 127 brackets and repeats no key. -/
theorem padded_of_run {j : Json} {rest : List Char} (h : run (.value []) cs = .ok (j, rest)) :
    Padded ValueText cs j rest ∧ j.depth ≤ maxDepth ∧ j.UniqueKeys := by
  have hroom : ([] : List Frame).length ≤ maxDepth := Nat.zero_le _
  have hu : j.UniqueKeys := uniqueKeys_of_run (show Clean (.value []) from nofun) h
  obtain ⟨start, i, after, hb, hi, hd, -, hrun⟩ := exists_value_of_run hroom h
  obtain ⟨json, hs, he⟩ | ⟨_, t, _, _, _, ht, _, _, hs, _⟩ := exists_token_of_run hrun
  · obtain rfl := complete.inj hs
    obtain ⟨rfl, rfl⟩ := Prod.mk.inj he
    rw [List.length_nil, Nat.zero_add] at hd
    exact ⟨.mk hb hi (blanks_dropWhile after), hd, hu⟩
  · cases hs

end Reading

end ShapeCodec
