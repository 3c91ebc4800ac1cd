import Mathlib.Data.List.DropRight
import ShapeCodec.Json.Parsing
import ShapeCodec.Proofs.Json.NumberMaps
import ShapeCodec.Proofs.Json.Sound

/-! # The two passes

Where the first pass comes through a value, the second one comes through it to what the value stands
for, or fails in a map that is to stand for a number and does not. So a text is read as the first
pass goes through it, with numbers in the place of those maps; without such maps, one pass alone
would have done.
-/

namespace ShapeCodec

open Grammar Lexeme

namespace Reading

variable {state next state' : Reading} {context : List Frame} {cs cs' rest : List Char} {x : Lexeme}
  {out : Json × List Char} {items : List Json} {entries : List (String × Json)} {key : String}

/-! ## The second pass -/

def runParse (state : Reading) (cs : List Char) : Except ParseFault (Json × List Char) :=
  (readValue state cs).map pastBlanks

theorem stepParse_complete_ne_ok (json : Json) : stepParse (.complete json) x ≠ .ok next := nofun

theorem runParse_of_blanks (h : Blanks cs rest) : runParse state cs = runParse state rest :=
  walk_of_blanks h (pastBlanks_of_blanks h)

theorem runParse_complete (json : Json) (cs : List Char) :
    runParse (.complete json) cs = .ok (json, cs.dropWhile Numeral.isBlank) := by
  rw [runParse, readValue, walk_complete]
  rfl

theorem runParse_of_step (hx : ofChars cs = x :: ofChars x.rest)
    (h : stepParse state x = .ok next) : runParse state cs = runParse next x.rest := by
  rw [runParse, readValue, hx, walk_of_step (fun _ => stepParse_complete_ne_ok _) h]
  rfl

theorem runParse_of_step_error {xs : List Lexeme} {f : ParseFault} (hx : ofChars cs = x :: xs)
    (hc : ∀ json, state ≠ .complete json) (h : stepParse state x = .error f) :
    runParse state cs = .error f := by
  rw [runParse, readValue, hx, walk_of_step_error hc h]
  rfl

theorem runParse_of_token {t : Token} (hb : Blanks cs cs') (ht : TokenText cs' t rest)
    (hn : ∀ n, t ≠ .number n) (h : stepParse state ⟨.token t, cs', rest⟩ = .ok next) :
    runParse state cs = runParse next rest := by
  rw [runParse_of_blanks hb]
  exact runParse_of_step (ofChars_of_tokenText ht fun n h => (hn n h).elim) h

/-- The value that is waited for is not the one behind a number key. -/
def Plain (context : List Frame) : Prop := ∀ outer, context ≠ .map [] Json.numberKey :: outer

theorem stepParse_value (h : Plain context) :
    stepParse (.value context) x = stepPlain (.value context) x := by
  unfold stepParse
  split
  · rename_i key outer hs
    obtain rfl := value.inj hs
    refine if_neg ?_
    rintro rfl
    exact h outer rfl
  · rename_i hs
    cases hs
  · rfl

theorem stepParse_afterEntry {e : String × Json} (h : entries = [] → e.1 ≠ Json.numberKey) :
    stepParse (.afterEntry (e :: entries) context) x =
      stepPlain (.afterEntry (e :: entries) context) x := by
  unfold stepParse
  split
  · rename_i hs
    cases hs
  · rename_i hs
    cases hs
    exact if_neg (h rfl)
  · rfl

theorem stepPlain_of_step (h : step .values state x = .ok next) :
    stepPlain state x = .ok next := by
  rw [stepPlain, h]
  rfl

theorem runParse_key {start s stop : List Char} (ha : AwaitsKey state entries context)
    (before : Blanks cs ('"' :: start)) (hs : StringText start s stop)
    (after : Blanks stop (':' :: rest)) : runParse state cs =
      runParse (.value (.map entries (String.ofList s) :: context)) rest := by
  have hstep : ∀ x : Lexeme, x.content = .token (.str (String.ofList s)) →
      stepParse state x = .ok (.colon entries (String.ofList s) context) := by
    intro x hx
    have hplain : stepPlain state x = .ok (.colon entries (String.ofList s) context) :=
      stepPlain_of_step (ha.step_eq hx nofun)
    cases ha <;> exact hplain
  rw [runParse_of_token before (.str hs) nofun (hstep _ rfl)]
  exact runParse_of_token after .colon nofun rfl

/-- Where a value begins, all states that wait for one go on alike. -/
theorem runParse_of_awaits {outer : List Frame} (h : run (.value outer) cs = .ok out)
    (ha : Awaits state context) (hp : Plain context) :
    runParse state cs = runParse (.value context) cs := by
  obtain ⟨_, hs, -⟩ | ⟨start, t, after, next, -, -, -, hx, hs, -⟩ := exists_token_of_run h
  · cases hs
  · have hne : t ≠ .closeList := by
      rintro rfl
      cases hs
    have hstep : stepParse state ⟨.token t, start, after⟩ =
        stepParse (.value context) ⟨.token t, start, after⟩ := by
      have hvalue : step .values state ⟨.token t, start, after⟩ =
          stepValue .values context ⟨.token t, start, after⟩ := ha.step_eq rfl hne
      have hplain : stepPlain state ⟨.token t, start, after⟩ =
          stepPlain (.value context) ⟨.token t, start, after⟩ := congrArg (Except.mapError _) hvalue
      rw [stepParse_value hp]
      cases ha with
      | value => exact stepParse_value hp
      | _ => exact hplain
    cases hn : stepParse (.value context) ⟨.token t, start, after⟩ with
    | ok next =>
      exact (runParse_of_step hx (hstep.trans hn)).trans (runParse_of_step hx hn).symm
    | error f =>
      have hc : ∀ json, state ≠ .complete json := by
        rintro json rfl
        cases ha
      rw [runParse_of_step_error hx hc (hstep.trans hn),
        runParse_of_step_error hx (by nofun) hn]

/-! ## Following the first pass -/

/-- The second pass comes through a piece of the text to a state that its result leads to, or fails
with it. -/
def Comes {β : Type} (state : Reading) (cs : List Char) (result : Except Json.NumberMapFault β)
    (next : β → Reading) (rest : List Char) : Prop :=
  match result with
  | .ok b => runParse state cs = runParse (next b) rest
  | .error _ => ∃ f, runParse state cs = .error f

section Comes

variable {β γ : Type} {result : Except Json.NumberMapFault β} {reach : β → Reading}

theorem Comes.of_eq (h : Comes state' cs' result reach rest)
    (he : runParse state cs = runParse state' cs') : Comes state cs result reach rest := by
  cases result with
  | ok b => exact he.trans h
  | error e =>
    obtain ⟨f, hf⟩ := h
    exact ⟨f, he.trans hf⟩

theorem comes_error {e : Json.NumberMapFault} {f : ParseFault} (h : runParse state cs = .error f) :
    Comes (β := β) state cs (.error e) reach rest := ⟨f, h⟩

theorem Comes.bind {mid : List Char} {more : β → Except Json.NumberMapFault γ}
    {last : γ → Reading} (h : Comes state cs result reach mid)
    (hm : ∀ b, Comes (reach b) mid (more b) last rest) :
    Comes state cs (result >>= more) last rest := by
  cases result with
  | ok b => exact (hm b).of_eq h
  | error e => exact h

theorem Comes.map {f : β → γ} {last : γ → Reading}
    (h : Comes state cs result (fun b => last (f b)) rest) :
    Comes state cs (result.map f) last rest := by
  cases result with
  | ok b => exact h
  | error e => exact h

end Comes

/-- The second pass comes through a value to what it stands for, and behind a number key to the
number that it spells. -/
structure Follows (depth : Nat) (cs : List Char) (j : Json) (rest : List Char) : Prop where
  plain : ∀ context, context.length = depth → Plain context →
    Comes (.value context) cs (j.resolve .ofNumeral) (afterValue · context) rest
  number : ∀ context, Comes (.value (.map [] Json.numberKey :: context)) cs
    (Json.spelledNumber j []) (fun n => .afterEntry [(Json.numberKey, .ofNumeral n)] context) rest

theorem stepParse_number (context : List Frame) (x : Lexeme) :
    stepParse (.value (.map [] Json.numberKey :: context)) x = stepNumberText context x := by
  rw [stepParse]
  exact if_pos rfl

theorem stepParse_numberEnd (number : Json) (context : List Frame) (x : Lexeme) :
    stepParse (.afterEntry [(Json.numberKey, number)] context) x =
      stepNumberEnd number context x := by
  rw [stepParse]
  exact if_pos rfl

/-- Behind a number key only a string spells a number. -/
theorem exists_runParse_number_error {t : Token} {start after : List Char}
    (hx : ofChars cs = ⟨.token t, start, after⟩ :: ofChars after) (ht : ∀ s, t ≠ .str s)
    (context : List Frame) :
    ∃ f, runParse (.value (.map [] Json.numberKey :: context)) cs = .error f := by
  obtain ⟨f, hf⟩ : ∃ f, stepNumberText context ⟨.token t, start, after⟩ = .error f := by
    cases t with
    | str s => exact (ht s rfl).elim
    | number n =>
      rw [stepNumberText]
      dsimp only [otherKind?]
      cases n.word? <;> exact ⟨_, rfl⟩
    | _ => exact ⟨_, rfl⟩
  exact ⟨f, runParse_of_step_error hx (by nofun) ((stepParse_number context _).trans hf)⟩

theorem stepParse_of_stepValue (hp : Plain context)
    (hs : stepValue .values context x = .ok next) : stepParse (.value context) x = .ok next :=
  (stepParse_value hp).trans (stepPlain_of_step hs)

theorem follows_of_token {depth : Nat} {t : Token} {j : Json} {start after : List Char}
    (hx : ofChars cs = ⟨.token t, start, after⟩ :: ofChars after) (ht : ∀ s, t ≠ .str s)
    (hj : j.resolve .ofNumeral = .ok j) (hn : ∃ e, Json.spelledNumber j [] = .error e)
    (hs : ∀ context, stepValue .values context ⟨.token t, start, after⟩ =
      .ok (afterValue j context)) : Follows depth cs j after where
  plain context _ hp := by
    rw [hj]
    exact runParse_of_step hx (stepParse_of_stepValue hp (hs context))
  number context := by
    obtain ⟨e, he⟩ := hn
    rw [he]
    exact exists_runParse_number_error hx ht context

theorem follows_of_str {depth : Nat} {s : String} {start after : List Char}
    (hx : ofChars cs = ⟨.token (.str s), start, after⟩ :: ofChars after) :
    Follows depth cs (.str s) after where
  plain context _ hp := runParse_of_step hx (stepParse_of_stepValue hp rfl)
  number context := by
    have hstep := stepParse_number context ⟨.token (.str s), start, after⟩
    rw [stepNumberText] at hstep
    rw [Json.spelledNumber]
    dsimp only at hstep ⊢
    cases hn : Numeral.readString s with
    | ok n =>
      rw [hn] at hstep
      exact runParse_of_step hx hstep
    | error f =>
      rw [hn] at hstep
      exact comes_error (runParse_of_step_error hx (by nofun) hstep)

theorem follows_of_open {depth : Nat} {t : Token} {j : Json} {start after : List Char}
    {inner : List Frame → Reading}
    (hx : ofChars cs = ⟨.token t, start, after⟩ :: ofChars after) (ht : ∀ s, t ≠ .str s)
    (hn : ∃ e, Json.spelledNumber j [] = .error e)
    (hs : ∀ context, context.length = depth → stepValue .values context ⟨.token t, start, after⟩ =
      .ok (inner context))
    (hj : ∀ context, context.length = depth →
      Comes (inner context) after (j.resolve .ofNumeral) (afterValue · context) rest) :
    Follows depth cs j rest where
  plain context hl hp := (hj context hl).of_eq
    (runParse_of_step hx (stepParse_of_stepValue hp (hs context hl)))
  number context := by
    obtain ⟨e, he⟩ := hn
    rw [he]
    exact exists_runParse_number_error hx ht context

theorem plain_list (items : List Json) (context : List Frame) : Plain (.list items :: context) :=
  nofun

theorem plain_map (h : entries = [] → key ≠ Json.numberKey) (context : List Frame) :
    Plain (.map entries key :: context) := by
  rintro outer he
  obtain ⟨hf, -⟩ := List.cons.inj he
  obtain ⟨hentries, hkey⟩ := Frame.map.inj hf
  exact h hentries hkey

theorem spelledNumber_eq (j : Json) (es : List (String × Json)) :
    Json.spelledNumber j es = Json.spelledNumber j [] >>= fun n =>
      if es.isEmpty then .ok n else .error (.tooLong (es.length + 1)) := by
  cases j with
  | str s =>
    simp only [Json.spelledNumber]
    cases Numeral.readString s <;> rfl
  | _ => rfl

mutual

theorem exists_follows {context : List Frame} {cs : List Char}
    (h : run (.value context) cs = .ok out) : ∃ j rest, rest.length < cs.length ∧
      run (afterValue j context) rest = .ok out ∧ Follows context.length cs j rest := by
  obtain ⟨_, hs, -⟩ | ⟨start, t, after, next, hb, ht, hlt, hx, hs, h⟩ := exists_token_of_run h
  · cases hs
  · cases ht with
    | null =>
      cases hs
      exact ⟨_, after, hlt, h, follows_of_token hx nofun rfl ⟨_, rfl⟩ fun _ => rfl⟩
    | true =>
      cases hs
      exact ⟨_, after, hlt, h, follows_of_token hx nofun rfl ⟨_, rfl⟩ fun _ => rfl⟩
    | false =>
      cases hs
      exact ⟨_, after, hlt, h, follows_of_token hx nofun rfl ⟨_, rfl⟩ fun _ => rfl⟩
    | @number n written _ hn =>
      cases hs
      refine ⟨.ofNumeral n, after, hlt, h, follows_of_token hx nofun ?_ ?_ fun _ => rfl⟩
      · rw [Json.ofNumeral]
        split <;> rfl
      · rw [Json.ofNumeral]
        split <;> exact ⟨_, rfl⟩
    | str hstr =>
      cases hs
      exact ⟨_, after, hlt, h, follows_of_str hx⟩
    | openList =>
      change (if _ then _ else _) = _ at hs
      split at hs
      · rename_i hroom
        cases hs
        have hopen : ∀ context' : List Frame, context'.length = context.length →
            stepValue .values context' ⟨.token .openList, '[' :: after, after⟩ =
              .ok (.firstItem context') := by
          intro context' hl
          exact if_pos (hl ▸ hroom)
        rcases exists_of_firstItem h with ⟨rest, hr, hl, h⟩ | h
        · refine ⟨.list [], rest, hl.trans hlt, h,
            follows_of_open hx nofun ⟨_, rfl⟩ hopen fun context' _ => ?_⟩
          exact runParse_of_token hr .closeList nofun rfl
        · obtain ⟨xs, rest, hl, hrun, hf⟩ := exists_comes_items h
          refine ⟨.list xs, rest, hl.trans hlt, hrun,
            follows_of_open hx nofun ⟨_, rfl⟩ hopen fun context' hl => ?_⟩
          have hawaits : Awaits (.firstItem context') (.list [] :: context') := .firstItem
          have he := runParse_of_awaits h hawaits (plain_list _ _)
          exact Comes.map ((hf context' [] hl).of_eq he)
      · cases hs
    | openMap =>
      change (if _ then _ else _) = _ at hs
      split at hs
      · rename_i hroom
        cases hs
        have hopen : ∀ context' : List Frame, context'.length = context.length →
            stepValue .values context' ⟨.token .openMap, '{' :: after, after⟩ =
              .ok (.firstKey context') := by
          intro context' hl
          exact if_pos (hl ▸ hroom)
        rcases exists_of_firstKey h with ⟨rest, hr, hl, h⟩ | h
        · refine ⟨.map [], rest, hl.trans hlt, h,
            follows_of_open hx nofun ⟨_, rfl⟩ hopen fun context' _ => ?_⟩
          exact runParse_of_token hr .closeMap nofun rfl
        · obtain ⟨e, es, rest, hl, hrun, -, hf⟩ := exists_comes_entries h
          exact ⟨.map (e :: es), rest, hl.trans hlt, hrun,
            follows_of_open hx nofun ⟨_, rfl⟩ hopen fun context' hl => hf context' hl .first⟩
      · cases hs
    | _ => cases hs
termination_by 2 * cs.length
decreasing_by all_goals omega

theorem exists_comes_items {context : List Frame} {items : List Json} {cs : List Char}
    (h : run (.value (.list items :: context)) cs = .ok out) :
    ∃ xs rest, rest.length < cs.length ∧
      run (afterValue (.list (items.reverse ++ xs)) context) rest = .ok out ∧
      ∀ context' items', context'.length = context.length →
        Comes (.value (.list items' :: context')) cs (Json.resolveItems .ofNumeral xs)
          (fun ys => afterValue (.list (items'.reverse ++ ys)) context') rest := by
  obtain ⟨j, mid, hlt, h, hj⟩ := exists_follows h
  have first : ∀ (context' : List Frame) (items' : List Json), context'.length = context.length →
      Comes (.value (.list items' :: context')) cs (j.resolve .ofNumeral)
        (fun y => .afterItem (y :: items') context') mid :=
    fun context' items' hl => hj.plain _ (congrArg (· + 1) hl) (plain_list _ _)
  obtain ⟨after, hla, ⟨hb, h⟩ | ⟨hb, h⟩⟩ := exists_of_afterItem h
  · have hvalue := run_value_of_nextItem h
    obtain ⟨xs, rest, hlr, hrun, hxs⟩ := exists_comes_items hvalue
    refine ⟨j :: xs, rest, by omega, ?_, fun context' items' hl => ?_⟩
    · rwa [List.reverse_cons, List.append_assoc] at hrun
    · refine (first context' items' hl).bind fun y => ?_
      have hcomma : runParse (.afterItem (y :: items') context') mid =
          runParse (.nextItem (y :: items') context') after :=
        runParse_of_token hb .comma nofun rfl
      have hawaits : Awaits (.nextItem (y :: items') context') (.list (y :: items') :: context') :=
        .nextItem
      have hnext := runParse_of_awaits hvalue hawaits (plain_list _ context')
      refine ((hxs context' (y :: items') hl).of_eq (hcomma.trans hnext)).bind fun ys => ?_
      rw [List.reverse_cons, List.append_assoc]
      exact rfl
  · refine ⟨[j], after, by omega, ?_, fun context' items' hl => ?_⟩
    · rwa [List.reverse_cons] at h
    · refine (first context' items' hl).bind fun y => ?_
      have hclose : runParse (.afterItem (y :: items') context') mid =
          runParse (afterValue (.list (y :: items').reverse) context') after :=
        runParse_of_token hb .closeList nofun rfl
      rw [List.reverse_cons] at hclose
      exact hclose
termination_by 2 * cs.length + 1
decreasing_by all_goals omega

/-- The entries of a map, one of them at least, up to the end of the map. -/
theorem exists_comes_entries {context : List Frame} {entries : List (String × Json)}
    {cs : List Char} (h : run (.nextKey entries context) cs = .ok out) :
    ∃ e es rest, rest.length < cs.length ∧
      run (afterValue (.map (entries.reverse ++ e :: es)) context) rest = .ok out ∧
      (∀ context' f done, context'.length = context.length →
        Comes (.nextKey (f :: done) context') cs (Json.resolveEntries .ofNumeral (e :: es))
          (fun fs => afterValue (.map ((f :: done).reverse ++ fs)) context') rest) ∧
      ∀ {state : Reading} (context' : List Frame), context'.length = context.length →
        AwaitsKey state [] context' →
        Comes state cs ((Json.map (e :: es)).resolve .ofNumeral) (afterValue · context') rest := by
  obtain ⟨start, s, stop, colon, hb, hs, hc, hlc, h⟩ := exists_of_nextKey h
  obtain ⟨j, mid, hlt, h, hj⟩ := exists_follows h
  obtain ⟨es, rest, hlr, hrun, hmore, hend⟩ := exists_comes_tail h
  have value : ∀ (context' : List Frame) (done : List (String × Json)),
      context'.length = context.length → (done = [] → String.ofList s ≠ Json.numberKey) →
      Comes (.value (.map done (String.ofList s) :: context')) colon (j.resolve .ofNumeral)
        (fun y => .afterEntry ((String.ofList s, y) :: done) context') mid :=
    fun context' done hl hk => hj.plain _ (congrArg (· + 1) hl) (plain_map hk _)
  have entry : ∀ {state : Reading} (context' : List Frame) (done : List (String × Json)),
      context'.length = context.length → (done = [] → String.ofList s ≠ Json.numberKey) →
      AwaitsKey state done context' →
      Comes state cs (Json.resolveEntries .ofNumeral ((String.ofList s, j) :: es))
        (fun fs => afterValue (.map (done.reverse ++ fs)) context') rest := by
    intro state context' done hl hk ha
    refine ((value context' done hl hk).of_eq (runParse_key ha hb hs hc)).bind fun y => ?_
    refine (hmore context' (String.ofList s, y) done hl hk).bind fun fs => ?_
    rw [List.reverse_cons, List.append_assoc]
    exact rfl
  refine ⟨(String.ofList s, j), es, rest, by omega, ?_, fun context' f done hl => ?_, ?_⟩
  · rwa [List.reverse_cons, List.append_assoc] at hrun
  · exact entry context' (f :: done) hl nofun .next
  · intro state context' hl ha
    rw [Json.resolve, Json.numberOf?]
    split
    · rename_i n hn
      split at hn
      · rename_i hk
        obtain rfl := Option.some.inj hn
        have hnumber := hj.number context'
        rw [← hk] at hnumber
        rw [spelledNumber_eq]
        refine Comes.map ((hnumber.of_eq (runParse_key ha hb hs hc)).bind fun n => ?_)
        rw [hk]
        exact hend context' n
      · cases hn
    · rename_i hn
      split at hn
      · cases hn
      · rename_i hk
        exact Comes.map (entry context' [] hl (fun _ => hk) ha)
termination_by 2 * cs.length
decreasing_by all_goals omega

theorem exists_comes_tail {context : List Frame} {entries : List (String × Json)}
    {cs : List Char} (h : run (.afterEntry entries context) cs = .ok out) :
    ∃ es rest, rest.length < cs.length ∧
      run (afterValue (.map (entries.reverse ++ es)) context) rest = .ok out ∧
      (∀ context' f done, context'.length = context.length → (done = [] → f.1 ≠ Json.numberKey) →
        Comes (.afterEntry (f :: done) context') cs (Json.resolveEntries .ofNumeral es)
          (fun fs => afterValue (.map ((f :: done).reverse ++ fs)) context') rest) ∧
      ∀ context' n, Comes (.afterEntry [(Json.numberKey, .ofNumeral n)] context') cs
        (if es.isEmpty then .ok n else .error (.tooLong (es.length + 1)))
        (fun n => afterValue (.ofNumeral n) context') rest := by
  obtain ⟨after, hla, ⟨hb, h⟩ | ⟨hb, h⟩⟩ := exists_of_afterEntry h
  · obtain ⟨e, es, rest, hlr, hrun, hmore, -⟩ := exists_comes_entries h
    refine ⟨e :: es, rest, by omega, hrun, fun context' f done hl hk => ?_, fun context' n => ?_⟩
    · have hcomma : runParse (.afterEntry (f :: done) context') cs =
          runParse (.nextKey (f :: done) context') after :=
        runParse_of_token hb .comma nofun ((stepParse_afterEntry hk).trans rfl)
      exact (hmore context' f done hl).of_eq hcomma
    · have hcomma := runParse_of_step_error (ofChars_of_tokenText .comma nofun) (by nofun)
        (stepParse_numberEnd (.ofNumeral n) context' ⟨.token .comma, ',' :: after, after⟩)
      exact comes_error ((runParse_of_blanks hb).trans hcomma)
  · refine ⟨[], after, hla, ?_, fun context' f done hl hk => ?_, fun context' n => ?_⟩
    · rwa [List.append_nil]
    · have hclose : runParse (.afterEntry (f :: done) context') cs =
          runParse (afterValue (.map (f :: done).reverse) context') after :=
        runParse_of_token hb .closeMap nofun ((stepParse_afterEntry hk).trans rfl)
      rw [← List.append_nil (f :: done).reverse] at hclose
      exact hclose
    · exact runParse_of_token hb .closeMap nofun (stepParse_numberEnd _ _ _)
termination_by 2 * cs.length
decreasing_by all_goals omega

end

/-- Where the first pass comes through a text, the second one comes to what its tree stands for. -/
theorem comes_of_run {j : Json} (h : run (.value []) cs = .ok (j, rest)) :
    Comes (.value []) cs (j.resolve .ofNumeral) .complete rest := by
  obtain ⟨i, after, -, hrun, hf⟩ := exists_follows h
  obtain ⟨rfl, rfl⟩ := Prod.mk.inj (Except.ok.inj ((run_complete i after).symm.trans hrun))
  have hcomes := hf.plain [] rfl nofun
  cases hr : i.resolve .ofNumeral with
  | ok k =>
    rw [hr] at hcomes
    exact hcomes.trans (runParse_of_blanks (blanks_dropWhile after))
  | error e =>
    rw [hr] at hcomes
    exact hcomes

end Reading

namespace Json

open Reading

variable {text : String} {i j : Json} {rest : List Char}

/-! ## Reading -/

theorem finish_dropWhile (cs : List Char) (j : Json) (rest : List Char) :
    finish cs j (rest.dropWhile Numeral.isBlank) = finish cs j rest := by
  rw [finish, List.dropWhile_idempotent, finish]

theorem finish_eq_ok_iff {cs : List Char} :
    finish cs j rest = .ok i ↔ rest.dropWhile Numeral.isBlank = [] ∧ j = i := by
  unfold finish
  split <;> simp_all

theorem read_of_run_error {f : ReadFault} (h : run (.value []) text.toList = .error f) :
    read text = .error (f.toTextFault text.toList) := by
  have hdata : readData (.value []) text.toList = .error f := map_eq_error_iff.mp h
  rw [read, checkKeys, hdata]
  rfl

theorem read_of_run (h : run (.value []) text.toList = .ok (j, rest)) :
    match j.resolve .ofNumeral with
    | .ok i => read text = finish text.toList i rest
    | .error _ => ∃ f, read text = .error f := by
  have hu : j.UniqueKeys := uniqueKeys_of_run (show Clean (.value []) from nofun) h
  have hcomes := comes_of_run h
  obtain ⟨p, hdata, -⟩ := map_eq_ok_iff.mp h
  have hread : read text = parse text.toList := by
    rw [read, checkKeys, hdata]
    rfl
  rw [hread, parse]
  cases hr : j.resolve .ofNumeral with
  | ok i =>
    rw [hr] at hcomes
    obtain ⟨⟨k, after⟩, hvalue, hp⟩ := map_eq_ok_iff.mp (hcomes.trans (runParse_complete i rest))
    obtain ⟨rfl, hrest⟩ := Prod.mk.inj hp
    have hmerged := merged_of_uniqueKeys (uniqueKeys_of_resolve parts_ofNumeral hr hu)
    simp only [hvalue, hmerged]
    rw [← finish_dropWhile, hrest, finish_dropWhile]
  | error e =>
    rw [hr] at hcomes
    obtain ⟨f, hf⟩ := hcomes
    have hvalue : readValue (.value []) text.toList = .error f := map_eq_error_iff.mp hf
    exact ⟨f.toTextFault text.toList, by simp only [hvalue]⟩

theorem read_eq_ok_iff_run : read text = .ok i ↔
    ∃ j, run (.value []) text.toList = .ok (j, []) ∧ j.resolve .ofNumeral = .ok i := by
  constructor
  · intro h
    cases hrun : run (.value []) text.toList with
    | error f => cases (read_of_run_error hrun).symm.trans h
    | ok p =>
      obtain ⟨j, rest⟩ := p
      have hread := read_of_run hrun
      cases hr : j.resolve .ofNumeral with
      | error e =>
        rw [hr] at hread
        obtain ⟨f, hf⟩ := hread
        cases hf.symm.trans h
      | ok k =>
        rw [hr] at hread
        obtain ⟨hrest, rfl⟩ := finish_eq_ok_iff.mp (hread.symm.trans h)
        obtain ⟨⟨_, after⟩, -, hp⟩ := map_eq_ok_iff.mp hrun
        obtain ⟨rfl, rfl⟩ := Prod.mk.inj hp
        rw [List.dropWhile_idempotent] at hrest
        rw [hrest]
        exact ⟨_, rfl, hr⟩
  · rintro ⟨j, hrun, hr⟩
    have hread := read_of_run hrun
    rw [hr] at hread
    exact hread.trans (finish_eq_ok_iff.mpr ⟨rfl, rfl⟩)

/-- Reading in one pass: what the first pass goes through is taken for the value. -/
def readOnce (text : String) : Except TextFault Json :=
  match readData (.value []) text.toList with
  | .ok (json, rest) => finish text.toList json rest
  | .error f => .error (f.toTextFault text.toList)

/-- The two passes come to what one pass comes to, faults included, unless a map begins with the key
of a number. -/
theorem read_eq_readOnce (h : ∀ json rest, readData (.value []) text.toList = .ok (json, rest) →
    json.NumberMapFree) : read text = readOnce text := by
  rw [readOnce]
  cases hdata : readData (.value []) text.toList with
  | error f => exact read_of_run_error (map_eq_error_iff.mpr hdata)
  | ok p =>
    obtain ⟨json, rest⟩ := p
    have hread := read_of_run (map_eq_ok_iff.mpr ⟨_, hdata, rfl⟩)
    rw [resolve_of_numberMapFree (h json rest hdata)] at hread
    exact hread.trans (finish_dropWhile _ _ _)

/-! ## What is read -/

/-- What is read is spelled by the text, which nests at most 127 brackets and repeats no key. -/
theorem spelledBy_of_read (h : read text = .ok i) : ∃ j : Json, j.SpelledBy text.toList ∧
    j.depth ≤ maxDepth ∧ j.UniqueKeys ∧ j.resolve .ofNumeral = .ok i := by
  obtain ⟨j, hrun, hr⟩ := read_eq_ok_iff_run.mp h
  obtain ⟨hs, hd, hu⟩ := padded_of_run hrun
  exact ⟨j, hs, hd, hu, hr⟩

theorem run_of_spelledBy (h : j.SpelledBy text.toList) (hd : j.depth ≤ maxDepth)
    (hu : j.UniqueKeys) : run (.value []) text.toList = .ok (j, []) :=
  (run_of_padded h hd hu nofun).trans (run_complete j [])

theorem uniqueKeys_of_read (h : read text = .ok i) : i.UniqueKeys := by
  obtain ⟨j, -, -, hu, hr⟩ := spelledBy_of_read h
  exact uniqueKeys_of_resolve parts_ofNumeral hr hu

theorem numberMapFree_of_read (h : read text = .ok i) : i.NumberMapFree := by
  obtain ⟨j, -, -, -, hr⟩ := spelledBy_of_read h
  exact numberMapFree_of_resolve parts_ofNumeral hr

theorem depth_le_of_read (h : read text = .ok i) : i.depth ≤ maxDepth := by
  obtain ⟨j, -, hd, -, hr⟩ := spelledBy_of_read h
  exact (depth_le_of_resolve depth_ofNumeral hr).trans hd

/-- A tree without maps that stand for numbers is read from each of its texts. -/
theorem read_of_spelledBy (h : j.SpelledBy text.toList) (hd : j.depth ≤ maxDepth)
    (hu : j.UniqueKeys) (hn : j.NumberMapFree) : read text = .ok j :=
  read_eq_ok_iff_run.mpr ⟨j, run_of_spelledBy h hd hu, resolve_of_numberMapFree hn⟩

/-- A text is read exactly when the grammar spells a tree with it that nests at most 127 brackets
and repeats no key, and in which every map that begins with the key of a number spells one: it is
read as that tree with those numbers in it. So where no map begins with that key, the tree that is
read is the one that the text spells. -/
theorem read_eq_ok_iff (text : String) (j : Json) :
    (read text = .ok j ↔ ∃ k : Json, k.SpelledBy text.toList ∧ k.depth ≤ 127 ∧ k.UniqueKeys ∧
      k.resolve .ofNumeral = .ok j) ∧
    ((∀ k : Json, k.SpelledBy text.toList → k.NumberMapFree) →
      (read text = .ok j ↔ j.SpelledBy text.toList ∧ j.depth ≤ 127 ∧ j.UniqueKeys)) := by
  refine ⟨⟨spelledBy_of_read, ?_⟩, fun hfree => ⟨fun h => ?_, ?_⟩⟩
  · rintro ⟨k, hs, hd, hu, hr⟩
    exact read_eq_ok_iff_run.mpr ⟨k, run_of_spelledBy hs hd hu, hr⟩
  · obtain ⟨k, hs, hd, hu, hr⟩ := spelledBy_of_read h
    obtain rfl := Except.ok.inj ((resolve_of_numberMapFree (hfree k hs)).symm.trans hr)
    exact ⟨hs, hd, hu⟩
  · rintro ⟨hs, hd, hu⟩
    exact read_of_spelledBy hs hd hu (hfree j hs)

end Json

end ShapeCodec
