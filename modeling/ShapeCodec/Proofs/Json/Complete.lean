import ShapeCodec.Proofs.Json.Kept
import ShapeCodec.Proofs.Json.Lexemes
import ShapeCodec.Proofs.Json.Reading

/-! # Texts of the grammar are read

The text of a value takes the reader from a state that waits for a value to the state behind that
value. The brackets that are open around it are a parameter, and there must be room for those that
it opens itself. This is said of every walk through the states, since data and documents are read
by the same steps.
-/

namespace ShapeCodec

open Grammar Lexeme

namespace Reading

def context : Reading → List Frame
  | .value context => context
  | .firstItem context => context
  | .nextItem _ context => context
  | .afterItem _ context => context
  | .firstKey context => context
  | .nextKey _ context => context
  | .colon _ _ context => context
  | .afterEntry _ context => context
  | .complete _ => []

/-- A way through the states with a text before it. It passes over white space and takes the steps
of its mode, except for those that it has something against. -/
structure Walk (mode : ReadMode) (α : Type) where
  go : Reading → List Char → α
  Permits : Reading → Token → Prop
  blanks : ∀ {state cs rest}, Blanks cs rest → go state cs = go state rest
  step : ∀ {state next t cs rest}, Permits state t → TokenText cs t rest →
    (∀ n, t = .number n → Numeral.Ends rest) →
    Reading.step mode state ⟨.token t, cs, rest⟩ = .ok next → go state cs = go next rest

variable {mode : ReadMode} {α : Type}

def Walk.Free (w : Walk mode α) (context : List Frame) : Prop :=
  ∀ state t, context <:+ state.context → w.Permits state t

theorem Walk.Free.cons {w : Walk mode α} {context : List Frame} (h : w.Free context) (f : Frame) :
    w.Free (f :: context) := fun state t hs => h state t ((List.suffix_cons f context).trans hs)

theorem Awaits.free {w : Walk mode α} {state : Reading} {context : List Frame}
    (h : Awaits state context) (hf : w.Free state.context) : w.Free context := by
  cases h with
  | value => exact hf
  | firstItem => exact hf.cons _
  | nextItem => exact hf.cons _

variable (w : Walk mode α) {state next : Reading} {context : List Frame} {cs rest : List Char}

/-! ## White space and lexemes -/

theorem ends_of_blanks (h : Blanks cs rest) (hr : Numeral.Ends rest) : Numeral.Ends cs := by
  cases h with
  | refl => exact hr
  | cons hc _ =>
    rintro c ⟨⟩
    rcases hc with rfl | rfl | rfl | rfl <;> decide

theorem ends_cons {c : Char} (hc : c = ',' ∨ c = ']' ∨ c = '}') (rest : List Char) :
    Numeral.Ends (c :: rest) := by
  rintro _ ⟨⟩
  rcases hc with rfl | rfl | rfl <;> decide

theorem go_token (ha : Awaits state context) {t : Token} (hp : w.Permits state t)
    (ht : TokenText cs t rest) (hn : ∀ n, t = .number n → Numeral.Ends rest)
    (hc : t ≠ .closeList)
    (hs : ∀ start, stepValue mode context ⟨.token t, start, rest⟩ = .ok next) :
    w.go state cs = w.go next rest :=
  w.step hp ht hn ((ha.step_eq rfl hc).trans (hs cs))

/-! ## Values -/

/-- The text of a value is read as that value, wherever one is waited for and all steps are free. -/
def Reads (k : Json) : Prop :=
  ∀ {state : Reading} {context : List Frame} {cs rest : List Char}, KeptText cs k rest →
    Awaits state context → w.Free state.context → context.length + k.depth ≤ maxDepth →
    Numeral.Ends rest → w.go state cs = w.go (afterValue (mode.tree k) context) rest

variable {w} {done : List (String × Json)}

theorem go_padded {k : Json} (hk : Reads w k) (h : Padded KeptText cs k rest)
    (ha : Awaits state context) (hf : w.Free state.context)
    (hd : context.length + k.depth ≤ maxDepth) (hr : Numeral.Ends rest) :
    w.go state cs = w.go (afterValue (mode.tree k) context) rest := by
  obtain ⟨hb, hv, hs⟩ := h
  rw [w.blanks hb, hk hv ha hf hd (ends_of_blanks hs hr), w.blanks hs]

theorem go_items {xs items : List Json} (h : Separated (Padded KeptText) ']' cs xs rest)
    (hx : ∀ x ∈ xs, Reads w x) (hd : ∀ x ∈ xs, context.length + 1 + x.depth ≤ maxDepth)
    (ha : Awaits state (.list items :: context)) (hs : w.Free state.context)
    (hf : w.Free context) :
    w.go state cs =
      w.go (afterValue (.list (items.reverse ++ xs.map mode.tree)) context) rest := by
  induction h generalizing state items with
  | @last x cs rest h =>
    have hends := ends_cons (.inr (.inl rfl)) rest
    rw [go_padded (hx x (by simp)) h ha hs (hd x (by simp)) hends, afterValue,
      w.step (hf _ _ (List.suffix_refl _)) .closeList nofun rfl, List.reverse_cons]
    rfl
  | @next x xs cs mid rest h _ ih =>
    obtain ⟨hx, hxs⟩ := List.forall_mem_cons.mp hx
    obtain ⟨hd, hds⟩ := List.forall_mem_cons.mp hd
    have hends := ends_cons (.inl rfl) mid
    rw [go_padded hx h ha hs hd hends, afterValue,
      w.step (hf _ _ (List.suffix_refl _)) .comma nofun rfl, ih hxs hds .nextItem hf,
      List.reverse_cons, List.append_assoc]
    rfl

theorem go_entry {e : String × Json} (h : EntryText KeptText cs e rest)
    (ha : AwaitsKey state done context) (hkey : w.Permits state (.str e.1))
    (hcolon : w.Permits (.colon done e.1 context) .colon)
    (hn : mode = .data → ∀ f ∈ done, f.1 ≠ e.1)
    (hv : ∀ cs, Padded KeptText cs e.2 rest → w.go (.value (.map done e.1 :: context)) cs =
      w.go (.afterEntry ((e.1, mode.tree e.2) :: done) context) rest) :
    w.go state cs = w.go (.afterEntry ((e.1, mode.tree e.2) :: done) context) rest := by
  obtain ⟨hb, hs, hc, hj⟩ := h
  rw [w.blanks hb, w.step hkey (.str hs) nofun (ha.step_eq rfl hn), w.blanks hc,
    w.step hcolon .colon nofun rfl]
  exact hv _ hj

theorem go_entries {es : List (String × Json)} (once : String → Prop)
    (h : Separated (EntryText KeptText) '}' cs es rest)
    (he : ∀ e ∈ es, ∀ {state done cs rest}, AwaitsKey state done context →
      (once e.1 → ∀ f ∈ done, f.1 ≠ e.1) → EntryText KeptText cs e rest → Numeral.Ends rest →
      w.go state cs = w.go (.afterEntry ((e.1, mode.tree e.2) :: done) context) rest)
    (hafter : ∀ done t, w.Permits (.afterEntry done context) t)
    (hn : es.Pairwise fun e f => once f.1 → e.1 ≠ f.1)
    (hk : ∀ e ∈ es, once e.1 → ∀ f ∈ done, f.1 ≠ e.1) (ha : AwaitsKey state done context) :
    w.go state cs = w.go (afterValue
      (.map (done.reverse ++ es.map fun e => (e.1, mode.tree e.2))) context) rest := by
  induction h generalizing state done with
  | @last e cs rest h =>
    have hends := ends_cons (.inr (.inr rfl)) rest
    rw [he e (by simp) ha (hk e (by simp)) h hends, w.step (hafter _ _) .closeMap nofun rfl,
      List.reverse_cons]
    rfl
  | @next e es cs mid rest h _ ih =>
    obtain ⟨he, hes⟩ := List.forall_mem_cons.mp he
    obtain ⟨hke, hks⟩ := List.forall_mem_cons.mp hk
    obtain ⟨hne, hn⟩ := List.pairwise_cons.mp hn
    have hks : ∀ f ∈ es, once f.1 → ∀ g ∈ (e.1, mode.tree e.2) :: done, g.1 ≠ f.1 := by
      intro f hf ho
      exact List.forall_mem_cons.mpr ⟨hne f hf ho, hks f hf ho⟩
    have hends := ends_cons (.inl rfl) mid
    rw [he ha hke h hends, w.step (hafter _ _) .comma nofun rfl, ih hes hn hks .next,
      List.reverse_cons, List.append_assoc]
    rfl

theorem reads {k : Json} (hu : mode = .data → k.UniqueKeys) : Reads w k := by
  induction k using Json.inductionParts with
  | step k ih =>
  intro state context cs rest h ha hs hd hr
  have part : ∀ p ∈ k.parts, Reads w p := fun p hp => ih p hp fun hm => (hu hm).part hp
  have hf : w.Free context := ha.free hs
  have permits : ∀ t, w.Permits state t := fun t => hs state t (List.suffix_refl _)
  have scalar : ∀ {j : Json} {t : Token}, TokenText cs t rest → t ≠ .closeList →
      j.withIntegers = j → (∀ start, stepValue mode context ⟨.token t, start, rest⟩ =
        .ok (afterValue j context)) →
      w.go state cs = w.go (afterValue (mode.tree j) context) rest := by
    intro j t ht hc hj hstep
    rw [mode.tree_of_scalar hj]
    exact go_token w ha (permits t) ht (fun _ _ => hr) hc hstep
  cases h with
  | null => exact scalar .null nofun rfl fun _ => rfl
  | true => exact scalar .true nofun rfl fun _ => rfl
  | false => exact scalar .false nofun rfl fun _ => rfl
  | str hstr => exact scalar (.str hstr) nofun rfl fun _ => rfl
  | number h =>
    rw [mode.tree_number]
    exact go_token w ha (permits _) (.number h) (fun _ _ => hr) nofun fun _ => rfl
  | emptyList h =>
    have hopen : context.length < maxDepth := hd
    rw [go_token w ha (permits _) .openList nofun nofun fun _ => if_pos hopen, w.blanks h,
      w.step (hf _ _ (List.suffix_refl _)) .closeList nofun rfl, mode.tree_list]
    rfl
  | emptyMap h =>
    have hopen : context.length < maxDepth := hd
    rw [go_token w ha (permits _) .openMap nofun nofun fun _ => if_pos hopen, w.blanks h,
      w.step (hf _ _ (List.suffix_refl _)) .closeMap nofun rfl, mode.tree_map]
    rfl
  | list h =>
    obtain ⟨hopen, hdepth⟩ := Json.add_depth_list_le_iff.mp hd
    rw [go_token w ha (permits _) .openList nofun nofun fun _ => if_pos hopen, mode.tree_list]
    exact go_items h part hdepth .firstItem hf hf
  | @map es _ _ h =>
    obtain ⟨hopen, hdepth⟩ := Json.add_depth_map_le_iff.mp hd
    rw [go_token w ha (permits _) .openMap nofun nofun fun _ => if_pos hopen, mode.tree_map]
    refine go_entries (fun _ => mode = .data) h (fun e he state done cs rest hk hn h hr => ?_)
      (fun _ _ => hf _ _ (List.suffix_refl _)) ?_ (fun _ _ _ => List.forall_mem_nil _) .first
    · have hfk : w.Free state.context := by cases hk <;> exact hf
      refine go_entry h hk (hfk _ _ (List.suffix_refl _)) (hf _ _ (List.suffix_refl _)) hn
        fun cs hj => ?_
      exact go_padded (part _ (Json.mem_parts_map he)) hj .value (hf.cons _) (hdepth e he) hr
    · by_cases hm : mode = .data
      · have hkeys := List.pairwise_map.mp (Json.uniqueKeys_map_iff.mp (hu hm)).1
        exact hkeys.imp fun h _ => h
      · exact List.pairwise_of_forall fun _ _ h => (hm h).elim

/-- The walk that reads the lexemes one after the other and looks at what stands behind the value no
further than to its white space. -/
def Walk.along {ε β : Type} (read : Reading → Lexeme → Except ε Reading) (cut : ε)
    (result : Json × List Char → β) (stops : ∀ json x next, read (.complete json) x ≠ .ok next)
    (hb : ∀ {cs rest}, Blanks cs rest → ∀ json, result (json, cs) = result (json, rest)) :
    Walk mode (Except ε β) where
  go state cs := (walk read cut state cs (ofChars cs)).map result
  Permits state t := ∀ cs rest next, Reading.step mode state ⟨.token t, cs, rest⟩ = .ok next →
    read state ⟨.token t, cs, rest⟩ = .ok next
  blanks h := walk_of_blanks h (hb h)
  step hp ht hn hs := by
    rw [ofChars_of_tokenText ht hn, walk_of_step (fun json => stops json _ _) (hp _ _ _ hs)]

def keyWalk : Walk .data (Except ReadFault (Json × List Char)) :=
  .along (Reading.step .data) ⟨.endInValue, none, .before []⟩ pastBlanks
    (by intro json x next h; cases h) pastBlanks_of_blanks

/-- The first pass comes through a text of the grammar that is not too deep and repeats no key. -/
theorem run_of_padded {j : Json} (h : Padded ValueText cs j rest) (hd : j.depth ≤ maxDepth)
    (hu : j.UniqueKeys) (hr : Numeral.Ends rest) :
    run (.value []) cs = run (.complete j) rest := by
  obtain ⟨hb, hv, ha⟩ := h
  obtain ⟨k, hk, rfl⟩ := hv.exists_kept
  rw [Json.depth_withIntegers] at hd
  exact go_padded (w := keyWalk) (reads fun _ => Json.uniqueKeys_withIntegers_iff.mp hu)
    (.mk hb hk ha) .value (fun _ _ _ _ _ _ hs => hs) (by simpa using hd) hr

end Reading

end ShapeCodec
