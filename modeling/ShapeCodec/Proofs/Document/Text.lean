import ShapeCodec.Document.Reading
import ShapeCodec.Proofs.Json.Complete

/-! # The text of a document

A document is read by the steps of data, but for two things: its numbers are kept and its keys may
be repeated, and a look is taken at its own tag on the way. Behind the tag, and inside every other
member, nothing is looked at until the whole text has been read.
-/

namespace ShapeCodec

open Grammar Lexeme Reading

namespace Document

/-- The tree that the reader of documents comes to. What follows it is not looked at. -/
def treeFrom (state : Reading) (cs : List Char) : Except Misplaced Json :=
  (readValue state cs).map (·.1)

theorem treeFrom_complete (json : Json) (cs : List Char) :
    treeFrom (.complete json) cs = .ok json := by
  rw [treeFrom, readValue, walk_complete]
  rfl

theorem step_complete_ne_ok (json : Json) (x : Lexeme) (next : Reading) :
    step (.complete json) x ≠ .ok next := nofun

def walk : Walk .document (Except Misplaced Json) :=
  .along step ⟨.syntaxFault .endInValue, [], .before []⟩ (·.1) step_complete_ne_ok
    fun _ _ => rfl

theorem permits_of_checkTop {state : Reading} {t : Token}
    (h : ∀ start rest, checkTop state ⟨.token t, start, rest⟩ = .ok ()) :
    walk.Permits state t := by
  intro start rest next hs
  rw [step, h start rest]
  exact mapError_eq_ok_iff.mpr hs

/-- Inside a member that is not the tag, no step is looked at. -/
theorem free_of_ne_type {done : List (String × Json)} {key : String} (hk : key ≠ "type") :
    walk.Free [.map done key] := by
  intro state t hs
  refine permits_of_checkTop fun start rest => ?_
  unfold checkTop
  split
  · have he := hs.eq_of_length rfl
    simp only [Reading.context, List.cons.injEq, Frame.map.injEq] at he
    exact (hk he.1.2).elim
  · simp [Reading.context] at hs
  · simp [Reading.context] at hs
  · rfl

variable {es : List (String × Json)} {cs rest : List Char}

theorem go_tag {done : List (String × Json)} {name : String} {tag : String × Tag}
    (ht : Tag.ofName name = .ok tag) (h : Padded KeptText cs (.str name) rest) :
    walk.go (.value [.map done "type"]) cs =
      walk.go (.afterEntry (("type", .str name) :: done) []) rest := by
  have permits : walk.Permits (.value [.map done "type"]) (.str name) :=
    permits_of_checkTop fun start rest => by simp only [checkTop, checkTag, ht]
  obtain ⟨hb, hv, ha⟩ := h
  cases hv with
  | str hs =>
    rw [walk.blanks hb, walk.step permits (.str hs) nofun rfl, walk.blanks ha]
    rfl

theorem permits_key {state : Reading} {done : List (String × Json)} {key : String}
    (h : AwaitsKey state done []) (hk : key = "type" → ∀ f ∈ done, f.1 ≠ key) :
    walk.Permits state (.str key) := by
  refine permits_of_checkTop fun start rest => ?_
  cases h with
  | first => rfl
  | next =>
    by_cases hkey : key = "type"
    · subst hkey
      refine if_neg fun hany => ?_
      obtain ⟨f, hf, he⟩ := List.any_eq_true.mp hany
      exact hk rfl f hf (by simpa using he)
    · unfold checkTop
      dsimp only
      split
      · rename_i hc
        cases hc
        exact (hkey rfl).elim
      · rfl

/-- A document is read as it is written when it has one tag at most, and that is a known one. -/
theorem treeFrom_of_kept (h : KeptText cs (.map es) rest) (hd : (Json.map es).depth ≤ maxDepth)
    (htag : ∀ e ∈ es, e.1 = "type" → ∃ name tag, e.2 = .str name ∧ Tag.ofName name = .ok tag)
    (hn : es.Pairwise fun e f => f.1 = "type" → e.1 ≠ f.1) :
    treeFrom (.value []) cs = .ok (.map es) := by
  have hroom : ([] : List Frame).length + (Json.map es).depth ≤ maxDepth := by simpa using hd
  obtain ⟨-, hdepth⟩ := Json.add_depth_map_le_iff.mp hroom
  have open_map : ∀ {cs}, walk.go (.value []) ('{' :: cs) = walk.go (.firstKey []) cs :=
    walk.step (permits_of_checkTop fun _ _ => rfl) .openMap nofun rfl
  cases h with
  | emptyMap hb =>
    have close_map : walk.go (.firstKey []) ('}' :: rest) = walk.go (.complete (.map [])) rest :=
      walk.step (permits_of_checkTop fun _ _ => rfl) .closeMap nofun rfl
    exact open_map.trans ((walk.blanks hb).trans (close_map.trans (treeFrom_complete _ rest)))
  | @map _ cs _ h =>
    have entry : ∀ e ∈ es, ∀ {state done cs rest}, AwaitsKey state done [] →
        (e.1 = "type" → ∀ f ∈ done, f.1 ≠ e.1) → EntryText KeptText cs e rest →
        Numeral.Ends rest → walk.go state cs = walk.go (.afterEntry (e :: done) []) rest := by
      intro e he state done cs rest hk hfresh h hr
      refine go_entry h hk (permits_key hk hfresh) (permits_of_checkTop fun _ _ => rfl) nofun
        fun cs hj => ?_
      obtain ⟨key, j⟩ := e
      by_cases hkey : key = "type"
      · subst hkey
        obtain ⟨name, tag, rfl, htag⟩ := htag _ he rfl
        exact go_tag htag hj
      · have hreads : Reads walk j := by
          apply reads
          exact nofun
        exact go_padded hreads hj .value (free_of_ne_type hkey) (hdepth _ he) hr
    have entries : walk.go (.firstKey []) cs =
        walk.go (.complete (.map (es.map fun e => (e.1, e.2)))) rest :=
      go_entries (· = "type") h entry (fun _ _ => permits_of_checkTop fun _ _ => rfl) hn
        (fun _ _ _ => List.forall_mem_nil _) .first
    rw [List.map_id'] at entries
    exact open_map.trans (entries.trans (treeFrom_complete _ rest))

/-- A document with a known tag has the outline that its tree has. -/
theorem readOutline_of_kept {p : Outline} (h : Padded KeptText cs (.map es) rest)
    (hd : (Json.map es).depth ≤ maxDepth)
    (htag : ∀ e ∈ es, e.1 = "type" → ∃ name tag, e.2 = .str name ∧ Tag.ofName name = .ok tag)
    (hn : es.Pairwise fun e f => f.1 = "type" → e.1 ≠ f.1)
    (hp : Outline.ofJson (.map es) = .ok p) : readOutline cs = .ok p := by
  obtain ⟨hb, hv, -⟩ := h
  have htree : treeFrom (.value []) cs = .ok (.map es) := by
    rw [← treeFrom_of_kept hv hd htag hn]
    change walk.go (.value []) cs = walk.go (.value []) _
    exact walk.blanks hb
  obtain ⟨⟨j, after⟩, hrun, rfl⟩ := map_eq_ok_iff.mp htree
  rw [readOutline, hrun]
  exact mapError_eq_ok_iff.mpr hp

end Document

end ShapeCodec
