import ShapeCodec.Proofs.Diagnostics.Verdicts
import ShapeCodec.Proofs.Shape.Occurrences

/-! # What is said against encoding, place by place

The reasons against encoding a shape are those of its occurrences one after the other. An occurrence
is said not to be encodable after everything that occurs in it, and a key that can be encoded but
not hashed is said not to be keyable.
-/

namespace ShapeCodec

namespace Shape

/-! ## The reasons of an occurrence -/

def infiniteLiterals : Shape → List Literal
  | literal ls => ls.filter (!·.isEncodable)
  | _ => []

/-- What is said of a key beside what is said of its shape. -/
def keyReasons (isKey : Bool) (s : Shape) : List Reason :=
  if isKey && encodable s then keyFaults s else []

def Occurrence.encodeReasons (o : Occurrence) : List Reason :=
  o.shape.infiniteLiterals.map .infiniteLiteral ++
    (if encodable o.shape then [] else [.fails .encodable o.shape]) ++ keyReasons o.isKey o.shape

/-- A judgment that holds says nothing, so the reasons of a shape that fails are those inside and
its line. -/
theorem failing_eq_append {judgment : Judgment} {holds : Bool} {s : Shape} {inner : List Reason}
    (h : holds = true → inner = []) :
    failing judgment holds s inner = inner ++ if holds then [] else [.fails judgment s] := by
  cases holds with
  | true => rw [failing, if_pos rfl, if_pos rfl, h rfl]; rfl
  | false => rfl

theorem encodeFaultsAll_eq (ss : List Shape) : encodeFaultsAll ss = ss.flatMap encodeFaults := by
  induction ss with
  | nil => rfl
  | cons s ss ih => rw [encodeFaultsAll, ih, List.flatMap_cons]

theorem encodeFaultsFields_eq (fs : List (Field Shape)) :
    encodeFaultsFields fs = (fs.map (·.shape)).flatMap encodeFaults := by
  induction fs with
  | nil => rfl
  | cons f fs ih => rw [encodeFaultsFields, ih, List.map_cons, List.flatMap_cons]

theorem encodeFaultsKeys_eq (ks : List (Key Shape)) :
    encodeFaultsKeys ks = (ks.map (·.shape)).flatMap encodeFaults := by
  induction ks with
  | nil => rfl
  | cons k ks ih => rw [encodeFaultsKeys, ih, List.map_cons, List.flatMap_cons]

theorem encodeFaults_of_encodable {s : Shape} (h : encodable s = true) : encodeFaults s = [] :=
  (concludes_encodeFaults s).silent h

/-- The reasons inside a shape: of its parts from left to right and of its own literals. -/
def innerReasons (s : Shape) : List Reason :=
  (s.parts.zipIdx.flatMap fun q => encodeFaults q.1 ++ keyReasons (s.holdsKeyAt q.2) q.1) ++
    s.infiniteLiterals.map .infiniteLiteral

theorem innerReasons_of_no_key {s : Shape} (h : ∀ i, s.holdsKeyAt i = false) :
    s.innerReasons = s.parts.flatMap encodeFaults ++ s.infiniteLiterals.map .infiniteLiteral := by
  have hq : ∀ q : Shape × Nat, encodeFaults q.1 ++ keyReasons (s.holdsKeyAt q.2) q.1 =
      encodeFaults q.1 := fun q => by simp [keyReasons, h]
  have hz : s.parts.zipIdx.flatMap (fun q => encodeFaults q.1) = s.parts.flatMap encodeFaults := by
    conv_rhs => rw [← List.zipIdx_map_fst 0 s.parts, List.flatMap_map]
  rw [innerReasons, funext hq, hz]

theorem hashable_of_holdsKeyAt {s t : Shape} {i : Nat} (h : encodable s = true)
    (hk : s.holdsKeyAt i = true) (hi : s.parts[i]? = some t) : hashable t = true := by
  cases s with
  | mapping k key value =>
    cases i with
    | zero =>
      obtain rfl : key = t := Option.some.inj hi
      exact (encodable_iff.mp h).1
    | succ i => cases hk
  | _ => cases hk

theorem innerReasons_of_encodable {s : Shape} (h : encodable s = true) : s.innerReasons = [] := by
  have hl : s.infiniteLiterals = [] := by
    cases s with
    | literal ls => simpa [infiniteLiterals, encodable] using h
    | _ => rfl
  rw [innerReasons, hl, List.map_nil, List.append_nil, List.flatMap_eq_nil_iff]
  intro q hq
  have hpart : encodable q.1 = true := encodable_of_mem_parts h (List.fst_mem_of_mem_zipIdx hq)
  rw [encodeFaults_of_encodable hpart, List.nil_append, keyReasons, keyFaults]
  cases hk : s.holdsKeyAt q.2 with
  | false => rfl
  | true =>
    have hh : hashable q.1 = true :=
      hashable_of_holdsKeyAt h hk (List.mem_zipIdx_iff_getElem?.mp hq)
    rw [hh, failing, if_pos rfl, ite_self]

theorem encodeFaults_eq (s : Shape) :
    encodeFaults s = s.innerReasons ++ if encodable s then [] else [.fails .encodable s] := by
  rw [← failing_eq_append innerReasons_of_encodable]
  cases s with
  | mapping k key value =>
    simp [encodeFaults, innerReasons, keyReasons, parts, holdsKeyAt, infiniteLiterals]
  | _ =>
    rw [innerReasons_of_no_key fun _ => rfl]
    simp [encodeFaults, parts, infiniteLiterals, encodeFaultsAll_eq, encodeFaultsFields_eq,
      encodeFaultsKeys_eq]

/-- The reasons against encoding a shape are those of the occurrences, one after the other. -/
theorem flatMap_encodeReasons (isKey : Bool) (s : Shape) :
    (s.occurrencesAs isKey).flatMap Occurrence.encodeReasons =
      encodeFaults s ++ keyReasons isKey s := by
  induction s using inductionParts generalizing isKey with
  | step s ih =>
  have hparts : (s.parts.zipIdx.flatMap fun q => ((q.1.occurrencesAs (s.holdsKeyAt q.2)).map
      (Occurrence.under q.2)).flatMap Occurrence.encodeReasons) =
        s.parts.zipIdx.flatMap fun q => encodeFaults q.1 ++ keyReasons (s.holdsKeyAt q.2) q.1 := by
    apply List.flatMap_congr
    intro q hq
    rw [List.flatMap_map]
    exact ih q.1 (List.fst_mem_of_mem_zipIdx hq) (s.holdsKeyAt q.2)
  rw [occurrencesAs_eq, List.flatMap_append, List.flatMap_assoc, hparts, encodeFaults_eq,
    innerReasons, List.flatMap_singleton, Occurrence.encodeReasons]
  simp only [List.append_assoc]

/-! ## Lines and their places -/

/-- The lines of the reasons against encoding a shape, each with the place that it is said of. -/
def encodeTrail (s : Shape) : List (List Nat × String) :=
  s.occurrences.flatMap fun o => (o.encodeReasons.map Reason.text).map (o.place, ·)

theorem map_snd_encodeTrail (s : Shape) :
    s.encodeTrail.map (·.2) = (encodeFaults s).map Reason.text := by
  have hs : s.occurrences.flatMap Occurrence.encodeReasons = encodeFaults s := by
    rw [occurrences, flatMap_encodeReasons]
    exact List.append_nil _
  rw [encodeTrail, ← hs, List.map_flatMap, List.map_flatMap]
  simp [Function.comp_def]

theorem count_encodeTrail {s : Shape} {o : Occurrence} (ho : o ∈ s.occurrences) (line : String) :
    s.encodeTrail.count (o.place, line) = (o.encodeReasons.map Reason.text).count line := by
  have apart : s.occurrences.Pairwise fun o o' => o.place ≠ o'.place := by
    apply (pairwise_occurrencesAs false s).imp
    intro o o' h he
    exact h (he ▸ List.prefix_rfl)
  exact List.count_flatMap_pair apart ho line

theorem pairwise_encodeTrail (s : Shape) :
    s.encodeTrail.Pairwise fun a b => ¬ (a.1 <+: b.1 ∧ a.1 ≠ b.1) := by
  rw [encodeTrail, List.pairwise_flatMap]
  constructor
  · intro o _
    apply List.pairwise_map.mpr
    exact List.pairwise_of_forall fun _ _ h => h.2 rfl
  · apply (pairwise_occurrencesAs false s).imp
    intro o o' h a ha b hb hab
    obtain ⟨_, _, rfl⟩ := List.mem_map.mp ha
    obtain ⟨_, _, rfl⟩ := List.mem_map.mp hb
    exact h hab.1

/-! ### The lines of one occurrence -/

namespace Occurrence

theorem count_literalLines (s : Shape) (text ending : String) :
    ((s.infiniteLiterals.map Reason.infiniteLiteral).map Reason.text).count
      ("Type " ++ text ++ ending) = 0 := by
  rw [List.count_eq_zero]
  intro hm
  obtain ⟨_, hm, hl⟩ := List.mem_map.mp hm
  obtain ⟨l, -, rfl⟩ := List.mem_map.mp hm
  change "Literal value " ++ l.text ++ " is not JSON encodable." = _ at hl
  rw [String.append_assoc, String.append_assoc] at hl
  have := congrArg (·.toList.head?) hl
  simp at this

theorem encodableLine_ne_keyableLine (text : String) :
    "Type " ++ text ++ " is not JSON encodable." ≠ "Type " ++ text ++ " is not keyable." := by
  intro h
  have := (String.append_right_inj _).mp h
  simp at this

theorem map_text_encodeReasons (o : Occurrence) :
    o.encodeReasons.map Reason.text =
      (o.shape.infiniteLiterals.map Reason.infiniteLiteral).map Reason.text ++
      (if encodable o.shape then [] else ["Type " ++ o.shape.text ++ " is not JSON encodable."]) ++
      if o.isKey && encodable o.shape && !hashable o.shape then
        ["Type " ++ o.shape.text ++ " is not keyable."] else [] := by
  have he : (Reason.fails .encodable o.shape).text =
      "Type " ++ o.shape.text ++ " is not JSON encodable." := Reason.text_fails rfl
  have hk : (Reason.fails .keyable o.shape).text =
      "Type " ++ o.shape.text ++ " is not keyable." := Reason.text_fails rfl
  rw [encodeReasons, List.map_append, List.map_append, keyReasons, keyFaults, failing]
  cases encodable o.shape <;> cases hashable o.shape <;> cases o.isKey <;> simp [he, hk]

theorem count_encodableLine (o : Occurrence) :
    (o.encodeReasons.map Reason.text).count ("Type " ++ o.shape.text ++ " is not JSON encodable.") =
      if encodable o.shape then 0 else 1 := by
  have hne := encodableLine_ne_keyableLine o.shape.text
  rw [map_text_encodeReasons, List.count_append, List.count_append, count_literalLines]
  cases encodable o.shape <;> cases hashable o.shape <;> cases o.isKey <;>
    simp [hne.symm]

theorem count_keyableLine (o : Occurrence) :
    (o.encodeReasons.map Reason.text).count ("Type " ++ o.shape.text ++ " is not keyable.") =
      if o.isKey && encodable o.shape && !hashable o.shape then 1 else 0 := by
  have hne := encodableLine_ne_keyableLine o.shape.text
  rw [map_text_encodeReasons, List.count_append, List.count_append, count_literalLines]
  cases encodable o.shape <;> cases hashable o.shape <;> cases o.isKey <;>
    simp [hne]

end Occurrence

theorem holds_encodable {s : Shape} (h : checkable s = true) :
    (s.judge .encodable).holds = encodable s := by
  rw [judge, satisfies, h, Bool.true_and]

theorem holds_hashable {s : Shape} (h : checkable s = true) :
    (s.judge .hashable).holds = hashable s := by
  rw [judge, satisfies, h, Bool.true_and]

end Shape

/-- The lines against encoding a checkable shape can be given places of the shape. Each shape that
occurs has one line at its place if it is not encodable, and none if it is. A key that is encodable
and not hashable has one line at its place that says so. The lines of a place come before those of
the places that enclose it. -/
theorem encodability_reasons_by_place {s : Shape} (hs : (s.judge .checkable).holds = true) :
    ∃ trail : List (List Nat × String),
      (s.judge .encodable).log.reasons.map Reason.text = trail.map (·.2) ∧
      (∀ place t, s.at? place = some t →
        trail.count (place, "Type " ++ t.text ++ " is not JSON encodable.") =
          if (t.judge .encodable).holds then 0 else 1) ∧
      (∀ place kind key value, s.at? place = some (.mapping kind key value) →
        trail.count (place ++ [0], "Type " ++ key.text ++ " is not keyable.") =
          if (key.judge .encodable).holds && !(key.judge .hashable).holds then 1 else 0) ∧
      trail.Pairwise fun a b => ¬ (a.1 <+: b.1 ∧ a.1 ≠ b.1) := by
  have hc : s.checkable = true := hs
  have hlog : (s.judge .encodable).log.reasons = s.encodeFaults := if_pos hc
  refine ⟨s.encodeTrail, ?_, ?_, ?_, Shape.pairwise_encodeTrail s⟩
  · rw [hlog, Shape.map_snd_encodeTrail]
  · intro place t ht
    obtain ⟨key, hkey⟩ := Shape.exists_mem_occurrencesAs ht false
    rw [Shape.holds_encodable (Shape.checkable_of_at? hc ht),
      ← Shape.Occurrence.count_encodableLine ⟨place, t, key⟩]
    exact Shape.count_encodeTrail hkey _
  · intro place kind key value hm
    have hkey := Shape.key_mem_occurrencesAs hm false
    have hck : key.checkable = true :=
      Shape.checkable_of_mem_parts (Shape.checkable_of_at? hc hm) List.mem_cons_self
    have hline := Shape.Occurrence.count_keyableLine ⟨place ++ [0], key, true⟩
    rw [Bool.true_and] at hline
    rw [Shape.holds_encodable hck, Shape.holds_hashable hck, ← hline]
    exact Shape.count_encodeTrail hkey _

theorem encodability_reasons_by_place_list :
    let key := Shape.sequence .set .int
    let m := Shape.mapping .dict key .any
    let s := Shape.sequence .list m
    (s.judge .checkable).holds = true ∧ (s.judge .encodable).log.reasons.map Reason.text =
      ["Type Set[int] is not keyable.", "Type Any is not JSON encodable.",
        "Type Dict[Set[int], Any] is not JSON encodable.",
        "Type List[Dict[Set[int], Any]] is not JSON encodable."] ∧
      ∃ trail : List (List Nat × String),
        (s.judge .encodable).log.reasons.map Reason.text = trail.map (·.2) ∧
        trail.count ([0, 0], "Type " ++ key.text ++ " is not keyable.") = 1 ∧
        trail.count ([0, 1], "Type " ++ Shape.any.text ++ " is not JSON encodable.") = 1 ∧
        trail.count ([0], "Type " ++ m.text ++ " is not JSON encodable.") = 1 ∧
        trail.count ([], "Type " ++ s.text ++ " is not JSON encodable.") = 1 := by
  intro key m s
  have hs : (s.judge .checkable).holds = true := rfl
  obtain ⟨trail, htrail, hlines, hkeys, -⟩ := encodability_reasons_by_place hs
  refine ⟨hs, by decide, trail, htrail, ?_, ?_, ?_, ?_⟩
  · exact hkeys [0] .dict key .any rfl
  · exact hlines [0, 1] .any rfl
  · exact hlines [0] m rfl
  · exact hlines [] s rfl

/-- A key that is neither encodable nor hashable is not said not to be keyable. -/
theorem not_keyable_unsaid :
    let key := Shape.sequence .set .any
    let s := Shape.mapping .dict key .int
    (s.judge .checkable).holds = true ∧ (key.judge .hashable).holds = false ∧
      "Type " ++ key.text ++ " is not keyable." ∉
        (s.judge .encodable).log.reasons.map Reason.text := by
  decide

end ShapeCodec
