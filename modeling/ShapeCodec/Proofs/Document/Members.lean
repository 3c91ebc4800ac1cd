import ShapeCodec.Document.Form
import ShapeCodec.Proofs.Json.NumberMaps

/-! # Members in any order

Each member of an object is read into a place of its own. So the draft that comes out holds what
every known member is read as, whatever the order of the members and whatever stands between them.
-/

namespace ShapeCodec

@[simp] theorem need_eq_ok_iff {α : Type} {name : String} {given : Option α} {a : α} :
    need name given = .ok a ↔ given = some a := by
  cases given <;> simp [need]

namespace Node

theorem ofItems_eq (xs : List Json) : ofItems xs = xs.map ofJson := by
  induction xs with
  | nil => rfl
  | cons x xs ih => rw [ofItems, ih, List.map_cons]

theorem ofEntries_eq (es : List (String × Json)) :
    ofEntries es = es.map fun e => (e.1, ofJson e.2) := by
  induction es with
  | nil => rfl
  | cons e es ih => rw [ofEntries, ih, List.map_cons]

theorem json_ofJson (j : Json) : (ofJson j).json = j := by
  cases j with
  | number n =>
    rw [ofJson]
    cases n.word? <;> rfl
  | _ => rfl

theorem value_eq_ok_iff {j k : Json} : value j = .ok k ↔ j.resolve .number = .ok k :=
  mapError_eq_ok_iff

end Node

namespace Draft

variable {d d' : Draft} {n : Node} {slot : Slot}

theorem buildField_eq_ok {name : String} {p : Outline} (hn : d.name? = some name)
    (hp : d.inner? = some p) : d.buildField = .ok ⟨name, p, d.default?⟩ := by
  rw [buildField, hn, hp]
  rfl

theorem buildMember_eq_ok {name : String} {j : Json} (hn : d.name? = some name)
    (hj : d.literal? = some j) : d.buildMember = .ok ⟨name, j⟩ := by
  rw [buildMember, hn, hj]
  rfl

theorem buildKey_eq_ok {name : String} {p : Outline} (hn : d.name? = some name)
    (hp : d.inner? = some p) : d.buildKey = .ok ⟨name, p, d.required?.getD true⟩ := by
  rw [buildKey, hn, hp]
  rfl

def Takes (d : Draft) (n : Node) : Slot → Prop
  | .inner => ∃ p, n.shape () = .ok p ∧ d.inner? = some p
  | .key => ∃ p, n.shape () = .ok p ∧ d.key? = some p
  | .value => ∃ p, n.shape () = .ok p ∧ d.value? = some p
  | .items => ∃ ps, n.shapes () = .ok ps ∧ d.items? = some ps
  | .literals => ∃ js, Node.values n.json = .ok js ∧ d.literals? = some js
  | .name => ∃ s, Node.string n.json = .ok s ∧ d.name? = some s
  | .fields => ∃ fs, n.fields () = .ok fs ∧ d.fields? = some fs
  | .members => ∃ ms, n.members () = .ok ms ∧ d.members? = some ms
  | .keys => ∃ ks, n.keys () = .ok ks ∧ d.keys? = some ks
  | .literal => ∃ j, Node.value n.json = .ok j ∧ d.literal? = some j
  | .default => ∃ j, Node.value n.json = .ok j ∧ d.default? = some j
  | .required => ∃ b, Node.boolean n.json = .ok b ∧ d.required? = some b

/-- Reading a member fills its own place and no other. -/
theorem takes_of_read (h : d.read slot n = .ok d') :
    d'.Takes n slot ∧ ∀ other, other ≠ slot →
      (∀ m, d.Takes m other → d'.Takes m other) ∧ d'.has other = d.has other := by
  cases slot <;> simp only [read, bind_eq_ok_iff, pure_eq_ok_iff] at h
  all_goals
    obtain ⟨x, hx, rfl⟩ := h
    constructor
    · exact ⟨x, hx, rfl⟩
    · intro other ho
      cases other <;> first | exact (ho rfl).elim | exact ⟨fun _ => id, rfl⟩

theorem exists_read {e : Draft} (h : e.Takes n slot) (d : Draft) :
    ∃ d', d.read slot n = .ok d' := by
  cases slot <;> simp only [read, bind_eq_ok_iff, pure_eq_ok_iff]
  all_goals
    obtain ⟨x, hx, -⟩ := h
    exact ⟨_, x, hx, rfl⟩

end Draft

namespace Template

def slot? (t : Template) (name : String) : Option Slot :=
  (t.slots.find? (·.1 == name)).map (·.2)

variable {t : Template} {d : Draft} {ms : List (String × Node)}

/-- The members of an object fill a draft when each known one can be read and none comes twice. -/
theorem exists_fillNamed
    (hinj : ∀ a b slot, t.slot? a = some slot → t.slot? b = some slot → a = b)
    (hn : ms.Pairwise fun m n => (t.slot? n.1).isSome = true → m.1 ≠ n.1)
    (hr : ∀ m ∈ ms, ∀ slot, t.slot? m.1 = some slot →
      d.has slot = false ∧ ∃ e : Draft, e.Takes m.2 slot) :
    ∃ d', t.fillNamed d ms = .ok d' ∧
      (∀ m ∈ ms, ∀ slot, t.slot? m.1 = some slot → d'.Takes m.2 slot) ∧
      ∀ slot, (∀ m ∈ ms, t.slot? m.1 ≠ some slot) →
        (∀ n, d.Takes n slot → d'.Takes n slot) ∧ d'.has slot = d.has slot := by
  induction ms generalizing d with
  | nil => exact ⟨d, rfl, List.forall_mem_nil _, fun _ _ => ⟨fun _ => id, rfl⟩⟩
  | cons m ms ih =>
    obtain ⟨name, n⟩ := m
    obtain ⟨hne, hn⟩ := List.pairwise_cons.mp hn
    obtain ⟨hm, hms⟩ := List.forall_mem_cons.mp hr
    cases hf : t.slots.find? (·.1 == name) with
    | none =>
      have hs : t.slot? name = none := by rw [slot?, hf]; rfl
      obtain ⟨d', hd, htakes, hrest⟩ := ih hn hms
      refine ⟨d', ?_, List.forall_mem_cons.mpr ⟨fun slot h => ?_, htakes⟩, fun slot h => ?_⟩
      · rw [fillNamed, hf]
        exact hd
      · rw [hs] at h
        cases h
      · exact hrest slot (List.forall_mem_cons.mp h).2
    | some p =>
      obtain ⟨_, slot⟩ := p
      have hs : t.slot? name = some slot := by rw [slot?, hf]; rfl
      obtain ⟨hfree, e, he⟩ := hm slot hs
      obtain ⟨d₁, hd₁⟩ := Draft.exists_read he d
      obtain ⟨hown, hframe⟩ := Draft.takes_of_read hd₁
      -- a later member with this place would have this name
      have later : ∀ m ∈ ms, t.slot? m.1 ≠ some slot := fun m hm h =>
        hne m hm (by rw [h]; rfl) (hinj _ _ _ hs h)
      have hms' : ∀ m ∈ ms, ∀ other, t.slot? m.1 = some other →
          d₁.has other = false ∧ ∃ e : Draft, e.Takes m.2 other := by
        intro m hm other h
        have ho : other ≠ slot := by
          rintro rfl
          exact later m hm h
        rw [(hframe other ho).2]
        exact hms m hm other h
      obtain ⟨d', hd, htakes, hrest⟩ := ih hn hms'
      refine ⟨d', ?_, List.forall_mem_cons.mpr ⟨?_, htakes⟩, ?_⟩
      · rw [fillNamed, hf]
        dsimp only
        rw [hfree, if_neg Bool.false_ne_true, hd₁]
        exact hd
      · intro other h
        obtain rfl : slot = other := Option.some.inj (hs.symm.trans h)
        exact (hrest slot later).1 n hown
      · intro other h
        obtain ⟨hm, hms⟩ := List.forall_mem_cons.mp h
        have ho : other ≠ slot := by
          rintro rfl
          exact hm hs
        obtain ⟨htakes, hhas⟩ := hrest other hms
        obtain ⟨htakes₁, hhas₁⟩ := hframe other ho
        exact ⟨fun n hn => htakes n (htakes₁ n hn), hhas.trans hhas₁⟩

end Template

end ShapeCodec
