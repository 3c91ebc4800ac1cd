import Mathlib
import ShapeCodec.Proofs.Decoding.Cases
import ShapeCodec.Proofs.Gates
import ShapeCodec.Proofs.Shape.Parts

/-! # The two layouts of a record

A list gives the fields of a record by position and a map gives them by name. Where both give the
same fields they decode to the same record, although a list is refused by its length and a map by
the names that are missing.
-/

namespace ShapeCodec

namespace Shape

variable {o : Settings} {fs : List (Field Shape)} {xs : List Json} {vs : List (String × Value)}

/-! ## The least length -/

theorem leastFields_append_singleton (fs : List (Field Shape)) (f : Field Shape) :
    leastFields (fs ++ [f]) = if f.default?.isSome then leastFields fs else fs.length + 1 := by
  rw [leastFields, List.reverse_append, List.reverse_singleton, List.singleton_append,
    List.dropWhile_cons]
  split
  · rfl
  · simp

/-- A list is long enough when every field behind it has a default. -/
theorem leastFields_le_iff {k : Nat} :
    leastFields fs ≤ k ↔ ∀ f ∈ fs.drop k, f.default?.isSome = true := by
  induction fs using List.reverseRecOn with
  | nil => simp [leastFields]
  | append_singleton fs f ih =>
    rw [leastFields_append_singleton]
    by_cases hk : k ≤ fs.length
    · rw [List.drop_append_of_le_length hk, List.forall_mem_append, List.forall_mem_singleton, ← ih]
      split
      · rename_i hf
        simp [hf]
      · rename_i hf
        simpa [hf] using Nat.lt_succ_of_le hk
    · have hle : leastFields fs ≤ k :=
        ih.mpr (by simp [List.drop_eq_nil_of_le (Nat.le_of_not_le hk)])
      have hnil : (fs ++ [f]).drop k = [] := List.drop_eq_nil_of_le (by simp; omega)
      rw [hnil]
      split <;> simp <;> omega

/-! ## What is given -/

theorem fieldsOfList_cons (f : Field Shape) (fs : List (Field Shape)) (xs : List Json) :
    fieldsOfList (f :: fs) xs = xs[0]? :: fieldsOfList fs xs.tail := by
  cases xs <;> simp [fieldsOfList, List.replicate_succ]

theorem fieldsOfMap_cons {f : Field Shape} (hf : f.name ∉ fs.map (·.name)) (x : Json)
    (es : List (String × Json)) :
    fieldsOfMap (f :: fs) ((f.name, x) :: es) = some x :: fieldsOfMap fs es := by
  have hrest : ∀ g ∈ fs, (((f.name, x) :: es).find? (·.1 == g.name)).map (·.2) =
      (es.find? (·.1 == g.name)).map (·.2) := by
    intro g hg
    have hne : f.name ≠ g.name := fun he => hf (List.mem_map.mpr ⟨g, hg, he.symm⟩)
    rw [List.find?_cons_of_neg (by simpa using hne)]
  rw [fieldsOfMap, List.map_cons, List.map_congr_left hrest, fieldsOfMap]
  simp

theorem fieldsOfMap_zip (hn : (fs.map (·.name)).Nodup) (hl : xs.length ≤ fs.length) :
    fieldsOfMap fs ((fs.map (·.name)).zip xs) = fieldsOfList fs xs := by
  induction fs generalizing xs with
  | nil =>
    obtain rfl := List.length_eq_zero_iff.mp (Nat.le_zero.mp hl)
    rfl
  | cons f fs ih =>
    cases xs with
    | nil => simp [fieldsOfMap, fieldsOfList, List.replicate_succ]
    | cons x xs =>
      obtain ⟨hf, hn⟩ := List.nodup_cons.mp hn
      rw [List.map_cons, List.zip_cons_cons, fieldsOfMap_cons hf, fieldsOfList_cons,
        ih hn (Nat.le_of_succ_le_succ hl)]
      rfl

/-- The entries are the fields of a record that is laid out as a list: field by field what the
member at its place decodes to, or else its default. -/
def FilledFrom (o : Settings) (fs : List (Field Shape)) (xs : List Json)
    (vs : List (String × Value)) : Prop :=
  vs.length = fs.length ∧ ∀ (i : Nat) (f : Field Shape), fs[i]? = some f →
    ∃ w, vs[i]? = some (f.name, w) ∧ Fills o f xs[i]? w

theorem filledFrom_iff : List.Forall₂ (fun p w => w.1 = p.1.name ∧ Fills o p.1 p.2 w.2)
    (fs.zip (fieldsOfList fs xs)) vs ↔ FilledFrom o fs xs vs := by
  induction fs generalizing xs vs with
  | nil => simp [FilledFrom]
  | cons f fs ih =>
    cases vs with
    | nil => simp [FilledFrom, fieldsOfList_cons]
    | cons v vs =>
      -- the first place, then all others
      have hall := Nat.and_forall_add_one (p := fun i => ∀ g, (f :: fs)[i]? = some g →
        ∃ w, (v :: vs)[i]? = some (g.name, w) ∧ Fills o g xs[i]? w)
      rw [fieldsOfList_cons, List.zip_cons_cons, List.forall₂_cons, ih, FilledFrom, FilledFrom,
        ← hall]
      obtain ⟨n, v⟩ := v
      simp [and_assoc, and_left_comm]

theorem FilledFrom.default (h : FilledFrom o fs xs vs) {i : Nat} {f : Field Shape}
    (hi : xs.length ≤ i) (hf : fs[i]? = some f) :
    ∃ w, f.default? = some w ∧ vs[i]? = some (f.name, w) := by
  obtain ⟨w, hw, hfill⟩ := h.2 i f hf
  rcases hfill with ⟨x, hx, -⟩ | ⟨-, hd⟩
  · rw [List.getElem?_eq_none hi] at hx
    cases hx
  · exact ⟨w, hd, hw⟩

theorem FilledFrom.leastFields_le (h : FilledFrom o fs xs vs) : leastFields fs ≤ xs.length := by
  refine leastFields_le_iff.mpr fun f hf => ?_
  obtain ⟨i, hi⟩ := List.mem_iff_getElem?.mp hf
  rw [List.getElem?_drop] at hi
  obtain ⟨w, hw, -⟩ := h.default (Nat.le_add_right _ _) hi
  simp [hw]

theorem FilledFrom.names (h : FilledFrom o fs xs vs) : vs.map (·.1) = fs.map (·.name) := by
  refine List.ext_getElem? fun i => ?_
  rw [List.getElem?_map, List.getElem?_map]
  cases hf : fs[i]? with
  | none =>
    rw [List.getElem?_eq_none_iff] at hf
    simp [List.getElem?_eq_none (h.1 ▸ hf)]
  | some f =>
    obtain ⟨w, hw, -⟩ := h.2 i f hf
    simp [hw]

/-! ## Decoding -/

variable {name : String} {v : Value}

theorem decodeJson_record_list_eq_ok_iff :
    decodeJson o (record name fs) (.list xs) = .ok v ↔
      xs.length ≤ fs.length ∧ ∃ vs, FilledFrom o fs xs vs ∧ v = .record name vs := by
  rw [decodeJson_record_eq_ok_iff]
  constructor
  · rintro ⟨given, vs, ⟨_, hj, -⟩ | ⟨_, ⟨⟩, -, hl, rfl⟩, hv, rfl⟩
    · cases hj
    · exact ⟨hl, vs, filledFrom_iff.mp hv, rfl⟩
  · rintro ⟨hl, vs, hv, rfl⟩
    exact ⟨_, vs, .inr ⟨xs, rfl, hv.leastFields_le, hl, rfl⟩, filledFrom_iff.mpr hv, rfl⟩

theorem decodeJson_record_zip_eq_ok_iff (hn : (fs.map (·.name)).Nodup)
    (hl : xs.length ≤ fs.length) :
    decodeJson o (record name fs) (.map ((fs.map (·.name)).zip xs)) = .ok v ↔
      ∃ vs, FilledFrom o fs xs vs ∧ v = .record name vs := by
  rw [decodeJson_record_eq_ok_iff]
  constructor
  · rintro ⟨given, vs, ⟨_, ⟨⟩, -, rfl⟩ | ⟨_, hj, -⟩, hv, rfl⟩
    · rw [fieldsOfMap_zip hn hl, filledFrom_iff] at hv
      exact ⟨vs, hv, rfl⟩
    · cases hj
  · rintro ⟨vs, hv, rfl⟩
    have hnames : ∀ e ∈ (fs.map (·.name)).zip xs, ∃ f ∈ fs, f.name = e.1 := fun e he =>
      List.mem_map.mp (List.of_mem_zip he).1
    refine ⟨_, vs, .inl ⟨_, rfl, hnames, rfl⟩, ?_, rfl⟩
    rw [fieldsOfMap_zip hn hl]
    exact filledFrom_iff.mpr hv

end Shape

/-- The members of a list and the same members under the names of the first fields make the same
record or none. A list that is too long makes none, and neither does one that ends before a field
without a default. The fields behind the end of the list have their defaults. -/
theorem record_layouts_agree (o : Settings) (name : String) (fs : List (Field Shape))
    (xs : List Json) :
    (xs.length ≤ fs.length → ∀ v, decode o (.record name fs) (.list xs) = .ok v ↔
      decode o (.record name fs) (.map ((fs.map (·.name)).zip xs)) = .ok v) ∧
    (fs.length < xs.length → ∀ v, decode o (.record name fs) (.list xs) ≠ .ok v) ∧
    (∀ (i : Nat) (f : Field Shape), fs[i]? = some f → f.default? = none → xs.length ≤ i →
      ∀ v, decode o (.record name fs) (.list xs) ≠ .ok v) ∧
    ∀ v, decode o (.record name fs) (.list xs) = .ok v → ∃ vs, v = .record name vs ∧
      vs.map (·.1) = fs.map (·.name) ∧
      ∀ (i : Nat) (f : Field Shape), fs[i]? = some f → xs.length ≤ i →
        ∃ w, f.default? = some w ∧ vs[i]? = some (f.name, w) := by
  have hlist : ∀ v, decode o (.record name fs) (.list xs) = .ok v → xs.length ≤ fs.length ∧
      ∃ vs, Shape.FilledFrom o fs xs vs ∧ v = .record name vs := fun v h =>
    Shape.decodeJson_record_list_eq_ok_iff.mp (decode_eq_ok_iff.mp h).2
  refine ⟨?_, ?_, ?_, ?_⟩
  · intro hl v
    rw [decode_eq_ok_iff, decode_eq_ok_iff]
    refine and_congr_right fun hs => ?_
    have hn := Shape.nodup_of_checkable_record (Shape.satisfies_encodable_iff.mp hs).1
    rw [Shape.decodeJson_record_list_eq_ok_iff, and_iff_right hl,
      Shape.decodeJson_record_zip_eq_ok_iff hn hl]
  · intro hl v hv
    exact absurd (hlist v hv).1 (Nat.not_le_of_lt hl)
  · intro i f hf hd hi v hv
    obtain ⟨-, vs, h, -⟩ := hlist v hv
    obtain ⟨w, hw, -⟩ := h.default hi hf
    rw [hd] at hw
    cases hw
  · intro v hv
    obtain ⟨-, vs, h, rfl⟩ := hlist v hv
    exact ⟨vs, rfl, h.names, fun i f hf hi => h.default hi hf⟩

/-- Of three fields a list of two leaves the last one to its default. A list of one stops before a
field without a default, though the first field has one. -/
theorem record_layouts_agree_shorter :
    let fs : List (Field Shape) := [⟨"x", .int, some (.int 1)⟩, ⟨"y", .bool, none⟩,
      ⟨"z", .sequence .tuple .int, some (.sequence .tuple [.int 3])⟩]
    let v : Value :=
      .record "P" [("x", .int 5), ("y", .bool true), ("z", .sequence .tuple [.int 3])]
    decode .standard (.record "P" fs) (.list [.int 5, .bool true]) = .ok v ∧
      decode .standard (.record "P" fs) (.map [("x", .int 5), ("y", .bool true)]) = .ok v ∧
      (∀ w, decode .standard (.record "P" fs) (.list [.int 5]) ≠ .ok w) ∧
      (∀ w, decode .standard (.record "P" fs) (.list [.null, .null, .null, .null]) ≠ .ok w) ∧
      ∃ w, fs[2].default? = some w ∧ v.field? "z" = some w := by
  intro fs v
  have hv : decode .standard (.record "P" fs) (.list [.int 5, .bool true]) = .ok v := by cbv
  obtain ⟨hsame, -, -, hrest⟩ := record_layouts_agree .standard "P" fs [.int 5, .bool true]
  obtain ⟨-, -, hshort, -⟩ := record_layouts_agree .standard "P" fs [.int 5]
  obtain ⟨-, hlong, -, -⟩ := record_layouts_agree .standard "P" fs [.null, .null, .null, .null]
  obtain ⟨vs, hvs, -, hdefault⟩ := hrest v hv
  obtain ⟨w, hd, hw⟩ := hdefault 2 fs[2] rfl (by decide)
  obtain ⟨-, rfl⟩ := Value.record.inj hvs
  cases hw
  exact ⟨hv, (hsame (by decide) v).mp hv, hshort 1 _ rfl rfl (by decide), hlong (by decide), _, hd,
    rfl⟩

end ShapeCodec
