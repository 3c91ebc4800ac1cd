import Mathlib
import ShapeCodec.Proofs.Decoding.Soundness
import ShapeCodec.Proofs.Encoding.Walk
import ShapeCodec.Proofs.Gates
import ShapeCodec.Proofs.Shape.Criteria

/-! # Nothing mutable in keys

What occurs in an instance of a shape is an instance of a shape that occurs there. An instance of a
hashable shape has therefore nothing in it that can change, and neither have the keys of a map that
is decoded.
-/

namespace ShapeCodec

namespace Value

/-- A value that can change: a list, a deque, a set or a map. -/
def Mutable : Value → Prop
  | sequence k _ => k = .list ∨ k = .deque ∨ k = .set
  | map _ _ => True
  | _ => False

/-- A value in which nothing can change, at any depth. -/
def Immutable (v : Value) : Prop := ∀ w, Within w v → ¬ w.Mutable

end Value

namespace Shape

variable {o : Settings} {s t u : Shape} {v w : Value}

/-! ## The shapes of what occurs in an instance -/

/-- The shapes that an instance is made of: those that occur, the one of the empty branch of an
optional shape and the one of the keys of a typed dict. -/
def Covers (s t : Shape) : Prop := Within t s ∨ t = none ∨ t = str

theorem Covers.trans (h : s.Covers t) (h' : t.Covers u) : s.Covers u := by
  rcases h' with hu | hu
  · rcases h with ht | rfl | rfl
    · exact .inl (hu.trans ht)
    · exact .inr (.inl (hu.eq_of_parts_eq_nil rfl))
    · exact .inr (.inr (hu.eq_of_parts_eq_nil rfl))
  · exact .inr hu

/-- An instance of a shape is an instance of a shape without branches. -/
theorem exists_unbranched (hv : s.conforms o v = true) :
    ∃ t, s.Covers t ∧ t.branches? = Option.none ∧ t.conforms o v = true := by
  induction s using inductionParts with
  | step s ih =>
  cases hb : s.branches? with
  | none => exact ⟨s, .inl .here, hb, hv⟩
  | some ss =>
    obtain ⟨b, hf⟩ := exists_branch hb hv
    have hc : b.conforms o v = true := by simpa using List.find?_some hf
    rcases mem_parts_of_branches? hb (List.mem_of_find?_eq_some hf) with hp | rfl
    · obtain ⟨t, ht, h⟩ := ih b hp hc
      exact ⟨t, .trans (.inl (.part hp .here)) ht, h⟩
    · exact ⟨none, .inr (.inl rfl), rfl, hc⟩

/-- The parts of an instance are instances of the parts of its shape, but for the keys of a typed
dict, which are texts. -/
theorem exists_conforms_of_mem_parts {p : Value} (hb : s.branches? = Option.none) (ha : s ≠ any)
    (hv : s.conforms o v = true) (hp : p ∈ v.parts) :
    ∃ t, s.Covers t ∧ t.conforms o p = true := by
  have part : ∀ {t}, t ∈ s.parts → s.Covers t := fun ht => .inl (.part ht .here)
  cases s with
  | any => exact (ha rfl).elim
  | optional s => cases hb
  | union ss => cases hb
  | sequence k s =>
    obtain ⟨xs, rfl, hx⟩ := conforms_sequence_iff.mp hv
    exact ⟨s, part (by simp), hx p hp⟩
  | tuple ss =>
    obtain ⟨xs, rfl, hx⟩ := conforms_tuple_iff.mp hv
    obtain ⟨t, ht, hp⟩ := hx.exists_of_mem_right hp
    exact ⟨t, part ht, hp⟩
  | mapping k key value =>
    obtain ⟨l, es, rfl, -, he⟩ := conforms_mapping_iff.mp hv
    rcases List.mem_append.mp hp with hp | hp <;> obtain ⟨e, hm, rfl⟩ := List.mem_map.mp hp
    · exact ⟨key, part (by simp), (he e hm).1⟩
    · exact ⟨value, part (by simp), (he e hm).2⟩
  | record name fs =>
    obtain ⟨n, vs, rfl, hx⟩ := conforms_record_iff.mp hv
    obtain ⟨q, hq, rfl⟩ := List.mem_map.mp hp
    obtain ⟨f, hf, -, hc⟩ := hx.exists_of_mem_right hq
    exact ⟨f.shape, part (mem_parts_record hf), hc⟩
  | typedDict name ks =>
    obtain ⟨l, es, rfl, he, -⟩ := conforms_typedDict_iff.mp hv
    rcases List.mem_append.mp hp with hp | hp <;> obtain ⟨e, hm, rfl⟩ := List.mem_map.mp hp <;>
      obtain ⟨n, k, hn, hk, hc⟩ := he e hm
    · exact ⟨str, .inr (.inr rfl), conforms_str_iff.mpr ⟨n, hn⟩⟩
    · exact ⟨k.shape, part (mem_parts_typedDict (List.mem_of_find?_eq_some hk)), hc⟩
  | _ =>
    rw [parts_eq_nil_of_conforms hv ha rfl rfl] at hp
    cases hp

/-- What occurs in an instance is an instance of a shape that the shape covers. -/
theorem exists_covers_conforms (ha : ¬ s.Covers any) (hv : s.conforms o v = true)
    (hw : Value.Within w v) :
    ∃ t, s.Covers t ∧ t.branches? = Option.none ∧ t.conforms o w = true := by
  induction hw generalizing s with
  | here => exact exists_unbranched hv
  | part hp _ ih =>
    obtain ⟨t, ht, hb, hc⟩ := exists_unbranched hv
    obtain ⟨u, hu, hc⟩ := exists_conforms_of_mem_parts hb (by rintro rfl; exact ha ht) hc hp
    have hsu := ht.trans hu
    obtain ⟨r, hr, h⟩ := ih (fun h => ha (hsu.trans h)) hc
    exact ⟨r, hsu.trans hr, h⟩

/-! ## Hashable shapes -/

theorem not_mutable_of_fits {l : Literal} (h : l.fits v = true) : ¬ v.Mutable := by
  cases v <;> first | exact id | (cases l <;> simp [Literal.fits, Literal.toValue, Value.same] at h)

/-- Only a shape whose instances can change has an instance that can. -/
theorem mutable_of_conforms (hb : s.branches? = Option.none) (hv : s.conforms o v = true)
    (hm : v.Mutable) : s.Mutable := by
  cases s with
  | any => trivial
  | mapping k key value => trivial
  | typedDict name ks => trivial
  | optional s => cases hb
  | union ss => cases hb
  | sequence k s =>
    obtain ⟨xs, rfl, -⟩ := conforms_sequence_iff.mp hv
    exact hm
  | tuple ss =>
    obtain ⟨xs, rfl, -⟩ := conforms_tuple_iff.mp hv
    simp [Value.Mutable] at hm
  | literal ls =>
    obtain ⟨l, -, hl⟩ := conforms_literal_iff.mp hv
    exact not_mutable_of_fits hl hm
  | _ => cases v <;> first | exact hm | simp [conforms] at hv

theorem immutable_of_conforms (hs : s.hashable = true) (hv : s.conforms o v = true) :
    v.Immutable := by
  rw [hashable_iff_forall_within] at hs
  have hfixed : ∀ t, s.Covers t → ¬ t.Mutable := by
    rintro t (ht | rfl | rfl)
    · exact hs t ht
    · exact id
    · exact id
  intro w hw hm
  obtain ⟨t, ht, hb, hc⟩ := exists_covers_conforms (fun h => hfixed any h trivial) hv hw
  exact hfixed t ht (mutable_of_conforms hb hc hm)

/-! ## Keys -/

theorem conforms_map_cases {l : MapKind} {es : List (Value × Value)}
    (hb : s.branches? = Option.none) (hv : s.conforms o (.map l es) = true) :
    s = any ∨ (∃ k key value, s = mapping k key value) ∨ ∃ name ks, s = typedDict name ks := by
  cases s with
  | literal ls =>
    obtain ⟨l, -, hl⟩ := conforms_literal_iff.mp hv
    exact (not_mutable_of_fits hl trivial).elim
  | optional s => cases hb
  | union ss => cases hb
  | _ => first | (simp; done) | simp [conforms] at hv

/-- The keys of the maps in an instance of an encodable shape cannot change. -/
theorem immutable_key_of_conforms (hs : s.encodable = true) (hv : s.conforms o v = true)
    {l : MapKind} {es : List (Value × Value)} (hw : Value.Within (.map l es) v)
    {e : Value × Value} (he : e ∈ es) : e.1.Immutable := by
  rw [encodable_iff_forall_within] at hs
  have hany : ¬ s.Covers any := by
    rintro (h | h | h)
    · exact (hs any h).1 rfl
    · cases h
    · cases h
  obtain ⟨t, ht, hb, hc⟩ := exists_covers_conforms hany hv hw
  rcases conforms_map_cases hb hc with rfl | ⟨k, key, value, rfl⟩ | ⟨name, ks, rfl⟩
  · exact (hany ht).elim
  · have hkey : key.hashable = true := by
      rcases ht with ht | ht | ht
      · exact hashable_iff_forall_within.mpr ((hs _ ht).2.2 k key value rfl)
      · cases ht
      · cases ht
    obtain ⟨_, _, ⟨⟩, -, hc⟩ := conforms_mapping_iff.mp hc
    exact immutable_of_conforms hkey (hc e he).1
  · obtain ⟨_, _, ⟨⟩, hc, -⟩ := conforms_typedDict_iff.mp hc
    obtain ⟨n, k, hn, -⟩ := hc e he
    have hstr : str.conforms o e.1 = true := conforms_str_iff.mpr ⟨n, hn⟩
    exact immutable_of_conforms rfl hstr

end Shape

/-- In an instance of a hashable shape nothing can change, at any depth, and neither can anything in
the keys of the maps that are decoded. -/
theorem hashable_instances_immutable :
    (∀ (o : Settings) (s : Shape) (v : Value), (s.judge .hashable).holds = true →
      (∃ verdict, isInstance o s v = .ok verdict ∧ verdict.holds = true) → v.Immutable) ∧
    ∀ (o : Settings) (s : Shape) (j : Json) (v : Value), decode o s j = .ok v →
      ∀ l es, Value.Within (.map l es) v → ∀ e ∈ es, e.1.Immutable := by
  constructor
  · rintro o s v hs ⟨verdict, hi, hv⟩
    simp only [Shape.judge, Shape.satisfies, Bool.and_eq_true] at hs
    rw [isInstance_of_checkable hs.1] at hi
    cases hi
    exact Shape.immutable_of_conforms hs.2 hv
  · intro o s j v h l es hw e he
    obtain ⟨hs, hj⟩ := decode_eq_ok_iff.mp h
    rw [Shape.satisfies_encodable_iff] at hs
    have hv : s.conforms o v = true := Shape.conforms_of_decodeJson hs.1 hj
    exact Shape.immutable_key_of_conforms hs.2 hv hw he

theorem hashable_instances_immutable_nested :
    let key : Shape := .tuple [.sequence .frozenSet .int, .int]
    let k : Value := .sequence .tuple [.sequence .frozenSet [.int 1, .int 2], .int 3]
    let v : Value := .map .ordered [(k, .sequence .list [.none])]
    isInstance .standard key k = .ok ⟨true, ⟨[]⟩⟩ ∧ k.Immutable ∧
      decode .standard (.mapping .ordered key (.sequence .list .none))
        (.map [("[[1,2],3]", .list [.null])]) = .ok v ∧ ¬ v.Immutable ∧
      ∀ e ∈ [(k, Value.sequence .list [.none])], e.1.Immutable := by
  intro key k v
  have hi : isInstance .standard key k = .ok ⟨true, ⟨[]⟩⟩ := by cbv
  have hd : decode .standard (.mapping .ordered key (.sequence .list .none))
      (.map [("[[1,2],3]", .list [.null])]) = .ok v := by cbv
  exact ⟨hi, hashable_instances_immutable.1 _ key k rfl ⟨_, hi, rfl⟩, hd,
    fun h => h v .here trivial, hashable_instances_immutable.2 _ _ _ v hd _ _ .here⟩

end ShapeCodec
