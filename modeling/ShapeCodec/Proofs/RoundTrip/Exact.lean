import ShapeCodec.Proofs.Encoding.Walk
import ShapeCodec.Proofs.Gates
import ShapeCodec.Proofs.Json.NumberMaps

/-! # Exact instances

The instances that come back from their encodings, and the shapes for which they do. An exact
instance is a strict one in which floats are finite, maps are of the kind that decoding builds and
records carry the name of their shape. Branches of a union must not overlap, and a literal must not
be the key of a mapping.
-/

namespace ShapeCodec

namespace Shape

/-- A value that stands for itself at every place that its shape describes. -/
inductive Exact : Shape → Value → Prop
  | bool (b : Bool) : Exact bool (.bool b)
  | int (i : Int64) : Exact int (.int i)
  | float {x : Binary64} : x.isFinite = true → Exact float (.float x)
  | str (s : String) : Exact str (.str s)
  | none : Exact none .none
  | ellipsis : Exact ellipsis .ellipsis
  | any (v : Value) : Exact any v
  | decimal (d : Decimal) : Exact decimal (.decimal d)
  | sequence {k : SequenceKind} {s : Shape} {xs : List Value} :
    (∀ x ∈ xs, Exact s x) → Exact (sequence k s) (.sequence k xs)
  | tuple {ss : List Shape} {xs : List Value} :
    ss.length = xs.length → (∀ p ∈ ss.zip xs, Exact p.1 p.2) →
    Exact (tuple ss) (.sequence .tuple xs)
  | mapping {k : MappingKind} {key value : Shape} {es : List (Value × Value)} :
    (∀ e ∈ es, Exact key e.1) → (∀ e ∈ es, Exact value e.2) →
    Exact (mapping k key value) (.map k.built es)
  | some {s : Shape} {v : Value} : Exact s v → Exact (optional s) v
  | empty {s : Shape} : Exact (optional s) .none
  | union {ss : List Shape} {t : Shape} {v : Value} : t ∈ ss → Exact t v → Exact (union ss) v
  | literal {ls : List Literal} {l : Literal} {v : Value} :
    l ∈ ls → l.fits v = true → Exact (literal ls) v
  | record {name : String} {fs : List (Field Shape)} {vs : List (String × Value)} :
    fs.length = vs.length → (∀ p ∈ fs.zip vs, p.1.name = p.2.1) →
    (∀ p ∈ fs.zip vs, Exact p.1.shape p.2.2) → Exact (record name fs) (.record name vs)
  | enum {name m : String} {ms : List EnumMember} :
    ms.any (·.name == m) = true → Exact (enum name ms) (.member name m)
  | typedDict {name : String} {ks : List (Key Shape)} {es : List (Value × Value)} :
    (∀ e ∈ es, ∃ k ∈ ks, e.1 = .str k.name) →
    (∀ e ∈ es, ∀ k ∈ ks, e.1 = .str k.name → Exact k.shape e.2) →
    (∀ k ∈ ks, k.required = true → Value.hasKey es (.str k.name) = true) →
    Exact (typedDict name ks) (.map .dict es)

/-- An exact instance is an instance, under all switches. -/
theorem Exact.conforms {o : Settings} {s : Shape} {v : Value} (hs : s.checkable = true)
    (h : Exact s v) : s.conforms o v = true := by
  induction h with
  | bool b => exact conforms_bool_iff.mpr ⟨b, rfl⟩
  | int i => exact conforms_int_iff.mpr (.inl ⟨i, rfl⟩)
  | float _ => exact conforms_float_iff.mpr (.inr (.inl ⟨_, rfl⟩))
  | str t => exact conforms_str_iff.mpr ⟨t, rfl⟩
  | none => exact conforms_none_iff.mpr rfl
  | ellipsis => exact conforms_ellipsis_iff.mpr rfl
  | any v => rw [Shape.conforms]
  | decimal d => exact conforms_decimal_iff.mpr ⟨d, rfl⟩
  | sequence _ ih =>
    exact conforms_sequence_iff.mpr
      ⟨_, rfl, fun x hx => ih x hx (checkable_of_mem_parts hs (by simp))⟩
  | tuple hl _ ih =>
    refine conforms_tuple_iff.mpr ⟨_, rfl, List.forall₂_iff_zip.mpr ⟨hl, fun hp => ?_⟩⟩
    exact ih _ hp (checkable_of_mem_parts hs (List.of_mem_zip hp).1)
  | mapping _ _ ihk ihv =>
    refine conforms_mapping_iff.mpr ⟨_, _, rfl, ?_, fun e he => ⟨?_, ?_⟩⟩
    · rename_i k _ _ _ _ _
      cases k <;> rfl
    · exact ihk e he (checkable_of_mem_parts hs (by simp))
    · exact ihv e he (checkable_of_mem_parts hs (by simp))
  | some _ ih =>
    exact conforms_optional_iff.mpr (.inl (ih (checkable_of_mem_parts hs (by simp))))
  | empty => exact conforms_optional_iff.mpr (.inr rfl)
  | union ht _ ih => exact conforms_union_iff.mpr ⟨_, ht, ih (checkable_of_mem_parts hs ht)⟩
  | literal hl hf => exact conforms_literal_iff.mpr ⟨_, hl, hf⟩
  | record hl hn _ ih =>
    refine conforms_record_iff.mpr ⟨_, _, rfl, List.forall₂_iff_zip.mpr ⟨hl, fun hp => ?_⟩⟩
    exact ⟨hn _ hp, ih _ hp (checkable_of_mem_parts hs (mem_parts_record (List.of_mem_zip hp).1))⟩
  | enum hm => exact conforms_enum_iff.mpr ⟨_, rfl, hm⟩
  | typedDict hk _ hr ih =>
    refine conforms_typedDict_iff.mpr ⟨_, _, rfl, fun e he => ?_, hr⟩
    obtain ⟨k, hk, hn⟩ := hk e he
    exact ⟨k.name, k, hn, List.find?_of_nodup_map (nodup_of_checkable_typedDict hs) hk,
      ih e he k hk hn (checkable_of_mem_parts hs (mem_parts_typedDict hk))⟩

/-! ## Branches and keys -/

/-- Some exact instance of the second shape, or its encoding, is taken by the first one too: the
encoding as it is, or written and read back. -/
def Overlaps (o : Settings) (s t : Shape) : Prop :=
  ∃ w, t.Exact w ∧ w.WellFormed ∧ (s.conforms o w = true ∨
    ∃ j, encode o t w = .ok j ∧ ((∃ u, decode o s j = .ok u) ∨
      ∃ j' u, Json.read j.write = .ok j' ∧ decode o s j' = .ok u))

/-- No branch of a union in a shape takes over what belongs to a later one. -/
def Unambiguous (o : Settings) (s : Shape) : Prop :=
  ∀ t, Within t s → ∀ ss, t.branches? = Option.some ss → ss.Pairwise fun a b => ¬ Overlaps o a b

/-- No mapping in a shape has a literal for its keys. -/
def NoLiteralKeys (s : Shape) : Prop :=
  ∀ t, Within t s → ∀ k ls value, t ≠ mapping k (literal ls) value

def Mapless (s : Shape) : Prop := ∀ t, Within t s → t.mappingParts? = Option.none

def Unionless (s : Shape) : Prop := ∀ t, Within t s → t.branches? = Option.none

def KeysAll (P : Json → Prop) (o : Settings) (s : Shape) (v : Value) : Prop :=
  ∀ k key value l es e j, Meets o s v (mapping k key value) (.map l es) → e ∈ es →
    key.keyForm = .stringified → encodeValue o key e.1 = .ok j → P j

/-- The keys that are met as JSON texts are read back from them. -/
def KeysReadable : Settings → Shape → Value → Prop := KeysAll Json.Readable

/-- No key that is met as a JSON text has a map in it that stands for a number. -/
def KeysPlain : Settings → Shape → Value → Prop := KeysAll Json.NumberMapFree

/-- No map stands for a number, neither in the encoding of a value nor in a key that is met. -/
structure Plain (o : Settings) (s : Shape) (v : Value) : Prop where
  whole : ∀ j, encodeValue o s v = .ok j → j.NumberMapFree
  keys : s.KeysPlain o v

variable {o : Settings} {s t p : Shape} {v w : Value}

theorem unambiguous_iff : s.Unambiguous o ↔
    (∀ ss, s.branches? = Option.some ss → ss.Pairwise fun a b => ¬ Overlaps o a b) ∧
      ∀ p ∈ s.parts, p.Unambiguous o := forall_within_iff

theorem noLiteralKeys_iff : s.NoLiteralKeys ↔
    (∀ k ls value, s ≠ mapping k (literal ls) value) ∧ ∀ p ∈ s.parts, p.NoLiteralKeys :=
  forall_within_iff

theorem unionless_iff :
    s.Unionless ↔ s.branches? = Option.none ∧ ∀ p ∈ s.parts, p.Unionless := forall_within_iff

theorem Unionless.unambiguous (h : Unionless s) : Unambiguous o s := by
  intro t ht ss hb
  rw [h t ht] at hb
  cases hb

theorem mapless_iff :
    s.Mapless ↔ s.mappingParts? = Option.none ∧ ∀ p ∈ s.parts, p.Mapless := forall_within_iff

theorem mapless_of_parts_eq_nil (hp : s.parts = []) (hm : s.mappingParts? = Option.none) :
    s.Mapless := mapless_iff.mpr ⟨hm, by simp [hp]⟩

theorem Mapless.not_meets {k : MappingKind} {key value : Shape} (h : s.Mapless) :
    ¬ Meets o s v (mapping k key value) w := by
  intro hm
  rcases hm.within_or_eq_none with ht | ht
  · cases h _ ht
  · cases ht

theorem Mapless.keysAll {P : Json → Prop} (h : s.Mapless) : s.KeysAll P o v :=
  fun _ _ _ _ _ _ _ hm => (h.not_meets hm).elim

/-- Where mappings do not nest, the keys that are met are those of the outer one. -/
theorem keysAll_mapping {P : Json → Prop} {k : MappingKind} {key value : Shape} {l : MapKind}
    {es : List (Value × Value)} (hk : key.Mapless) (hv : value.Mapless)
    (h : ∀ e ∈ es, key.keyForm = .stringified → ∀ j, encodeValue o key e.1 = .ok j → P j) :
    KeysAll P o (mapping k key value) (.map l es) := by
  intro _ _ _ _ _ e j hm he hf hj
  cases hm with
  | here => exact h e he hf j hj
  | step hst hm =>
    cases hst with
    | branch hb => cases hb
    | key => exact (hk.not_meets hm).elim
    | value => exact (hv.not_meets hm).elim

theorem KeysAll.step {P : Json → Prop} (h : KeysAll P o s v) (hst : Steps o s v t w) :
    KeysAll P o t w :=
  fun k key value l es e j hm he hf hj => h k key value l es e j (.step hst hm) he hf hj

end Shape

end ShapeCodec
