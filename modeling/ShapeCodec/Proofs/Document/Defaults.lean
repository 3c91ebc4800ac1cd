import ShapeCodec.Proofs.Decoding.Soundness
import ShapeCodec.Proofs.Document.Coverage
import ShapeCodec.Proofs.Shape.Criteria
import ShapeCodec.Proofs.Switches.Scope

/-! # Defaults that come from documents

A default of a document is what its JSON decodes to, and what decodes under a shape is a strict
instance of it. So the shapes that are read have no default that the classification could be
against, wherever a record occurs in them.
-/

namespace ShapeCodec

namespace Shape

variable {s : Shape}

/-- Every default that occurs in a shape is a strict instance of the shape of its field, which can
be checked against. -/
def DefaultsConform (s : Shape) : Prop :=
  ∀ t, Within t s → ∀ name fs, t = record name fs → ∀ f ∈ fs, ∀ v, f.default? = some v →
    f.shape.checkable = true ∧ conforms Settings.standard.strict f.shape v = true

theorem DefaultsConform.part {p : Shape} (h : s.DefaultsConform) (hp : p ∈ s.parts) :
    p.DefaultsConform := (forall_within_iff.mp h).2 p hp

theorem defaultsConform_of_parts (hs : ∀ name fs, s ≠ record name fs)
    (hp : ∀ p ∈ s.parts, p.DefaultsConform) : s.DefaultsConform :=
  forall_within_iff.mpr ⟨fun name fs he => (hs name fs he).elim, hp⟩

/-! ## What is said against shapes without faulty defaults -/

/-- What a reason against checking a shape is about when no default is: a shape that holds one
that fails, a union with too few branches, an empty literal, or a name that comes twice. -/
def Structural (r : Reason) : Prop :=
  (∃ t, r = .fails .checkable t) ∨ (∃ t, r = .fewBranches t) ∨ r = .emptyLiteral ∨
    ∃ name owner ownerName, r = .repeatedName name owner ownerName

theorem structural_failing {b : Bool} {inner : List Reason} (h : ∀ r ∈ inner, Structural r) :
    ∀ r ∈ failing .checkable b s inner, Structural r := by
  intro r hr
  unfold failing at hr
  split at hr
  · cases hr
  · rcases List.mem_append.mp hr with hr | hr
    · exact h r hr
    · exact .inl ⟨s, List.mem_singleton.mp hr⟩

theorem structural_nameFaults (owner : NameOwner) (name : String) (names : List String) :
    ∀ r ∈ nameFaults owner name names, Structural r := by
  intro r hr
  obtain ⟨n, -, rfl⟩ := List.mem_map.mp hr
  exact .inr (.inr (.inr ⟨n, owner, name, rfl⟩))

theorem structural_checkFaultsAll {ss : List Shape}
    (h : ∀ s ∈ ss, ∀ r ∈ checkFaults s, Structural r) :
    ∀ r ∈ checkFaultsAll ss, Structural r := by
  induction ss with
  | nil => exact List.forall_mem_nil _
  | cons s ss ih =>
    obtain ⟨hs, hss⟩ := List.forall_mem_cons.mp h
    exact List.forall_mem_append.mpr ⟨hs, ih hss⟩

theorem structural_checkFaultsFields {name : String} {fs : List (Field Shape)}
    (h : ∀ f ∈ fs, ∀ r ∈ checkFaults f.shape, Structural r)
    (hd : ∀ f ∈ fs, defaultFaults name f = []) :
    ∀ r ∈ checkFaultsFields name fs, Structural r := by
  induction fs with
  | nil => exact List.forall_mem_nil _
  | cons f fs ih =>
    obtain ⟨hf, hfs⟩ := List.forall_mem_cons.mp h
    obtain ⟨hfd, hfsd⟩ := List.forall_mem_cons.mp hd
    rw [checkFaultsFields, hfd, ite_self, List.append_nil]
    exact List.forall_mem_append.mpr ⟨hf, ih hfs hfsd⟩

theorem structural_checkFaultsKeys {ks : List (Key Shape)}
    (h : ∀ k ∈ ks, ∀ r ∈ checkFaults k.shape, Structural r) :
    ∀ r ∈ checkFaultsKeys ks, Structural r := by
  induction ks with
  | nil => exact List.forall_mem_nil _
  | cons k ks ih =>
    obtain ⟨hk, hks⟩ := List.forall_mem_cons.mp h
    exact List.forall_mem_append.mpr ⟨hk, ih hks⟩

theorem defaultFaults_eq_nil {record : String} {f : Field Shape}
    (h : ∀ v, f.default? = some v → conforms Settings.standard.strict f.shape v = true) :
    defaultFaults record f = [] := by
  unfold defaultFaults
  split
  · rename_i v hv
    exact if_pos (h v hv)
  · rfl

/-- Where all defaults conform, what is said against a shape is never about a default. -/
theorem structural_checkFaults (h : s.DefaultsConform) : ∀ r ∈ checkFaults s, Structural r := by
  induction s using inductionParts with
  | step s ih =>
  have part : ∀ p ∈ s.parts, ∀ r ∈ checkFaults p, Structural r := fun p hp => ih p hp (h.part hp)
  cases s with
  | sequence k s => exact structural_failing (part s (by simp))
  | tuple ss => exact structural_failing (structural_checkFaultsAll part)
  | mapping k key value =>
    exact structural_failing (List.forall_mem_append.mpr
      ⟨part key (by simp), part value (by simp)⟩)
  | optional s => exact structural_failing (part s (by simp))
  | union ss =>
    refine structural_failing (List.forall_mem_append.mpr ⟨?_, structural_checkFaultsAll part⟩)
    split
    · exact List.forall_mem_singleton.mpr (.inr (.inl ⟨_, rfl⟩))
    · exact List.forall_mem_nil _
  | literal ls =>
    exact structural_failing (List.forall_mem_singleton.mpr (.inr (.inr (.inl rfl))))
  | record name fs =>
    have defaults : ∀ f ∈ fs, defaultFaults name f = [] := fun f hf =>
      defaultFaults_eq_nil fun v hv => (h _ .here name fs rfl f hf v hv).2
    have fields := structural_checkFaultsFields (fun f hf => part _ (mem_parts_record hf)) defaults
    exact structural_failing (List.forall_mem_append.mpr ⟨structural_nameFaults _ _ _, fields⟩)
  | enum name ms => exact structural_failing (structural_nameFaults _ _ _)
  | typedDict name ks =>
    have keys := structural_checkFaultsKeys fun k hk => part _ (mem_parts_typedDict hk)
    exact structural_failing (List.forall_mem_append.mpr ⟨structural_nameFaults _ _ _, keys⟩)
  | _ => exact List.forall_mem_nil _

/-- A shape that cannot be checked against, whatever its parts and defaults are. -/
inductive Malformed : Shape → Prop
  | union {ss : List Shape} (h : ss.length < 2) : Malformed (union ss)
  | literal : Malformed (literal [])
  | record {name : String} {fs : List (Field Shape)} (h : ¬ (fs.map (·.name)).Nodup) :
    Malformed (record name fs)
  | enum {name : String} {ms : List EnumMember} (h : ¬ (ms.map (·.name)).Nodup) :
    Malformed (enum name ms)
  | typedDict {name : String} {ks : List (Key Shape)} (h : ¬ (ks.map (·.name)).Nodup) :
    Malformed (typedDict name ks)

theorem malformed_of_not_wellMade (h : s.DefaultsConform) (hs : ¬ s.WellMade) : s.Malformed := by
  cases s with
  | union ss => exact .union (Nat.lt_of_not_le hs)
  | literal ls =>
    obtain rfl : ls = [] := not_not.mp hs
    exact .literal
  | record name fs =>
    exact .record fun hn => hs ⟨hn, fun f hf v hv => (h _ .here name fs rfl f hf v hv).2⟩
  | enum name ms => exact .enum hs
  | typedDict name ks => exact .typedDict hs
  | _ => exact (hs trivial).elim

theorem not_wellMade_of_malformed (h : s.Malformed) : ¬ s.WellMade := by
  cases h with
  | union h => exact Nat.not_le_of_lt h
  | literal => exact fun h => h rfl
  | record h => exact fun hw => h hw.1
  | enum h => exact h
  | typedDict h => exact h

theorem DefaultsConform.checkable_eq_false_iff (h : s.DefaultsConform) :
    s.checkable = false ↔ ∃ t, Within t s ∧ t.Malformed := by
  rw [← Bool.not_eq_true, checkable_iff_forall_within, not_forall]
  apply exists_congr
  intro t
  rw [Classical.not_imp]
  apply and_congr_right
  intro ht
  constructor
  · apply malformed_of_not_wellMade
    exact fun u hu => h u (hu.trans ht)
  · exact not_wellMade_of_malformed

end Shape

/-! ## Outlines and drafts -/

/-- An outline from whose documents only legal defaults come. -/
def Outline.Lawful (p : Outline) : Prop := ∀ s, p.toShape = .ok s → s.DefaultsConform

namespace Outline

open Shape

variable {p q : Outline} {ps : List Outline} {name : String}

theorem lawful_plain {s : Shape} (hp : s.parts = []) (hs : ∀ name fs, s ≠ .record name fs) :
    (plain s).Lawful := by
  intro t ht
  rw [toShape_plain_eq_ok_iff] at ht
  subst ht
  exact defaultsConform_of_parts hs (by simp [hp])

theorem Lawful.sequence (h : p.Lawful) (k : SequenceKind) : (sequence k p).Lawful := by
  intro s hs
  obtain ⟨t, ht, rfl⟩ := toShape_sequence_eq_ok_iff.mp hs
  exact defaultsConform_of_parts nofun (List.forall_mem_singleton.mpr (h t ht))

theorem Lawful.optional (h : p.Lawful) : (optional p).Lawful := by
  intro s hs
  obtain ⟨t, ht, rfl⟩ := toShape_optional_eq_ok_iff.mp hs
  exact defaultsConform_of_parts nofun (List.forall_mem_singleton.mpr (h t ht))

theorem Lawful.mapping (hp : p.Lawful) (hq : q.Lawful) (k : MappingKind) :
    (mapping k p q).Lawful := by
  intro s hs
  obtain ⟨a, b, ha, hb, rfl⟩ := toShape_mapping_eq_ok_iff.mp hs
  exact defaultsConform_of_parts nofun (List.forall_mem_pair.mpr ⟨hp a ha, hq b hb⟩)

theorem defaultsConform_of_forall₂ {ss : List Shape} (h : ∀ p ∈ ps, p.Lawful)
    (hs : List.Forall₂ (fun p s => toShape p = .ok s) ps ss) : ∀ s ∈ ss, s.DefaultsConform := by
  intro s hm
  obtain ⟨p, hp, hps⟩ := hs.exists_of_mem_right hm
  exact h p hp s hps

theorem lawful_tuple (h : ∀ p ∈ ps, p.Lawful) : (tuple ps).Lawful := by
  intro s hs
  obtain ⟨ss, hss, rfl⟩ := toShape_tuple_eq_ok_iff.mp hs
  exact defaultsConform_of_parts nofun (defaultsConform_of_forall₂ h hss)

theorem lawful_union (h : ∀ p ∈ ps, p.Lawful) : (union ps).Lawful := by
  intro s hs
  obtain ⟨ss, hss, rfl⟩ := toShape_union_eq_ok_iff.mp hs
  exact defaultsConform_of_parts nofun (defaultsConform_of_forall₂ h hss)

theorem lawful_literal (js : List Json) : (literal js).Lawful := by
  intro s hs
  obtain ⟨ls, -, rfl⟩ := toShape_literal_eq_ok_iff.mp hs
  exact defaultsConform_of_parts nofun (List.forall_mem_nil _)

theorem lawful_enum (ms : List MemberOutline) : (enum name ms).Lawful := by
  intro s hs
  obtain ⟨ns, -, rfl⟩ := toShape_enum_eq_ok_iff.mp hs
  exact defaultsConform_of_parts nofun (List.forall_mem_nil _)

theorem lawful_typedDict {ks : List (Key Outline)} (h : ∀ k ∈ ks, k.shape.Lawful) :
    (typedDict name ks).Lawful := by
  intro s hs
  obtain ⟨ls, hls, rfl⟩ := toShape_typedDict_eq_ok_iff.mp hs
  refine defaultsConform_of_parts nofun (List.forall_mem_map.mpr ?_)
  intro l hl
  obtain ⟨k, hk, hkl⟩ := hls.exists_of_mem_right hl
  exact h k hk _ hkl.shape

/-- The default of a field decodes under its shape, so it is a strict instance of it. -/
theorem LeadsTo.conforms {f : FieldOutline Outline} {g : Field Shape} {v : Value}
    (h : LeadsTo name f g) (hv : g.default? = some v) :
    g.shape.checkable = true ∧ g.shape.conforms Settings.standard.strict v = true := by
  rcases Field.readDefault_eq_ok_iff.mp h.default with ⟨-, hn⟩ | ⟨j, w, -, hw, hd⟩
  · rw [hn] at hv
    cases hv
  · obtain rfl : w = v := Option.some.inj (hw.symm.trans hv)
    obtain ⟨hs, hj⟩ := decode_eq_ok_iff.mp hd
    have hc := (satisfies_encodable_iff.mp hs).1
    exact ⟨hc, conforms_of_decodeJson hc hj⟩

theorem lawful_record {fs : List (FieldOutline Outline)} (h : ∀ f ∈ fs, f.shape.Lawful) :
    (record name fs).Lawful := by
  intro s hs
  obtain ⟨gs, hgs, rfl⟩ := toShape_record_eq_ok_iff.mp hs
  refine forall_within_iff.mpr ⟨?_, List.forall_mem_map.mpr fun g hg => ?_⟩
  · rintro _ _ ⟨⟩ g hg v hv
    obtain ⟨f, -, hfg⟩ := hgs.exists_of_mem_right hg
    exact hfg.conforms hv
  · obtain ⟨f, hf, hfg⟩ := hgs.exists_of_mem_right hg
    exact h f hf _ hfg.shape

end Outline

structure Draft.Lawful (d : Draft) : Prop where
  inner : ∀ p ∈ d.inner?, p.Lawful
  key : ∀ p ∈ d.key?, p.Lawful
  value : ∀ p ∈ d.value?, p.Lawful
  items : ∀ ps ∈ d.items?, ∀ p ∈ ps, p.Lawful
  fields : ∀ fs ∈ d.fields?, ∀ f ∈ fs, f.shape.Lawful
  keys : ∀ ks ∈ d.keys?, ∀ k ∈ ks, k.shape.Lawful

structure Node.Lawful (n : Node) : Prop where
  shape : ∀ p, n.shape () = .ok p → p.Lawful
  field : ∀ f, n.field () = .ok f → f.shape.Lawful
  key : ∀ k, n.key () = .ok k → k.shape.Lawful
  shapes : ∀ ps, n.shapes () = .ok ps → ∀ p ∈ ps, p.Lawful
  fields : ∀ fs, n.fields () = .ok fs → ∀ f ∈ fs, f.shape.Lawful
  keys : ∀ ks, n.keys () = .ok ks → ∀ k ∈ ks, k.shape.Lawful

theorem Draft.lawful_empty : ({} : Draft).Lawful := ⟨nofun, nofun, nofun, nofun, nofun, nofun⟩

theorem Draft.Lawful.read {d d' : Draft} {slot : Slot} {n : Node} (hd : d.Lawful) (hn : n.Lawful)
    (h : d.read slot n = .ok d') : d'.Lawful := by
  have some_mem {α : Type} {motive : α → Prop} {x : α} (hx : motive x) :
      ∀ y ∈ some x, motive y := by
    rintro y ⟨⟩
    exact hx
  cases slot <;> simp only [Draft.read, bind_eq_ok_iff, pure_eq_ok_iff] at h
  case inner =>
    obtain ⟨p, hp, rfl⟩ := h
    exact { hd with inner := some_mem (hn.shape p hp) }
  case key =>
    obtain ⟨p, hp, rfl⟩ := h
    exact { hd with key := some_mem (hn.shape p hp) }
  case value =>
    obtain ⟨p, hp, rfl⟩ := h
    exact { hd with value := some_mem (hn.shape p hp) }
  case items =>
    obtain ⟨ps, hp, rfl⟩ := h
    exact { hd with items := some_mem (hn.shapes ps hp) }
  case fields =>
    obtain ⟨fs, hf, rfl⟩ := h
    exact { hd with fields := some_mem (hn.fields fs hf) }
  case keys =>
    obtain ⟨ks, hk, rfl⟩ := h
    exact { hd with keys := some_mem (hn.keys ks hk) }
  all_goals
    obtain ⟨_, _, rfl⟩ := h
    exact { hd with }

namespace Template

variable {t : Template} {d d' : Draft}

theorem lawful_fillNamed {ms : List (String × Node)} (hd : d.Lawful) (hm : ∀ m ∈ ms, m.2.Lawful)
    (h : t.fillNamed d ms = .ok d') : d'.Lawful := by
  induction ms generalizing d with
  | nil =>
    cases h
    exact hd
  | cons m ms ih =>
    obtain ⟨hm, hms⟩ := List.forall_mem_cons.mp hm
    rw [fillNamed] at h
    split at h
    · exact ih hd hms h
    · split at h
      · cases h
      · obtain ⟨e, he, h⟩ := bind_eq_ok_iff.mp h
        exact ih (hd.read hm he) hms h

theorem lawful_fillOrdered {slots : List (String × Slot)} {ns : List Node} (hd : d.Lawful)
    (hn : ∀ n ∈ ns, n.Lawful) (h : fillOrdered d slots ns = .ok d') : d'.Lawful := by
  induction ns generalizing d slots with
  | nil =>
    cases slots <;> cases h <;> exact hd
  | cons n ns ih =>
    obtain ⟨hn, hns⟩ := List.forall_mem_cons.mp hn
    cases slots with
    | nil =>
      cases h
      exact hd
    | cons s slots =>
      obtain ⟨e, he, h⟩ := bind_eq_ok_iff.mp h
      exact ih (hd.read hn he) hns h

theorem lawful_fillList {ns : List Node} (hn : ∀ n ∈ ns, n.Lawful) (h : t.fillList ns = .ok d) :
    d.Lawful := by
  obtain ⟨e, he, h⟩ := bind_eq_ok_iff.mp h
  split at h
  · cases h
  · obtain rfl := pure_eq_ok_iff.mp h
    exact lawful_fillOrdered Draft.lawful_empty hn he

end Template

namespace Draft

variable {d : Draft}

theorem lawful_buildField {f : FieldOutline Outline} (hd : d.Lawful) (h : d.buildField = .ok f) :
    f.shape.Lawful := by
  simp only [buildField, bind_eq_ok_iff, pure_eq_ok_iff, need_eq_ok_iff] at h
  obtain ⟨_, -, p, hp, rfl⟩ := h
  exact hd.inner p hp

theorem lawful_buildKey {k : Key Outline} (hd : d.Lawful) (h : d.buildKey = .ok k) :
    k.shape.Lawful := by
  simp only [buildKey, bind_eq_ok_iff, pure_eq_ok_iff, need_eq_ok_iff] at h
  obtain ⟨_, -, p, hp, rfl⟩ := h
  exact hd.inner p hp

end Draft

namespace Tag

theorem plain_of_mem_table {name title : String} {s : Shape} (h : (name, title, plain s) ∈ table) :
    s.parts = [] ∧ ∀ name fs, s ≠ .record name fs := by
  simp only [table, List.mem_cons, Prod.mk.injEq, plain.injEq, reduceCtorEq, and_false, or_false,
    List.not_mem_nil] at h
  rcases h with h | h | h | h | h | h | h | h <;>
  · obtain ⟨-, -, rfl⟩ := h
    exact ⟨rfl, nofun⟩

theorem mem_table_of_ofName {name title : String} {tag : Tag}
    (h : ofName name = .ok (title, tag)) : (name, title, tag) ∈ table := by
  unfold ofName at h
  split at h
  · rename_i n t g hf
    cases h
    have hn : n = name := by simpa using List.find?_some hf
    exact hn ▸ List.mem_of_find?_eq_some hf
  · cases h

theorem mem_table_of_ofIndex {i : Int} {title : String} {tag : Tag}
    (h : ofIndex i = .ok (title, tag)) : ∃ name, (name, title, tag) ∈ table := by
  unfold ofIndex at h
  split at h
  · rename_i n t g hf
    cases h
    split at hf
    · exact ⟨n, List.mem_of_getElem? hf⟩
    · cases hf
  · cases h

theorem mem_table_of_ofJson {j : Json} {title : String} {tag : Tag}
    (h : ofJson j = .ok (title, tag)) : ∃ name, (name, title, tag) ∈ table := by
  unfold ofJson at h
  split at h
  · exact ⟨_, mem_table_of_ofName h⟩
  · split at h
    · exact mem_table_of_ofIndex h
    · cases h
  · split at h
    · split at h
      · exact mem_table_of_ofIndex h
      · cases h
    · cases h
  · cases h

theorem lawful_build {d : Draft} {tag : Tag} {name title : String} {p : Outline}
    (ht : (name, title, tag) ∈ table) (hd : d.Lawful) (h : tag.build d = .ok p) : p.Lawful := by
  cases tag <;> simp only [build, bind_eq_ok_iff, pure_eq_ok_iff, need_eq_ok_iff] at h
  case plain s =>
    cases h
    obtain ⟨hp, hs⟩ := plain_of_mem_table ht
    exact Outline.lawful_plain hp hs
  case sequence k =>
    obtain ⟨q, hq, rfl⟩ := h
    exact (hd.inner q hq).sequence k
  case tuple =>
    obtain ⟨qs, hq, rfl⟩ := h
    exact Outline.lawful_tuple (hd.items qs hq)
  case mapping k =>
    obtain ⟨a, ha, b, hb, rfl⟩ := h
    exact (hd.key a ha).mapping (hd.value b hb) k
  case optional =>
    obtain ⟨q, hq, rfl⟩ := h
    exact (hd.inner q hq).optional
  case union =>
    obtain ⟨qs, hq, rfl⟩ := h
    exact Outline.lawful_union (hd.items qs hq)
  case literal =>
    obtain ⟨js, -, rfl⟩ := h
    exact Outline.lawful_literal js
  case record =>
    obtain ⟨n, -, fs, hf, rfl⟩ := h
    exact Outline.lawful_record (hd.fields fs hf)
  case enum =>
    obtain ⟨n, -, ms, -, rfl⟩ := h
    exact Outline.lawful_enum ms
  case typedDict =>
    obtain ⟨n, -, ks, hk, rfl⟩ := h
    exact Outline.lawful_typedDict (hd.keys ks hk)

end Tag

namespace Outline

theorem lawful_ofMembers {ms : List (String × Node)} (hm : ∀ m ∈ ms, m.2.Lawful) {p : Outline}
    (h : ofMembers ms = .ok p) : p.Lawful := by
  obtain ⟨⟨title, tag⟩, ht, h⟩ := bind_eq_ok_iff.mp h
  obtain ⟨d, hd, h⟩ := bind_eq_ok_iff.mp h
  obtain ⟨name, ht⟩ : ∃ name, (name, title, tag) ∈ Tag.table := by
    unfold Tag.ofMembers at ht
    split at ht
    · cases ht
    · exact Tag.mem_table_of_ofJson ht
    · obtain ⟨_, -, ht⟩ := bind_eq_ok_iff.mp ht
      cases ht
  refine Tag.lawful_build ht (Template.lawful_fillNamed Draft.lawful_empty ?_ hd) h
  exact fun m hmf => hm m (List.mem_of_mem_filter hmf)

theorem lawful_ofElements {ns : List Node} (hn : ∀ n ∈ ns, n.Lawful) {p : Outline}
    (h : ofElements ns = .ok p) : p.Lawful := by
  cases ns with
  | nil => cases h
  | cons n ns =>
    obtain ⟨⟨title, tag⟩, ht, h⟩ := bind_eq_ok_iff.mp h
    obtain ⟨d, hd, h⟩ := bind_eq_ok_iff.mp h
    obtain ⟨name, ht⟩ := Tag.mem_table_of_ofJson ht
    exact Tag.lawful_build ht (Template.lawful_fillList (List.forall_mem_cons.mp hn).2 hd) h

end Outline

namespace Node

theorem lawful_ofMembers (j : Json) {ms : List (String × Node)} (hm : ∀ m ∈ ms, m.2.Lawful) :
    (ofMembers j ms).Lawful where
  shape _ := Outline.lawful_ofMembers hm
  field f h := by
    obtain ⟨d, hd, h⟩ := bind_eq_ok_iff.mp h
    exact Draft.lawful_buildField (Template.lawful_fillNamed Draft.lawful_empty hm hd) h
  key k h := by
    obtain ⟨d, hd, h⟩ := bind_eq_ok_iff.mp h
    exact Draft.lawful_buildKey (Template.lawful_fillNamed Draft.lawful_empty hm hd) h
  shapes := nofun
  fields := nofun
  keys := nofun

theorem forall_of_mapM {α : Type} {read : Node → Form α} {motive : α → Prop} {ns : List Node}
    (hr : ∀ n ∈ ns, ∀ x, read n = .ok x → motive x) {xs : List α}
    (h : ns.mapM read = .ok xs) : ∀ x ∈ xs, motive x := by
  intro x hx
  obtain ⟨n, hn, hnx⟩ := (mapM_eq_ok_iff.mp h).exists_of_mem_right hx
  exact hr n hn x hnx

theorem lawful_ofElements (j : Json) {ns : List Node} (hn : ∀ n ∈ ns, n.Lawful) :
    (ofElements j ns).Lawful where
  shape _ := Outline.lawful_ofElements hn
  field f h := by
    obtain ⟨d, hd, h⟩ := bind_eq_ok_iff.mp h
    exact Draft.lawful_buildField (Template.lawful_fillList hn hd) h
  key k h := by
    obtain ⟨d, hd, h⟩ := bind_eq_ok_iff.mp h
    exact Draft.lawful_buildKey (Template.lawful_fillList hn hd) h
  shapes _ := forall_of_mapM fun n hm => (hn n hm).shape
  fields _ := forall_of_mapM fun n hm => (hn n hm).field
  keys _ := forall_of_mapM fun n hm => (hn n hm).key

theorem lawful_ofScalar (j : Json) : (ofScalar j).Lawful :=
  ⟨nofun, nofun, nofun, nofun, nofun, nofun⟩

theorem lawful_ofJson (j : Json) : (ofJson j).Lawful := by
  induction j using Json.inductionParts with
  | step j ih =>
  cases j with
  | list xs =>
    rw [ofJson, ofItems_eq]
    exact lawful_ofElements _ (List.forall_mem_map.mpr ih)
  | map es =>
    rw [ofJson, ofEntries_eq]
    exact lawful_ofMembers _ (List.forall_mem_map.mpr fun e he => ih _ (Json.mem_parts_map he))
  | number n =>
    rw [ofJson]
    split
    · exact lawful_ofScalar _
    · exact lawful_ofMembers _ (List.forall_mem_nil _)
  | _ => exact lawful_ofScalar _

end Node

theorem Shape.defaultsConform_of_ofDocument {text : String} {s : Shape}
    (h : ofDocument text = .ok s) : s.DefaultsConform := by
  unfold ofDocument at h
  split at h
  · cases h
  · rename_i p hp
    refine (?_ : p.Lawful) s (mapError_eq_ok_iff.mp h)
    unfold Document.readOutline at hp
    split at hp
    · cases hp
    · exact (Node.lawful_ofJson _).shape p (mapError_eq_ok_iff.mp hp)

/-- Defaults that come from documents are legal. Without casting they are instances of the shapes of
their fields, so the check of a shape that was read has nothing to say about them: it fails for too
few branches, empty literals and repeated names alone. -/
theorem defaults_of_document {text : String} {s : Shape} (h : Shape.ofDocument text = .ok s) :
    (∀ name fs, Shape.Within (.record name fs) s → ∀ f ∈ fs, ∀ v, f.default? = some v →
      ∀ o : Settings, o.castDecimal = false →
        ∃ verdict, isInstance o f.shape v = .ok verdict ∧ verdict.holds = true) ∧
    (∀ r ∈ (s.judge .checkable).log.reasons,
      (∀ v field record t, r ≠ .badDefault v field record t) ∧
      ((∃ t, r = .fails .checkable t) ∨ (∃ t, r = .fewBranches t) ∨ r = .emptyLiteral ∨
        ∃ name owner ownerName, r = .repeatedName name owner ownerName)) ∧
    ((s.judge .checkable).holds = false ↔ ∃ t, Shape.Within t s ∧ t.Malformed) := by
  have hd := Shape.defaultsConform_of_ofDocument h
  refine ⟨?defaults, ?reasons, hd.checkable_eq_false_iff⟩
  case defaults =>
    intro name fs ht f hf v hv o ho
    obtain ⟨hc, hv⟩ := hd _ ht name fs rfl f hf v hv
    have hstrict : o.castDecimal = Settings.standard.strict.castDecimal := ho
    refine ⟨_, isInstance_of_checkable hc, ?_⟩
    rwa [Shape.conforms_congr hstrict]
  case reasons =>
    intro r hr
    have hs : Shape.Structural r := Shape.structural_checkFaults hd r hr
    refine ⟨?_, hs⟩
    rintro v field record t rfl
    rcases hs with ⟨_, h⟩ | ⟨_, h⟩ | h | ⟨_, _, _, h⟩ <;> cases h

def pair : Shape :=
  .record "Pair" [⟨"part", .optional .int, some .none⟩, ⟨"part", .int, some (.int 3)⟩]

def pairDocument : Json :=
  .map [("type", .str "record"), ("name", .str "Pair"), ("fields", .list
    [.map [("name", .str "part"),
      ("type", .map [("type", .str "optional"), ("of", .map [("type", .str "int")])]),
      ("default", .null)],
    .map [("name", .str "part"), ("type", .map [("type", .str "int")]), ("default", .int 3)]])]

theorem defaults_of_document_pair :
    Shape.ofDocument pairDocument.write = .ok pair ∧
      (∃ verdict, isInstance Settings.standard.strict (.optional .int) .none = .ok verdict ∧
        verdict.holds = true) ∧
      (pair.judge .checkable).holds = false := by
  have document : Describes pairDocument pair := by
    have int : Describes (.map [("type", .str "int")]) .int :=
      .plain (by simp [Describing.plainTags]) Describing.tagged_self
    have unique : ∀ j : Json, j.parts = [] → j.UniqueKeys :=
      fun j => Json.uniqueKeys_of_parts_eq_nil
    have given : ∀ {es}, (∀ e ∈ es, e.1 ∈ ["name", "type", "default"]) →
        Describing.Gives ["name", "type", "default"] es es := Describing.gives_self
    exact .record Describing.tagged_self
      (.cons (.defaulted (given (by simp)) (.optional Describing.tagged_self int)
          (unique .null rfl) (by cbv))
        (.cons (.defaulted (given (by simp)) int (unique (.int 3) rfl) (by cbv)) .nil))
  have plain : Describing.PlainDefaults pairDocument := by
    have null : Json.null.NumberMapFree := Json.numberMapFree_of_parts_eq_nil rfl
    have three : (Json.int 3).NumberMapFree := Json.numberMapFree_of_parts_eq_nil rfl
    have scalar : ∀ j : Json, j.parts = [] → Describing.PlainDefaults j :=
      fun _ => Describing.plainDefaults_of_parts_eq_nil
    have str : ∀ s, Describing.PlainDefaults (.str s) := fun s => scalar (.str s) rfl
    simp [pairDocument, null, three, str, scalar .null rfl, scalar (.int 3) rfl]
  have hread : Shape.ofDocument pairDocument.write = .ok pair :=
    Shape.ofDocument_of_describes document (Json.spelledBy_write pairDocument) (by decide) plain
  obtain ⟨hdefaults, -, hholds⟩ := defaults_of_document hread
  refine ⟨hread, ?_, hholds.mpr ⟨pair, .here, .record (by decide)⟩⟩
  exact hdefaults "Pair" _ .here _ List.mem_cons_self .none rfl Settings.standard.strict rfl

end ShapeCodec
