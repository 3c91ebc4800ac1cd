import ShapeCodec.Proofs.Document.Describing

/-! # Trees of documents

A tree that describes a shape is read as an outline of that shape, by induction over the tree. What
the rules say of a member holds of the draft that it is read into, and so of what the draft builds.
-/

namespace ShapeCodec

namespace Describing

/-! ## What is wanted of members -/

namespace Want

def named (name : String) : Want := ⟨.name, fun d => d.name? = some name⟩

def required (b : Bool) : Want := ⟨.required, fun d => d.required? = some b⟩

def inner (s : Shape) : Want := ⟨.inner, fun d => ∃ p, d.inner? = some p ∧ p.toShape = .ok s⟩

def key (s : Shape) : Want := ⟨.key, fun d => ∃ p, d.key? = some p ∧ p.toShape = .ok s⟩

def value (s : Shape) : Want := ⟨.value, fun d => ∃ p, d.value? = some p ∧ p.toShape = .ok s⟩

def items (ss : List Shape) : Want :=
  ⟨.items, fun d => ∃ ps, d.items? = some ps ∧
    List.Forall₂ (fun p s => Outline.toShape p = .ok s) ps ss⟩

def literal (l : Literal) : Want :=
  ⟨.literal, fun d => ∃ j, d.literal? = some j ∧ Literal.ofJson j = .ok l⟩

def literals (ls : List Literal) : Want :=
  ⟨.literals, fun d => ∃ js, d.literals? = some js ∧
    List.Forall₂ (fun j l => Literal.ofJson j = .ok l) js ls⟩

def default (record field : String) (s : Shape) (v : Value) : Want :=
  ⟨.default, fun d => Field.readDefault record field s d.default? = .ok (some v)⟩

def fields (record : String) (fs : List (Field Shape)) : Want :=
  ⟨.fields, fun d => ∃ ps, d.fields? = some ps ∧ List.Forall₂ (Outline.LeadsTo record) ps fs⟩

def members (ms : List EnumMember) : Want :=
  ⟨.members, fun d => ∃ ps, d.members? = some ps ∧ List.Forall₂ MemberOutline.LeadsTo ps ms⟩

def keys (ls : List (Key Shape)) : Want :=
  ⟨.keys, fun d => ∃ ps, d.keys? = some ps ∧ List.Forall₂ Outline.KeyLeadsTo ps ls⟩

end Want

/-! ## What tags build -/

variable {d : Draft} {name : String}

theorem exists_build_sequence {k : SequenceKind} {s : Shape} (h : (Want.inner s).holds d) :
    ∃ p, (Tag.sequence k).build d = .ok p ∧ p.toShape = .ok (.sequence k s) := by
  obtain ⟨p, hp, hs⟩ := h
  refine ⟨.sequence k p, ?_, Outline.toShape_sequence_eq_ok_iff.mpr ⟨s, hs, rfl⟩⟩
  rw [Tag.build, hp]
  rfl

theorem exists_build_optional {s : Shape} (h : (Want.inner s).holds d) :
    ∃ p, Tag.optional.build d = .ok p ∧ p.toShape = .ok (.optional s) := by
  obtain ⟨p, hp, hs⟩ := h
  refine ⟨.optional p, ?_, Outline.toShape_optional_eq_ok_iff.mpr ⟨s, hs, rfl⟩⟩
  rw [Tag.build, hp]
  rfl

theorem exists_build_mapping {k : MappingKind} {a b : Shape} (hk : (Want.key a).holds d)
    (hv : (Want.value b).holds d) :
    ∃ p, (Tag.mapping k).build d = .ok p ∧ p.toShape = .ok (.mapping k a b) := by
  obtain ⟨p, hp, ha⟩ := hk
  obtain ⟨q, hq, hb⟩ := hv
  refine ⟨.mapping k p q, ?_, Outline.toShape_mapping_eq_ok_iff.mpr ⟨a, b, ha, hb, rfl⟩⟩
  rw [Tag.build, hp, hq]
  rfl

theorem exists_build_tuple {ss : List Shape} (h : (Want.items ss).holds d) :
    ∃ p, Tag.tuple.build d = .ok p ∧ p.toShape = .ok (.tuple ss) := by
  obtain ⟨ps, hp, hs⟩ := h
  refine ⟨.tuple ps, ?_, Outline.toShape_tuple_eq_ok_iff.mpr ⟨ss, hs, rfl⟩⟩
  rw [Tag.build, hp]
  rfl

theorem exists_build_union {ss : List Shape} (h : (Want.items ss).holds d) :
    ∃ p, Tag.union.build d = .ok p ∧ p.toShape = .ok (.union ss) := by
  obtain ⟨ps, hp, hs⟩ := h
  refine ⟨.union ps, ?_, Outline.toShape_union_eq_ok_iff.mpr ⟨ss, hs, rfl⟩⟩
  rw [Tag.build, hp]
  rfl

theorem exists_build_literal {ls : List Literal} (h : (Want.literals ls).holds d) :
    ∃ p, Tag.literal.build d = .ok p ∧ p.toShape = .ok (.literal ls) := by
  obtain ⟨js, hj, hl⟩ := h
  refine ⟨.literal js, ?_, Outline.toShape_literal_eq_ok_iff.mpr ⟨ls, hl, rfl⟩⟩
  rw [Tag.build, hj]
  rfl

theorem exists_build_record {fs : List (Field Shape)} (hn : (Want.named name).holds d)
    (h : (Want.fields name fs).holds d) :
    ∃ p, Tag.record.build d = .ok p ∧ p.toShape = .ok (.record name fs) := by
  obtain ⟨ps, hp, hf⟩ := h
  refine ⟨.record name ps, ?_, Outline.toShape_record_eq_ok_iff.mpr ⟨fs, hf, rfl⟩⟩
  rw [Tag.build, show d.name? = some name from hn, hp]
  rfl

theorem exists_build_enum {ms : List EnumMember} (hn : (Want.named name).holds d)
    (h : (Want.members ms).holds d) :
    ∃ p, Tag.enum.build d = .ok p ∧ p.toShape = .ok (.enum name ms) := by
  obtain ⟨ps, hp, hm⟩ := h
  refine ⟨.enum name ps, ?_, Outline.toShape_enum_eq_ok_iff.mpr ⟨ms, hm, rfl⟩⟩
  rw [Tag.build, show d.name? = some name from hn, hp]
  rfl

theorem exists_build_typedDict {ls : List (Key Shape)} (hn : (Want.named name).holds d)
    (h : (Want.keys ls).holds d) :
    ∃ p, Tag.typedDict.build d = .ok p ∧ p.toShape = .ok (.typedDict name ls) := by
  obtain ⟨ps, hp, hl⟩ := h
  refine ⟨.typedDict name ps, ?_, Outline.toShape_typedDict_eq_ok_iff.mpr ⟨ls, hl, rfl⟩⟩
  rw [Tag.build, show d.name? = some name from hn, hp]
  rfl

/-! ## What members fit -/

variable {j k : Json}

theorem fits_named {s : String} (hk : k.withIntegers = .str s) :
    Fits (Node.ofJson k) (.named s) := by
  obtain rfl := Json.withIntegers_eq_str_iff.mp hk
  constructor
  · exact ⟨{ name? := some s }, s, rfl, rfl⟩
  · rintro d ⟨t, ht, hd⟩
    cases ht
    exact hd

theorem fits_required {b : Bool} (hk : k.withIntegers = .bool b) :
    Fits (Node.ofJson k) (.required b) := by
  obtain rfl := Json.withIntegers_eq_bool_iff.mp hk
  constructor
  · exact ⟨{ required? := some b }, b, rfl, rfl⟩
  · rintro d ⟨c, hc, hd⟩
    cases hc
    exact hd

theorem ofJson_of_ofLiteral {l : Literal} (h : OfLiteral k.withIntegers l) :
    Literal.ofJson k = .ok l := by
  cases k with
  | number n =>
    rw [Json.withIntegers, Json.ofNumeral] at h
    cases hi : n.toInt64? with
    | some i =>
      rw [hi] at h
      cases h
      simp only [Literal.ofJson, hi]
    | none =>
      rw [hi] at h
      cases h with
      | float hf hx => simp only [Literal.ofJson, hi, hx]
  | list xs =>
    rw [Json.withIntegers_list] at h
    cases h
  | map es =>
    rw [Json.withIntegers_map] at h
    cases h
  | _ =>
    cases h
    rfl

theorem value_of_ofLiteral {l : Literal} (h : OfLiteral k.withIntegers l) :
    Node.value k = .ok k := by
  refine Node.value_eq_ok_iff.mpr ?_
  cases k with
  | list xs =>
    rw [Json.withIntegers_list] at h
    cases h
  | map es =>
    rw [Json.withIntegers_map] at h
    cases h
  | _ => rfl

theorem fits_literal {l : Literal} (h : OfLiteral k.withIntegers l) :
    Fits (Node.ofJson k) (.literal l) := by
  have hvalue : Node.value (Node.ofJson k).json = .ok k := by
    rw [Node.json_ofJson]
    exact value_of_ofLiteral h
  constructor
  · exact ⟨{ literal? := some k }, k, hvalue, rfl⟩
  · rintro d ⟨j, hj, hd⟩
    obtain rfl := Except.ok.inj (hvalue.symm.trans hj)
    exact ⟨k, hd, ofJson_of_ofLiteral h⟩

theorem fits_literals {js : List Json} {ls : List Literal} (hl : List.Forall₂ OfLiteral js ls)
    (hk : k.withIntegers = .list js) : Fits (Node.ofJson k) (.literals ls) := by
  obtain ⟨xs, rfl, rfl⟩ := Json.withIntegers_eq_list_iff.mp hk
  rw [List.forall₂_map_left_iff] at hl
  have hself : List.Forall₂ (fun x y => Node.value x = .ok y) xs xs := List.forall₂_same.mpr
    fun x hx => by
      obtain ⟨l, -, h⟩ := hl.exists_of_mem_left hx
      exact value_of_ofLiteral h
  have hvalues : Node.values (.list xs) = .ok xs := mapM_eq_ok_iff.mpr hself
  constructor
  · exact ⟨{ literals? := some xs }, xs, hvalues, rfl⟩
  · rintro d ⟨ys, hy, hd⟩
    obtain rfl := Except.ok.inj (hvalues.symm.trans hy)
    exact ⟨xs, hd, hl.imp fun _ _ => ofJson_of_ofLiteral⟩

theorem fits_default {record field : String} {s : Shape} {v : Value} (hn : k.NumberMapFree)
    (hu : j.UniqueKeys) (hv : decode Settings.standard s j = .ok v) (hk : k.withIntegers = j) :
    Fits (Node.ofJson k) (.default record field s v) := by
  subst hk
  have hmerged := Json.merged_of_uniqueKeys (Json.uniqueKeys_withIntegers_iff.mp hu)
  have hvalue : Node.value (Node.ofJson k).json = .ok k := by
    rw [Node.json_ofJson]
    exact Node.value_eq_ok_iff.mpr (Json.resolve_of_numberMapFree hn)
  constructor
  · exact ⟨{ default? := some k }, k, hvalue, rfl⟩
  · rintro d ⟨i, hi, hd⟩
    obtain rfl := Except.ok.inj (hvalue.symm.trans hi)
    exact Field.readDefault_eq_ok_iff.mpr (.inr ⟨k, v, hd, rfl, by rwa [hmerged]⟩)

/-- A part that is read as something with a property fits each place for such parts. -/
theorem fits_of_read {n : Node} {α : Type} {read : Form α} {P : α → Prop}
    {get : Draft → Option α} {slot : Slot} (h : ∃ a, read = .ok a ∧ P a)
    (ht : ∀ d : Draft, d.Takes n slot ↔ ∃ a, read = .ok a ∧ get d = some a)
    (hg : ∀ a, ∃ d, get d = some a) : Fits n ⟨slot, fun d => ∃ a, get d = some a ∧ P a⟩ := by
  obtain ⟨a, ha, hp⟩ := h
  constructor
  · obtain ⟨d, hd⟩ := hg a
    exact ⟨d, (ht d).mpr ⟨a, ha, hd⟩⟩
  · intro d hd
    obtain ⟨b, hb, hd⟩ := (ht d).mp hd
    exact ⟨b, hd, Except.ok.inj (ha.symm.trans hb) ▸ hp⟩

/-- A tree is read as what it describes, whatever part of a document it is. -/
structure Faithful (k : Json) : Prop where
  shape : ∀ {s}, Describes k.withIntegers s →
    ∃ p, (Node.ofJson k).shape () = .ok p ∧ p.toShape = .ok s
  field : ∀ record {f}, OfField Describes k.withIntegers f →
    ∃ p, (Node.ofJson k).field () = .ok p ∧ Outline.LeadsTo record p f
  key : ∀ {l}, OfKey Describes k.withIntegers l →
    ∃ p, (Node.ofJson k).key () = .ok p ∧ Outline.KeyLeadsTo p l
  shapes : ∀ {js ss}, List.Forall₂ Describes js ss → k.withIntegers = .list js →
    ∃ ps, (Node.ofJson k).shapes () = .ok ps ∧
      List.Forall₂ (fun p s => Outline.toShape p = .ok s) ps ss
  fields : ∀ record {js fs}, List.Forall₂ (OfField Describes) js fs → k.withIntegers = .list js →
    ∃ ps, (Node.ofJson k).fields () = .ok ps ∧ List.Forall₂ (Outline.LeadsTo record) ps fs
  keys : ∀ {js ls}, List.Forall₂ (OfKey Describes) js ls → k.withIntegers = .list js →
    ∃ ps, (Node.ofJson k).keys () = .ok ps ∧ List.Forall₂ Outline.KeyLeadsTo ps ls

namespace Faithful

variable {s : Shape} {js : List Json}

theorem fits_inner (h : Faithful k) (hs : Describes j s) (hk : k.withIntegers = j) :
    Fits (Node.ofJson k) (.inner s) :=
  fits_of_read (h.shape (hk ▸ hs)) (fun _ => Iff.rfl) fun p => ⟨{ inner? := some p }, rfl⟩

theorem fits_key (h : Faithful k) (hs : Describes j s) (hk : k.withIntegers = j) :
    Fits (Node.ofJson k) (.key s) :=
  fits_of_read (h.shape (hk ▸ hs)) (fun _ => Iff.rfl) fun p => ⟨{ key? := some p }, rfl⟩

theorem fits_value (h : Faithful k) (hs : Describes j s) (hk : k.withIntegers = j) :
    Fits (Node.ofJson k) (.value s) :=
  fits_of_read (h.shape (hk ▸ hs)) (fun _ => Iff.rfl) fun p => ⟨{ value? := some p }, rfl⟩

theorem fits_items {ss : List Shape} (h : Faithful k) (hs : List.Forall₂ Describes js ss)
    (hk : k.withIntegers = .list js) : Fits (Node.ofJson k) (.items ss) :=
  fits_of_read (h.shapes hs hk) (fun _ => Iff.rfl) fun ps => ⟨{ items? := some ps }, rfl⟩

theorem fits_fields {record : String} {fs : List (Field Shape)} (h : Faithful k)
    (hf : List.Forall₂ (OfField Describes) js fs) (hk : k.withIntegers = .list js) :
    Fits (Node.ofJson k) (.fields record fs) :=
  fits_of_read (h.fields record hf hk) (fun _ => Iff.rfl) fun ps => ⟨{ fields? := some ps }, rfl⟩

theorem fits_keys {ls : List (Key Shape)} (h : Faithful k)
    (hl : List.Forall₂ (OfKey Describes) js ls) (hk : k.withIntegers = .list js) :
    Fits (Node.ofJson k) (.keys ls) :=
  fits_of_read (h.keys hl hk) (fun _ => Iff.rfl) fun ps => ⟨{ keys? := some ps }, rfl⟩

end Faithful

/-- A part that fits under every reading of the parts of an object suits the object. -/
theorem Suits.of_parts {es : List (String × Json)} {t : Template} {name : String} {w : Want}
    (ih : ∀ p ∈ (Json.map es).parts, Faithful p) (hs : t.slot? name = some w.slot)
    (hf : ∀ k, Faithful k → k.withIntegers = j → Fits (Node.ofJson k) w) :
    Suits es t (name, j) w :=
  ⟨hs, fun k hm => hf k (ih k (Json.mem_parts_map hm))⟩

/-! ## Parts of shapes -/

theorem exists_mapM {α β : Type} {read : Node → Form α} {Q : α → β → Prop} {R : Json → β → Prop}
    {xs : List Json} {ys : List β} (h : List.Forall₂ R (xs.map Json.withIntegers) ys)
    (hr : ∀ x ∈ xs, ∀ y, R x.withIntegers y → ∃ a, read (Node.ofJson x) = .ok a ∧ Q a y) :
    ∃ as, (Node.ofItems xs).mapM read = .ok as ∧ List.Forall₂ Q as ys := by
  rw [List.forall₂_map_left_iff] at h
  obtain ⟨as, has, hq⟩ : ∃ as, List.Forall₂ (fun x a => read (Node.ofJson x) = .ok a) xs as ∧
      List.Forall₂ Q as ys := by
    have hr := h.imp_of_mem hr
    clear h
    induction hr with
    | nil => exact ⟨[], .nil, .nil⟩
    | cons hx _ ih =>
      obtain ⟨a, ha, hq⟩ := hx
      obtain ⟨as, has, hqs⟩ := ih fun _ hx => hr _ (List.mem_cons_of_mem _ hx)
      exact ⟨a :: as, .cons ha has, .cons hq hqs⟩
  refine ⟨as, ?_, hq⟩
  rw [Node.ofItems_eq, mapM_eq_ok_iff, List.forall₂_map_left_iff]
  exact has

theorem exists_member {m : EnumMember} (h : OfMember k.withIntegers m) :
    ∃ p, (Node.ofJson k).member () = .ok p ∧ p.LeadsTo m := by
  generalize hk : k.withIntegers = j at h
  cases h with
  | @mk name j l fs h hl =>
    obtain ⟨es, rfl, rfl⟩ := Json.withIntegers_eq_map_iff.mp hk
    have value : Suits es .member ("value", j) (.literal l) := by
      constructor
      · rfl
      · rintro i - rfl
        exact fits_literal hl
    obtain ⟨d, hd, hw, -⟩ := h.exists_draft [.named name, .literal l] (by simp) (by decide)
      (by decide) (.cons ⟨rfl, fun _ _ => fits_named⟩ (.cons value .nil))
    obtain ⟨hname, i, hi, hl⟩ := List.forall_mem_pair.mp hw
    exact ⟨⟨name, i⟩, bind_eq_ok_iff.mpr ⟨d, hd, Draft.buildMember_eq_ok hname hi⟩, rfl, hl⟩

theorem fits_members {js : List Json} {ms : List EnumMember} (h : List.Forall₂ OfMember js ms)
    (hk : k.withIntegers = .list js) : Fits (Node.ofJson k) (.members ms) := by
  obtain ⟨xs, rfl, rfl⟩ := Json.withIntegers_eq_list_iff.mp hk
  have hread : ∃ ps, (Node.ofJson (.list xs)).members () = .ok ps ∧
      List.Forall₂ MemberOutline.LeadsTo ps ms := exists_mapM h fun _ _ _ => exists_member
  exact fits_of_read hread (fun _ => Iff.rfl) fun ps => ⟨{ members? := some ps }, rfl⟩

theorem exists_field (record : String) {f : Field Shape} (ih : ∀ p ∈ k.parts, Faithful p)
    (hd : PlainDefaults k) (h : OfField Describes k.withIntegers f) :
    ∃ p, (Node.ofJson k).field () = .ok p ∧ Outline.LeadsTo record p f := by
  generalize hk : k.withIntegers = j at h
  cases h with
  | @required name j s fs h hs =>
    obtain ⟨es, rfl, rfl⟩ := Json.withIntegers_eq_map_iff.mp hk
    have inner : Suits es .field ("type", j) (.inner s) :=
      .of_parts ih rfl fun _ hf => hf.fits_inner hs
    obtain ⟨d, hd, hw, hrest⟩ := h.exists_draft [.named name, .inner s] (by simp) (by decide)
      (by decide) (.cons ⟨rfl, fun _ _ => fits_named⟩ (.cons inner .nil))
    obtain ⟨hname, p, hp, hs⟩ := List.forall_mem_pair.mp hw
    have hdefault : d.default? = none := by
      simpa [Draft.has] using hrest .default (List.forall_mem_pair.mpr ⟨nofun, nofun⟩)
    refine ⟨⟨name, p, d.default?⟩, ?_, rfl, hs, by rw [hdefault]; rfl⟩
    exact bind_eq_ok_iff.mpr ⟨d, hd, Draft.buildField_eq_ok hname hp⟩
  | @defaulted name j c s v fs h hs hc hv =>
    obtain ⟨es, rfl, rfl⟩ := Json.withIntegers_eq_map_iff.mp hk
    have inner : Suits es .field ("type", j) (.inner s) :=
      .of_parts ih rfl fun _ hf => hf.fits_inner hs
    have default : Suits es .field ("default", c) (.default record name s v) :=
      ⟨rfl, fun _ hm => fits_default (hd.default hm rfl) hc hv⟩
    obtain ⟨d, hd, hw, -⟩ := h.exists_draft [.named name, .inner s, .default record name s v]
      (by simp) (by decide) (by decide)
      (.cons ⟨rfl, fun _ _ => fits_named⟩ (.cons inner (.cons default .nil)))
    obtain ⟨hname, hw⟩ := List.forall_mem_cons.mp hw
    obtain ⟨⟨p, hp, hs⟩, hv⟩ := List.forall_mem_pair.mp hw
    refine ⟨⟨name, p, d.default?⟩, ?_, rfl, hs, hv⟩
    exact bind_eq_ok_iff.mpr ⟨d, hd, Draft.buildField_eq_ok hname hp⟩

theorem exists_key {l : Key Shape} (ih : ∀ p ∈ k.parts, Faithful p)
    (h : OfKey Describes k.withIntegers l) :
    ∃ p, (Node.ofJson k).key () = .ok p ∧ Outline.KeyLeadsTo p l := by
  generalize hk : k.withIntegers = j at h
  cases h with
  | @given name j s b fs h hs =>
    obtain ⟨es, rfl, rfl⟩ := Json.withIntegers_eq_map_iff.mp hk
    have inner : Suits es .key ("type", j) (.inner s) :=
      .of_parts ih rfl fun _ hf => hf.fits_inner hs
    obtain ⟨d, hd, hw, -⟩ := h.exists_draft [.named name, .inner s, .required b]
      (by simp) (by decide) (by decide)
      (.cons ⟨rfl, fun _ _ => fits_named⟩
        (.cons inner (.cons ⟨rfl, fun _ _ => fits_required⟩ .nil)))
    obtain ⟨hname, hw⟩ := List.forall_mem_cons.mp hw
    obtain ⟨⟨p, hp, hs⟩, hrequired⟩ := List.forall_mem_pair.mp hw
    refine ⟨⟨name, p, d.required?.getD true⟩, ?_, rfl, congrArg (Option.getD · true) hrequired, hs⟩
    exact bind_eq_ok_iff.mpr ⟨d, hd, Draft.buildKey_eq_ok hname hp⟩
  | @omitted name j s fs h hs =>
    obtain ⟨es, rfl, rfl⟩ := Json.withIntegers_eq_map_iff.mp hk
    have inner : Suits es .key ("type", j) (.inner s) :=
      .of_parts ih rfl fun _ hf => hf.fits_inner hs
    obtain ⟨d, hd, hw, hrest⟩ := h.exists_draft [.named name, .inner s] (by simp) (by decide)
      (by decide) (.cons ⟨rfl, fun _ _ => fits_named⟩ (.cons inner .nil))
    obtain ⟨hname, p, hp, hs⟩ := List.forall_mem_pair.mp hw
    have hrequired : d.required? = none := by
      simpa [Draft.has] using hrest .required (List.forall_mem_pair.mpr ⟨nofun, nofun⟩)
    refine ⟨⟨name, p, d.required?.getD true⟩, ?_, rfl, congrArg (Option.getD · true) hrequired, hs⟩
    exact bind_eq_ok_iff.mpr ⟨d, hd, Draft.buildKey_eq_ok hname hp⟩

/-! ## Shapes -/

theorem exists_plain_title {tag : String} {s : Shape} (h : (tag, s) ∈ plainTags) :
    ∃ title, Tag.ofName tag = .ok (title, .plain s) := by
  simp only [plainTags, List.mem_cons, Prod.mk.injEq, List.not_mem_nil, or_false] at h
  rcases h with ⟨rfl, rfl⟩ | ⟨rfl, rfl⟩ | ⟨rfl, rfl⟩ | ⟨rfl, rfl⟩ | ⟨rfl, rfl⟩ | ⟨rfl, rfl⟩ |
    ⟨rfl, rfl⟩ | ⟨rfl, rfl⟩ <;>
  exact ⟨_, rfl⟩

theorem exists_sequence_title (k : SequenceKind) :
    ∃ title, Tag.ofName (sequenceTag k) = .ok (title, .sequence k) := by
  cases k <;> exact ⟨_, rfl⟩

theorem exists_mapping_title (k : MappingKind) :
    ∃ title, Tag.ofName (mappingTag k) = .ok (title, .mapping k) := by
  cases k <;> exact ⟨_, rfl⟩

theorem Tagged.exists_shape {given es : List (String × Json)} {name title : String} {t : Tag}
    {s : Shape} (h : Tagged name given (kept es)) (ht : Tag.ofName name = .ok (title, t))
    (hs : t.slots.map (·.1) = given.map (·.1)) (wants : List Want)
    (hw : List.Forall₂ (Suits es (t.template title)) given wants)
    (hb : ∀ d, (∀ w ∈ wants, w.holds d) → ∃ p, t.build d = .ok p ∧ p.toShape = .ok s) :
    ∃ p, (Node.ofJson (.map es)).shape () = .ok p ∧ p.toShape = .ok s := by
  obtain ⟨d, hd, hwants⟩ := h.exists_draft wants ht hs hw
  rw [hd]
  exact hb d hwants

theorem exists_shape {s : Shape} (ih : ∀ p ∈ k.parts, Faithful p)
    (h : Describes k.withIntegers s) :
    ∃ p, (Node.ofJson k).shape () = .ok p ∧ p.toShape = .ok s := by
  generalize hk : k.withIntegers = j at h
  cases h with
  | @plain tag s _ hs h =>
    obtain ⟨es, rfl, rfl⟩ := Json.withIntegers_eq_map_iff.mp hk
    obtain ⟨title, ht⟩ := exists_plain_title hs
    apply h.exists_shape ht rfl [] .nil
    exact fun _ _ => ⟨.plain s, rfl, Outline.toShape_plain_eq_ok_iff.mpr rfl⟩
  | @sequence kind j s _ h hs =>
    obtain ⟨es, rfl, rfl⟩ := Json.withIntegers_eq_map_iff.mp hk
    obtain ⟨title, ht⟩ := exists_sequence_title kind
    apply h.exists_shape ht rfl [.inner s]
    · exact .cons (.of_parts ih rfl fun _ hf => hf.fits_inner hs) .nil
    · exact fun d hd => exists_build_sequence (hd _ (List.mem_singleton_self _))
  | @tuple js ss _ h hs =>
    obtain ⟨es, rfl, rfl⟩ := Json.withIntegers_eq_map_iff.mp hk
    apply h.exists_shape (t := .tuple) rfl rfl [.items ss]
    · exact .cons (.of_parts ih rfl fun _ hf => hf.fits_items hs) .nil
    · exact fun d hd => exists_build_tuple (hd _ (List.mem_singleton_self _))
  | @mapping kind i j key value _ h hkey hvalue =>
    obtain ⟨es, rfl, rfl⟩ := Json.withIntegers_eq_map_iff.mp hk
    obtain ⟨title, ht⟩ := exists_mapping_title kind
    apply h.exists_shape ht rfl [.key key, .value value]
    · exact .cons (.of_parts ih rfl fun _ hf => hf.fits_key hkey)
        (.cons (.of_parts ih rfl fun _ hf => hf.fits_value hvalue) .nil)
    · intro d hd
      obtain ⟨hkey, hvalue⟩ := List.forall_mem_pair.mp hd
      exact exists_build_mapping hkey hvalue
  | @optional j s _ h hs =>
    obtain ⟨es, rfl, rfl⟩ := Json.withIntegers_eq_map_iff.mp hk
    apply h.exists_shape (t := .optional) rfl rfl [.inner s]
    · exact .cons (.of_parts ih rfl fun _ hf => hf.fits_inner hs) .nil
    · exact fun d hd => exists_build_optional (hd _ (List.mem_singleton_self _))
  | @union js ss _ h hs =>
    obtain ⟨es, rfl, rfl⟩ := Json.withIntegers_eq_map_iff.mp hk
    apply h.exists_shape (t := .union) rfl rfl [.items ss]
    · exact .cons (.of_parts ih rfl fun _ hf => hf.fits_items hs) .nil
    · exact fun d hd => exists_build_union (hd _ (List.mem_singleton_self _))
  | @literal js ls _ h hl =>
    obtain ⟨es, rfl, rfl⟩ := Json.withIntegers_eq_map_iff.mp hk
    apply h.exists_shape (t := .literal) rfl rfl [.literals ls]
    · exact .cons ⟨rfl, fun _ _ => fits_literals hl⟩ .nil
    · exact fun d hd => exists_build_literal (hd _ (List.mem_singleton_self _))
  | @record name js fs _ h hf =>
    obtain ⟨es, rfl, rfl⟩ := Json.withIntegers_eq_map_iff.mp hk
    apply h.exists_shape (t := .record) rfl rfl [.named name, .fields name fs]
    · exact .cons ⟨rfl, fun _ _ => fits_named⟩
        (.cons (.of_parts ih rfl fun _ hp => hp.fits_fields hf) .nil)
    · intro d hd
      obtain ⟨hname, hfields⟩ := List.forall_mem_pair.mp hd
      exact exists_build_record hname hfields
  | @enum name js ms _ h hm =>
    obtain ⟨es, rfl, rfl⟩ := Json.withIntegers_eq_map_iff.mp hk
    apply h.exists_shape (t := .enum) rfl rfl [.named name, .members ms]
    · exact .cons ⟨rfl, fun _ _ => fits_named⟩ (.cons ⟨rfl, fun _ _ => fits_members hm⟩ .nil)
    · intro d hd
      obtain ⟨hname, hmembers⟩ := List.forall_mem_pair.mp hd
      exact exists_build_enum hname hmembers
  | @typedDict name js ls _ h hl =>
    obtain ⟨es, rfl, rfl⟩ := Json.withIntegers_eq_map_iff.mp hk
    apply h.exists_shape (t := .typedDict) rfl rfl [.named name, .keys ls]
    · exact .cons ⟨rfl, fun _ _ => fits_named⟩
        (.cons (.of_parts ih rfl fun _ hp => hp.fits_keys hl) .nil)
    · intro d hd
      obtain ⟨hname, hkeys⟩ := List.forall_mem_pair.mp hd
      exact exists_build_typedDict hname hkeys

theorem faithful (k : Json) (hd : PlainDefaults k) : Faithful k := by
  induction k using Json.inductionParts with
  | step k ih =>
  have ih : ∀ p ∈ k.parts, Faithful p := fun p hp => ih p hp (hd.part hp)
  constructor
  · exact exists_shape ih
  · exact fun record _ => exists_field record ih hd
  · exact exists_key ih
  · intro js ss h hk
    obtain ⟨xs, rfl, rfl⟩ := Json.withIntegers_eq_list_iff.mp hk
    exact exists_mapM h fun x hx _ => (ih x hx).shape
  · intro record js fs h hk
    obtain ⟨xs, rfl, rfl⟩ := Json.withIntegers_eq_list_iff.mp hk
    exact exists_mapM h fun x hx _ => (ih x hx).field record
  · intro js ls h hk
    obtain ⟨xs, rfl, rfl⟩ := Json.withIntegers_eq_list_iff.mp hk
    exact exists_mapM h fun x hx _ => (ih x hx).key

end Describing

end ShapeCodec
