import ShapeCodec.Proofs.Document.Members
import ShapeCodec.Proofs.Document.Outlines
import ShapeCodec.Proofs.Document.Text

/-! # Documents of shapes

The rules by which a document describes a shape, as a relation between the tree of the document and
the shape. The members of an object stand in any order, among others that the rules do not know.
Every document that follows the rules is read as the shape that it describes.
-/

namespace ShapeCodec

/-! ## The rules -/

namespace Describing

/-- The members of an object under known names are the given ones, each of them once and in any
order. Whatever stands under other names is passed over. -/
def Gives (known : List String) (given es : List (String × Json)) : Prop :=
  (es.filter fun e => decide (e.1 ∈ known)).Perm given

/-- An object with a tag and the given members. -/
def Tagged (tag : String) (given es : List (String × Json)) : Prop :=
  Gives ("type" :: given.map (·.1)) (("type", .str tag) :: given) es

def plainTags : List (String × Shape) :=
  [("bool", .bool), ("int", .int), ("float", .float), ("str", .str), ("none", .none),
    ("ellipsis", .ellipsis), ("any", .any), ("decimal", .decimal)]

def sequenceTag : SequenceKind → String
  | .list => "list"
  | .deque => "deque"
  | .set => "set"
  | .frozenSet => "frozen_set"
  | .tuple => "tuple"

def mappingTag : MappingKind → String
  | .dict => "dict"
  | .ordered => "ordered_dict"
  | .mapping => "mapping"

/-- A literal is a scalar. A float has a fraction or an exponent, and an integer has neither. -/
inductive OfLiteral : Json → Literal → Prop
  | none : OfLiteral .null .none
  | bool (b : Bool) : OfLiteral (.bool b) (.bool b)
  | int (i : Int64) : OfLiteral (.int i) (.int i)
  | float {n : Numeral} {x : Binary64} (hf : n.isFractional = true)
    (hx : n.toBinary64? = some x) : OfLiteral (.number n) (.float x)
  | str (s : String) : OfLiteral (.str s) (.str s)

inductive OfMember : Json → EnumMember → Prop
  | mk {name : String} {j : Json} {l : Literal} {es : List (String × Json)}
    (h : Gives ["name", "value"] [("name", .str name), ("value", j)] es) (hl : OfLiteral j l) :
    OfMember (.map es) ⟨name, l⟩

/-- A field of a record has a name and a type, and a default that decodes under the type or none. -/
inductive OfField (describes : Json → Shape → Prop) : Json → Field Shape → Prop
  | required {name : String} {j : Json} {s : Shape} {es : List (String × Json)}
    (h : Gives ["name", "type", "default"] [("name", .str name), ("type", j)] es)
    (hs : describes j s) : OfField describes (.map es) ⟨name, s, none⟩
  | defaulted {name : String} {j c : Json} {s : Shape} {v : Value} {es : List (String × Json)}
    (h : Gives ["name", "type", "default"] [("name", .str name), ("type", j), ("default", c)] es)
    (hs : describes j s) (hc : c.UniqueKeys) (hv : decode Settings.standard s c = .ok v) :
    OfField describes (.map es) ⟨name, s, some v⟩

/-- A key of a typed dict has a name and a type, and is required unless the document says that it
is not. -/
inductive OfKey (describes : Json → Shape → Prop) : Json → Key Shape → Prop
  | given {name : String} {j : Json} {s : Shape} {b : Bool} {es : List (String × Json)}
    (h : Gives ["name", "type", "required"]
      [("name", .str name), ("type", j), ("required", .bool b)] es)
    (hs : describes j s) : OfKey describes (.map es) ⟨name, s, b⟩
  | omitted {name : String} {j : Json} {s : Shape} {es : List (String × Json)}
    (h : Gives ["name", "type", "required"] [("name", .str name), ("type", j)] es)
    (hs : describes j s) : OfKey describes (.map es) ⟨name, s, true⟩

/-- No default of a document holds a map that stands for a number. -/
inductive PlainDefaults : Json → Prop
  | mk {j : Json} : (∀ es, j = .map es → ∀ e ∈ es, e.1 = "default" → e.2.NumberMapFree) →
    (∀ p ∈ j.parts, PlainDefaults p) → PlainDefaults j

end Describing

open Describing in
/-- The tree of a document describes a shape. -/
inductive Describes : Json → Shape → Prop
  | plain {tag : String} {s : Shape} {es : List (String × Json)} (hs : (tag, s) ∈ plainTags)
    (h : Tagged tag [] es) : Describes (.map es) s
  | sequence {k : SequenceKind} {j : Json} {s : Shape} {es : List (String × Json)}
    (h : Tagged (sequenceTag k) [("of", j)] es) (hs : Describes j s) :
    Describes (.map es) (.sequence k s)
  | tuple {js : List Json} {ss : List Shape} {es : List (String × Json)}
    (h : Tagged "tuple_fixed" [("items", .list js)] es) (hs : List.Forall₂ Describes js ss) :
    Describes (.map es) (.tuple ss)
  | mapping {k : MappingKind} {i j : Json} {key value : Shape} {es : List (String × Json)}
    (h : Tagged (mappingTag k) [("key", i), ("value", j)] es) (hk : Describes i key)
    (hv : Describes j value) : Describes (.map es) (.mapping k key value)
  | optional {j : Json} {s : Shape} {es : List (String × Json)}
    (h : Tagged "optional" [("of", j)] es) (hs : Describes j s) : Describes (.map es) (.optional s)
  | union {js : List Json} {ss : List Shape} {es : List (String × Json)}
    (h : Tagged "union" [("members", .list js)] es) (hs : List.Forall₂ Describes js ss) :
    Describes (.map es) (.union ss)
  | literal {js : List Json} {ls : List Literal} {es : List (String × Json)}
    (h : Tagged "literal" [("values", .list js)] es) (hl : List.Forall₂ OfLiteral js ls) :
    Describes (.map es) (.literal ls)
  | record {name : String} {js : List Json} {fs : List (Field Shape)} {es : List (String × Json)}
    (h : Tagged "record" [("name", .str name), ("fields", .list js)] es)
    (hf : List.Forall₂ (OfField Describes) js fs) : Describes (.map es) (.record name fs)
  | enum {name : String} {js : List Json} {ms : List EnumMember} {es : List (String × Json)}
    (h : Tagged "enum" [("name", .str name), ("members", .list js)] es)
    (hm : List.Forall₂ OfMember js ms) : Describes (.map es) (.enum name ms)
  | typedDict {name : String} {js : List Json} {ks : List (Key Shape)} {es : List (String × Json)}
    (h : Tagged "typed_dict" [("name", .str name), ("fields", .list js)] es)
    (hk : List.Forall₂ (OfKey Describes) js ks) : Describes (.map es) (.typedDict name ks)

/-! ## Objects -/

theorem Json.withIntegers_eq_str_iff {j : Json} {s : String} :
    j.withIntegers = .str s ↔ j = .str s := by
  cases j with
  | number n =>
    rw [withIntegers, ofNumeral]
    cases n.toInt64? <;> simp
  | list xs => simp
  | map es => simp
  | _ => simp [withIntegers]

theorem Json.withIntegers_eq_bool_iff {j : Json} {b : Bool} :
    j.withIntegers = .bool b ↔ j = .bool b := by
  cases j with
  | number n =>
    rw [withIntegers, ofNumeral]
    cases n.toInt64? <;> simp
  | list xs => simp
  | map es => simp
  | _ => simp [withIntegers]

namespace Describing

variable {known : List String} {given es : List (String × Json)}

theorem PlainDefaults.part {j p : Json} (h : PlainDefaults j) (hp : p ∈ j.parts) :
    PlainDefaults p := by
  obtain ⟨_, h⟩ := h
  exact h p hp

theorem PlainDefaults.default {e : String × Json} (h : PlainDefaults (.map es)) (he : e ∈ es)
    (hk : e.1 = "default") : e.2.NumberMapFree := by
  obtain ⟨h, _⟩ := h
  exact h es rfl e he hk

theorem plainDefaults_of_parts_eq_nil {j : Json} (h : j.parts = []) : PlainDefaults j := by
  refine .mk (fun es he => ?_) (by simp [h])
  subst he
  simp [show es = [] by simpa using h]

@[simp] theorem plainDefaults_list_iff {xs : List Json} :
    PlainDefaults (.list xs) ↔ ∀ x ∈ xs, PlainDefaults x :=
  ⟨fun h _ hx => h.part hx, fun h => .mk nofun h⟩

@[simp] theorem plainDefaults_map_iff : PlainDefaults (.map es) ↔
    (∀ e ∈ es, e.1 = "default" → e.2.NumberMapFree) ∧ ∀ e ∈ es, PlainDefaults e.2 := by
  constructor
  · exact fun h => ⟨fun e he => h.default he, fun e he => h.part (Json.mem_parts_map he)⟩
  · rintro ⟨hd, hp⟩
    refine .mk (fun fs hf => ?_) (List.forall_mem_map.mpr hp)
    obtain rfl := Json.map.inj hf
    exact hd

theorem plainDefaults_of_withIntegers {k : Json} (h : PlainDefaults k.withIntegers) :
    PlainDefaults k := by
  induction k using Json.inductionParts with
  | step k ih =>
  cases k with
  | list xs =>
    rw [Json.withIntegers_list, plainDefaults_list_iff, List.forall_mem_map] at h
    exact plainDefaults_list_iff.mpr fun x hx => ih x hx (h x hx)
  | map es =>
    rw [Json.withIntegers_map, plainDefaults_map_iff, List.forall_mem_map, List.forall_mem_map] at h
    refine plainDefaults_map_iff.mpr ⟨fun e he hk => ?_, fun e he => ?_⟩
    · exact Json.numberMapFree_withIntegers_iff.mp (h.1 e he hk)
    · exact ih _ (Json.mem_parts_map he) (h.2 e he)
  | _ => exact .mk nofun (List.forall_mem_nil _)

def kept (es : List (String × Json)) : List (String × Json) :=
  es.map fun e => (e.1, e.2.withIntegers)

theorem Gives.exists_mem (h : Gives known given (kept es)) {g : String × Json} (hg : g ∈ given) :
    ∃ k, (g.1, k) ∈ es ∧ k.withIntegers = g.2 := by
  obtain ⟨e, he, rfl⟩ := List.mem_map.mp (List.mem_of_mem_filter (h.mem_iff.mpr hg))
  exact ⟨e.2, he, rfl⟩

theorem Gives.mem (h : Gives known given (kept es)) {e : String × Json} (he : e ∈ es)
    (hk : e.1 ∈ known) : (e.1, e.2.withIntegers) ∈ given :=
  h.mem_iff.mp (List.mem_filter.mpr ⟨List.mem_map.mpr ⟨e, he, rfl⟩, by simpa using hk⟩)

theorem Gives.pairwise (h : Gives known given (kept es)) (hn : (given.map (·.1)).Nodup) :
    es.Pairwise fun e f => f.1 ∈ known → e.1 ≠ f.1 := by
  have hnames := (h.map (·.1)).nodup_iff.mpr hn
  rw [List.Nodup, List.pairwise_map, List.pairwise_filter, kept, List.pairwise_map] at hnames
  refine hnames.imp fun {e f} hne hf he => hne ?_ (by simpa using hf) he
  simpa using he ▸ hf

theorem kept_filter (es : List (String × Json)) (p : String → Bool) :
    kept (es.filter fun e => p e.1) = (kept es).filter fun e => p e.1 := by
  rw [kept, kept, List.filter_map]
  rfl

theorem ofEntries_filter (es : List (String × Json)) (p : String → Bool) :
    (Node.ofEntries es).filter (fun m => p m.1) = Node.ofEntries (es.filter fun e => p e.1) := by
  rw [Node.ofEntries_eq, Node.ofEntries_eq, List.filter_map]
  rfl

variable {tag : String}

theorem Tagged.members (h : Tagged tag given (kept es)) (hg : "type" ∉ given.map (·.1)) :
    Gives (given.map (·.1)) given (kept (es.filter fun e => e.1 != "type")) := by
  have hperm := List.Perm.filter (fun e : String × Json => e.1 != "type") h
  have hgiven : given.filter (fun e => e.1 != "type") = given := by
    rw [List.filter_eq_self]
    intro g hm
    simpa using fun he : g.1 = "type" => hg (he ▸ List.mem_map_of_mem hm)
  rw [List.filter_cons_of_neg (by simp), hgiven, List.filter_filter] at hperm
  rw [Gives, kept_filter es (· != "type"), List.filter_filter]
  refine (List.Perm.of_eq (List.filter_congr fun e _ => Bool.eq_iff_iff.mpr ?_)).trans hperm
  simp only [Bool.and_eq_true, decide_eq_true_eq, bne_iff_ne, List.mem_cons]
  tauto

theorem Tagged.tag_eq (h : Tagged tag given (kept es)) (hg : "type" ∉ given.map (·.1)) :
    es.filter (fun e => e.1 == "type") = [("type", .str tag)] := by
  have hperm := List.Perm.filter (fun e : String × Json => e.1 == "type") h
  have hgiven : given.filter (fun e => e.1 == "type") = [] := by
    rw [List.filter_eq_nil_iff]
    intro g hm
    simpa using fun he : g.1 = "type" => hg (he ▸ List.mem_map_of_mem hm)
  rw [List.filter_cons_of_pos (by simp), hgiven, List.perm_singleton, List.filter_filter, kept,
    List.filter_map, List.map_eq_singleton_iff] at hperm
  obtain ⟨⟨key, j⟩, he, hj⟩ := hperm
  obtain ⟨rfl, hj⟩ := Prod.mk.inj hj
  rw [Json.withIntegers_eq_str_iff] at hj
  rw [← hj, ← he]
  apply List.filter_congr
  rintro e -
  by_cases hk : e.1 = "type" <;> simp [hk]

end Describing

namespace Template

variable {t : Template} {name : String} {slot : Slot}

theorem mem_slots_of_slot? (h : t.slot? name = some slot) : (name, slot) ∈ t.slots := by
  obtain ⟨⟨n, _⟩, hf, rfl⟩ := Option.map_eq_some_iff.mp h
  obtain rfl : n = name := by simpa using List.find?_some hf
  exact List.mem_of_find?_eq_some hf

end Template

namespace Tag

theorem nodup_names (t : Tag) : ("type" :: t.slots.map (·.1)).Nodup := by
  cases t <;> simp [slots]

theorem nodup_slots (t : Tag) : (t.slots.map (·.2)).Nodup := by
  cases t <;> simp [slots]

end Tag

namespace Describing

/-! ## Drafts -/

/-- What is wanted of a draft in one of its places. -/
structure Want where
  slot : Slot
  holds : Draft → Prop

/-- A node can be read into a place, and a draft in which it stands there is as it is wanted. -/
structure Fits (n : Node) (w : Want) : Prop where
  readable : ∃ d : Draft, d.Takes n w.slot
  holds : ∀ d : Draft, d.Takes n w.slot → w.holds d

/-- The members of an object that have the name of a given one and spell it fit what is wanted. -/
structure Suits (es : List (String × Json)) (t : Template) (g : String × Json) (w : Want) :
    Prop where
  slot : t.slot? g.1 = some w.slot
  fits : ∀ k, (g.1, k) ∈ es → k.withIntegers = g.2 → Fits (Node.ofJson k) w

variable {known : List String} {given es : List (String × Json)} {t : Template}
  (wants : List Want)

/-- An object whose members suit what is wanted fills a draft with all of it. -/
theorem Gives.exists_draft (h : Gives known given (kept es)) (hn : (given.map (·.1)).Nodup)
    (hs : (t.slots.map (·.2)).Nodup) (hk : ∀ p ∈ t.slots, p.1 ∈ known)
    (hw : List.Forall₂ (Suits es t) given wants) :
    ∃ d, t.fillNamed {} (Node.ofEntries es) = .ok d ∧ (∀ w ∈ wants, w.holds d) ∧
      ∀ slot, (∀ w ∈ wants, w.slot ≠ slot) → d.has slot = false := by
  have known_of_slot {name slot} (hm : t.slot? name = some slot) : name ∈ known :=
    hk _ (Template.mem_slots_of_slot? hm)
  have hinj : ∀ a b slot, t.slot? a = some slot → t.slot? b = some slot → a = b := by
    intro a b slot ha hb
    have he := List.inj_on_of_nodup_map hs (Template.mem_slots_of_slot? ha)
      (Template.mem_slots_of_slot? hb) rfl
    exact (Prod.mk.inj he).1
  have hempty : ∀ slot, ({} : Draft).has slot = false := fun slot => by cases slot <;> rfl
  -- a known member is a given one, so it fits what is wanted of it
  have fits : ∀ e ∈ es, ∀ slot, t.slot? e.1 = some slot →
      ∃ w ∈ wants, w.slot = slot ∧ Fits (Node.ofJson e.2) w := by
    intro e he slot hslot
    obtain ⟨w, hm, hsuits⟩ := hw.exists_of_mem_left (h.mem he (known_of_slot hslot))
    exact ⟨w, hm, Option.some.inj (hsuits.slot.symm.trans hslot), hsuits.fits e.2 he rfl⟩
  have honce : (Node.ofEntries es).Pairwise
      fun m n => (t.slot? n.1).isSome = true → m.1 ≠ n.1 := by
    rw [Node.ofEntries_eq, List.pairwise_map]
    apply (h.pairwise hn).imp
    intro e f hne ho
    obtain ⟨slot, hslot⟩ := Option.isSome_iff_exists.mp ho
    exact hne (known_of_slot hslot)
  have hread : ∀ m ∈ Node.ofEntries es, ∀ slot, t.slot? m.1 = some slot →
      ({} : Draft).has slot = false ∧ ∃ d : Draft, d.Takes m.2 slot := by
    rw [Node.ofEntries_eq, List.forall_mem_map]
    intro e he slot hslot
    obtain ⟨w, -, rfl, hfit⟩ := fits e he slot hslot
    exact ⟨hempty w.slot, hfit.readable⟩
  obtain ⟨d, hd, htakes, hrest⟩ := Template.exists_fillNamed hinj honce hread
  rw [Node.ofEntries_eq, List.forall_mem_map] at htakes
  refine ⟨d, hd, fun w hm => ?wanted, fun slot hslot => ?other⟩
  case wanted =>
    obtain ⟨g, hg, hsuits⟩ := hw.exists_of_mem_right hm
    obtain ⟨k, hk, hkg⟩ := h.exists_mem hg
    exact (hsuits.fits k hk hkg).holds d (htakes _ hk _ hsuits.slot)
  case other =>
    have hother : ∀ m ∈ Node.ofEntries es, t.slot? m.1 ≠ some slot := by
      rw [Node.ofEntries_eq, List.forall_mem_map]
      intro e he ho
      obtain ⟨w, hm, hws, -⟩ := fits e he slot ho
      exact hslot w hm hws
    rw [(hrest slot hother).2, hempty]

/-- An object with a tag builds what its tag makes of all that is wanted of the members. -/
theorem Tagged.exists_draft {name title : String} {t : Tag} (h : Tagged name given (kept es))
    (ht : Tag.ofName name = .ok (title, t)) (hs : t.slots.map (·.1) = given.map (·.1))
    (hw : List.Forall₂ (Suits es (t.template title)) given wants) :
    ∃ d, (Node.ofJson (.map es)).shape () = t.build d ∧ ∀ w ∈ wants, w.holds d := by
  obtain ⟨hg, hn⟩ := List.nodup_cons.mp (hs ▸ t.nodup_names)
  have hk : ∀ p ∈ (t.template title).slots, p.1 ∈ given.map (·.1) := by
    rw [← hs]
    exact fun p hp => List.mem_map_of_mem hp
  have hsuits : List.Forall₂ (Suits (es.filter fun e => e.1 != "type") (t.template title))
      given wants := by
    apply hw.imp
    intro g w hgw
    exact ⟨hgw.slot, fun k hk => hgw.fits k (List.mem_of_mem_filter hk)⟩
  obtain ⟨d, hfill, hwants, -⟩ := (h.members hg).exists_draft wants hn t.nodup_slots hk hsuits
  have htag : Tag.ofMembers (Node.ofEntries es) = .ok (title, t) := by
    rw [Tag.ofMembers, ofEntries_filter es (· == "type"), h.tag_eq hg]
    exact ht
  refine ⟨d, ?_, hwants⟩
  change Outline.ofMembers (Node.ofEntries es) = _
  rw [Outline.ofMembers, htag]
  change ((t.template title).fillNamed {} _ >>= _) = _
  rw [ofEntries_filter es (· != "type"), hfill]
  rfl

end Describing

end ShapeCodec
