import ShapeCodec.Proofs.Document.Faithful
import ShapeCodec.Proofs.Json.Unambiguous
import ShapeCodec.Proofs.RoundTrip.Spelling

/-! # Documents cover the shapes

A text that follows the rules for documents of a shape is read as exactly that shape, in any order
of the members and with any further ones between them. And the rules leave nothing out: every shape
with finite literals and decoded defaults has a document.
-/

namespace ShapeCodec

/-! ## Texts of documents -/

namespace Describing

theorem exists_tagged {j : Json} {s : Shape} (h : Describes j s) :
    ∃ es name tag given, j = .map es ∧ Tagged name given es ∧ Tag.ofName name = .ok tag ∧
      ("type" :: given.map (·.1)).Nodup := by
  cases h with
  | plain hs h =>
    obtain ⟨title, ht⟩ := exists_plain_title hs
    exact ⟨_, _, _, _, rfl, h, ht, by simp⟩
  | @sequence kind _ _ _ h _ =>
    obtain ⟨title, ht⟩ := exists_sequence_title kind
    exact ⟨_, _, _, _, rfl, h, ht, by simp⟩
  | @mapping kind _ _ _ _ _ h _ _ =>
    obtain ⟨title, ht⟩ := exists_mapping_title kind
    exact ⟨_, _, _, _, rfl, h, ht, by simp⟩
  | tuple h _ | optional h _ | union h _ | literal h _ | record h _ | enum h _ | typedDict h _ =>
    exact ⟨_, _, _, _, rfl, h, rfl, by simp⟩

end Describing

/-- A text that is a document of a shape is read as the shape. -/
theorem Shape.ofDocument_of_describes {s : Shape} {text : String} {j : Json}
    (h : Describes j s) (ht : j.SpelledBy text.toList) (hd : j.depth ≤ Reading.maxDepth)
    (hp : Describing.PlainDefaults j) : ofDocument text = .ok s := by
  obtain ⟨hb, hv, ha⟩ := ht
  obtain ⟨k, hk, rfl⟩ := hv.exists_kept
  rw [Json.depth_withIntegers] at hd
  have hfaithful := Describing.faithful k (Describing.plainDefaults_of_withIntegers hp)
  obtain ⟨p, hp, hs⟩ := hfaithful.shape h
  obtain ⟨_, name, tag, given, hmap, htagged, htag, hn⟩ := Describing.exists_tagged h
  obtain ⟨es, rfl, rfl⟩ := Json.withIntegers_eq_map_iff.mp hmap
  have htype : ∀ e ∈ es, e.1 = "type" →
      ∃ name tag, e.2 = .str name ∧ Tag.ofName name = .ok tag := by
    intro e he hkey
    have hmem : e ∈ es.filter fun e => e.1 == "type" :=
      List.mem_filter.mpr ⟨he, beq_iff_eq.mpr hkey⟩
    rw [htagged.tag_eq (List.nodup_cons.mp hn).1] at hmem
    obtain rfl := List.mem_singleton.mp hmem
    exact ⟨name, tag, rfl, htag⟩
  have honce : es.Pairwise fun e f => f.1 = "type" → e.1 ≠ f.1 := by
    apply (htagged.pairwise hn).imp
    intro e f hne hf
    exact hne (List.mem_cons.mpr (.inl hf))
  have hread : Document.readOutline text.toList = .ok p :=
    Document.readOutline_of_kept (.mk hb hk ha) hd htype honce hp
  rw [ofDocument, hread]
  exact mapError_eq_ok_iff.mpr hs

/-! ## A document for every shape -/

/-- A literal that is no float without a numeral. -/
def Literal.IsFinite (l : Literal) : Prop := ∀ x, l = .float x → x.isFinite = true

/-- A default, if there is one, is what some JSON without repeated keys decodes to. -/
def Field.DefaultDecodes (f : Field Shape) : Prop :=
  ∀ v, f.default? = some v → ∃ c : Json, c.withIntegers = c ∧ c.UniqueKeys ∧
    decode Settings.standard f.shape c = .ok v

namespace Shape

def SelfDocumentable : Shape → Prop
  | literal ls => ∀ l ∈ ls, l.IsFinite
  | enum _ ms => ∀ m ∈ ms, m.value.IsFinite
  | record _ fs => ∀ f ∈ fs, f.DefaultDecodes
  | _ => True

/-- A shape whose literals are finite and whose defaults decode, wherever they occur in it. -/
def Documentable (s : Shape) : Prop := ∀ t, Within t s → t.SelfDocumentable

theorem documentable_iff {s : Shape} :
    s.Documentable ↔ s.SelfDocumentable ∧ ∀ p ∈ s.parts, p.Documentable := forall_within_iff

end Shape

namespace Describing

variable {known : List String} {given : List (String × Json)} {tag : String}

theorem gives_self (h : ∀ g ∈ given, g.1 ∈ known) : Gives known given given := by
  rw [Gives, List.filter_eq_self.mpr fun g hg => decide_eq_true (h g hg)]

theorem tagged_self : Tagged tag given (("type", .str tag) :: given) := by
  apply gives_self
  simpa using fun k j hm => .inr ⟨j, hm⟩

theorem withIntegers_eq_self_of_map {es : List (String × Json)}
    (h : ∀ e ∈ es, e.2.withIntegers = e.2) : (Json.map es).withIntegers = .map es := by
  have hid : ∀ e ∈ es, (e.1, e.2.withIntegers) = e := fun e he => by rw [h e he]
  rw [Json.withIntegers_map, List.map_congr_left hid, List.map_id']

theorem exists_trees {α : Type} {R : Json → α → Prop} {ys : List α}
    (h : ∀ y ∈ ys, ∃ j, R j y ∧ j.withIntegers = j) :
    ∃ js, List.Forall₂ R js ys ∧ (Json.list js).withIntegers = .list js := by
  obtain ⟨js, hjs⟩ := List.exists_forall₂ h
  refine ⟨js, hjs.flip.imp fun _ _ => And.left, ?_⟩
  have hid : ∀ j ∈ js, j.withIntegers = j := by
    intro j hj
    obtain ⟨_, -, -, hw⟩ := hjs.exists_of_mem_right hj
    exact hw
  rw [Json.withIntegers_list, List.map_congr_left hid, List.map_id']

theorem exists_ofLiteral {l : Literal} (h : l.IsFinite) :
    ∃ j, OfLiteral j l ∧ j.withIntegers = j := by
  cases l with
  | none => exact ⟨.null, .none, rfl⟩
  | bool b => exact ⟨.bool b, .bool b, rfl⟩
  | int i => exact ⟨.int i, .int i, rfl⟩
  | float x =>
    obtain ⟨n, hn⟩ := Shape.exists_toNumeral? (h x rfl)
    obtain ⟨hf, hx⟩ := Binary64.toBinary64?_of_toNumeral? hn
    exact ⟨.number n, .float hf hx, Passage.apply_fractional (p := .text) hf⟩
  | str s => exact ⟨.str s, .str s, rfl⟩

theorem exists_ofMember {m : EnumMember} (h : m.value.IsFinite) :
    ∃ j, OfMember j m ∧ j.withIntegers = j := by
  obtain ⟨j, hj, hw⟩ := exists_ofLiteral h
  refine ⟨.map [("name", .str m.name), ("value", j)], .mk (gives_self (by simp)) hj, ?_⟩
  exact withIntegers_eq_self_of_map (List.forall_mem_pair.mpr ⟨rfl, hw⟩)

theorem exists_ofField {f : Field Shape} (h : f.DefaultDecodes)
    (hs : ∃ j, Describes j f.shape ∧ j.withIntegers = j) :
    ∃ j, OfField Describes j f ∧ j.withIntegers = j := by
  obtain ⟨name, s, default?⟩ := f
  obtain ⟨j, hj, hw⟩ := hs
  cases default? with
  | none =>
    refine ⟨.map [("name", .str name), ("type", j)], .required (gives_self (by simp)) hj, ?_⟩
    exact withIntegers_eq_self_of_map (List.forall_mem_pair.mpr ⟨rfl, hw⟩)
  | some v =>
    obtain ⟨c, hc, hu, hv⟩ := h v rfl
    refine ⟨.map [("name", .str name), ("type", j), ("default", c)],
      .defaulted (gives_self (by simp)) hj hu hv, ?_⟩
    exact withIntegers_eq_self_of_map
      (List.forall_mem_cons.mpr ⟨rfl, List.forall_mem_pair.mpr ⟨hw, hc⟩⟩)

theorem exists_ofKey {k : Key Shape} (hs : ∃ j, Describes j k.shape ∧ j.withIntegers = j) :
    ∃ j, OfKey Describes j k ∧ j.withIntegers = j := by
  obtain ⟨j, hj, hw⟩ := hs
  refine ⟨.map [("name", .str k.name), ("type", j), ("required", .bool k.required)],
    .given (gives_self (by simp)) hj, ?_⟩
  exact withIntegers_eq_self_of_map
    (List.forall_mem_cons.mpr ⟨rfl, List.forall_mem_pair.mpr ⟨hw, rfl⟩⟩)

/-- Every shape with finite literals and decoded defaults has a document. -/
theorem exists_describes {s : Shape} (h : s.Documentable) :
    ∃ j, Describes j s ∧ j.withIntegers = j := by
  induction s using Shape.inductionParts with
  | step s ih =>
  obtain ⟨hself, hparts⟩ := Shape.documentable_iff.mp h
  have part : ∀ p ∈ s.parts, ∃ j, Describes j p ∧ j.withIntegers = j :=
    fun p hp => ih p hp (hparts p hp)
  have plain : ∀ tag, (tag, s) ∈ plainTags → ∃ j, Describes j s ∧ j.withIntegers = j :=
    fun tag hs => ⟨.map [("type", .str tag)], .plain hs tagged_self, rfl⟩
  have tagged : ∀ tag given, (∀ g ∈ given, g.2.withIntegers = g.2) →
      (Json.map (("type", .str tag) :: given)).withIntegers = .map (("type", .str tag) :: given) :=
    fun tag given hg => withIntegers_eq_self_of_map (List.forall_mem_cons.mpr ⟨rfl, hg⟩)
  cases s with
  | bool => exact plain "bool" (by simp [plainTags])
  | int => exact plain "int" (by simp [plainTags])
  | float => exact plain "float" (by simp [plainTags])
  | str => exact plain "str" (by simp [plainTags])
  | none => exact plain "none" (by simp [plainTags])
  | ellipsis => exact plain "ellipsis" (by simp [plainTags])
  | any => exact plain "any" (by simp [plainTags])
  | decimal => exact plain "decimal" (by simp [plainTags])
  | sequence k s =>
    obtain ⟨j, hj, hw⟩ := part s List.mem_cons_self
    exact ⟨_, .sequence tagged_self hj, tagged _ _ (List.forall_mem_singleton.mpr hw)⟩
  | tuple ss =>
    obtain ⟨js, hjs, hw⟩ := exists_trees part
    exact ⟨_, .tuple tagged_self hjs, tagged _ _ (List.forall_mem_singleton.mpr hw)⟩
  | mapping k key value =>
    obtain ⟨⟨i, hi, hwi⟩, j, hj, hwj⟩ := List.forall_mem_pair.mp part
    exact ⟨_, .mapping tagged_self hi hj, tagged _ _ (List.forall_mem_pair.mpr ⟨hwi, hwj⟩)⟩
  | optional s =>
    obtain ⟨j, hj, hw⟩ := part s List.mem_cons_self
    exact ⟨_, .optional tagged_self hj, tagged _ _ (List.forall_mem_singleton.mpr hw)⟩
  | union ss =>
    obtain ⟨js, hjs, hw⟩ := exists_trees part
    exact ⟨_, .union tagged_self hjs, tagged _ _ (List.forall_mem_singleton.mpr hw)⟩
  | literal ls =>
    obtain ⟨js, hjs, hw⟩ := exists_trees fun l hl => exists_ofLiteral (hself l hl)
    exact ⟨_, .literal tagged_self hjs, tagged _ _ (List.forall_mem_singleton.mpr hw)⟩
  | record name fs =>
    obtain ⟨js, hjs, hw⟩ := exists_trees fun f hf =>
      exists_ofField (hself f hf) (part _ (Shape.mem_parts_record hf))
    exact ⟨_, .record tagged_self hjs, tagged _ _ (List.forall_mem_pair.mpr ⟨rfl, hw⟩)⟩
  | enum name ms =>
    obtain ⟨js, hjs, hw⟩ := exists_trees fun m hm => exists_ofMember (hself m hm)
    exact ⟨_, .enum tagged_self hjs, tagged _ _ (List.forall_mem_pair.mpr ⟨rfl, hw⟩)⟩
  | typedDict name ks =>
    obtain ⟨js, hjs, hw⟩ := exists_trees fun k hk =>
      exists_ofKey (part _ (Shape.mem_parts_typedDict hk))
    exact ⟨_, .typedDict tagged_self hjs, tagged _ _ (List.forall_mem_pair.mpr ⟨rfl, hw⟩)⟩

end Describing

/-- Documents cover the shapes: every shape with finite literals and decoded defaults has a
document, and each text of a document of a shape that is not too deep is read as exactly the shape,
unless a default in it holds a map that stands for a number. -/
theorem documents_cover_shapes (s : Shape) :
    (s.Documentable → ∃ (j : Json) (text : String), Describes j s ∧ j.SpelledBy text.toList) ∧
      ∀ (j : Json) (text : String), Describes j s → j.SpelledBy text.toList → j.depth ≤ 127 →
        Describing.PlainDefaults j → Shape.ofDocument text = .ok s := by
  constructor
  · intro h
    obtain ⟨j, hj, hw⟩ := Describing.exists_describes h
    have hs := Json.spelledBy_write j
    rw [hw] at hs
    exact ⟨j, j.write, hj, hs⟩
  · intro j text
    exact Shape.ofDocument_of_describes

def player : Shape := .record "Player" [⟨"level", .int, some (.int 1)⟩]

def playerDocument : Json :=
  .map [("name", .str "Player"), ("note", .list []), ("type", .str "record"),
    ("fields", .list [.map [("type", .map [("type", .str "int")]), ("name", .str "level"),
      ("default", .int 1)]])]

theorem documents_cover_shapes_player :
    (∃ (j : Json) (text : String), Describes j player ∧ j.SpelledBy text.toList) ∧
      Shape.ofDocument playerDocument.write = .ok player := by
  have hv : decode Settings.standard .int (.int 1) = .ok (.int 1) := by cbv
  have hu : (Json.int 1).UniqueKeys := Json.uniqueKeys_of_parts_eq_nil rfl
  have documentable : player.Documentable := by
    have hdefault : Field.DefaultDecodes ⟨"level", .int, some (.int 1)⟩ := by
      rintro v ⟨⟩
      exact ⟨.int 1, rfl, hu, hv⟩
    have hint : Shape.int.Documentable :=
      Shape.documentable_iff.mpr ⟨trivial, List.forall_mem_nil _⟩
    exact Shape.documentable_iff.mpr
      ⟨List.forall_mem_singleton.mpr hdefault, List.forall_mem_singleton.mpr hint⟩
  have int : Describes (.map [("type", .str "int")]) .int :=
    .plain (by simp [Describing.plainTags]) Describing.tagged_self
  have field : Describing.OfField Describes (.map [("type", .map [("type", .str "int")]),
      ("name", .str "level"), ("default", .int 1)]) ⟨"level", .int, some (.int 1)⟩ :=
    .defaulted (.swap _ _ _) int hu hv
  have document : Describes playerDocument player :=
    .record (.swap _ _ _) (.cons field .nil)
  have plain : Describing.PlainDefaults playerDocument := by
    have one : (Json.int 1).NumberMapFree := Json.numberMapFree_of_parts_eq_nil rfl
    have int : ∀ i, Describing.PlainDefaults (.int i) :=
      fun _ => Describing.plainDefaults_of_parts_eq_nil rfl
    have str : ∀ s, Describing.PlainDefaults (.str s) :=
      fun _ => Describing.plainDefaults_of_parts_eq_nil rfl
    simp [playerDocument, one, int, str]
  obtain ⟨hexists, hread⟩ := documents_cover_shapes player
  exact ⟨hexists documentable, hread playerDocument playerDocument.write document
    (Json.spelledBy_write playerDocument) (by decide) plain⟩

def tally : Shape :=
  .record "Tally" [⟨"words", .mapping .dict .str .str,
    some (.map .dict [(.str Json.numberKey, .str "5")])⟩]

def tallyDocument : Json :=
  .map [("type", .str "record"), ("name", .str "Tally"),
    ("fields", .list [.map [("name", .str "words"),
      ("type", .map [("type", .str "dict"), ("key", .map [("type", .str "str")]),
        ("value", .map [("type", .str "str")])]),
      ("default", .map [(Json.numberKey, .str "5")])]])]

/-- The default of the document is read as the number five, which is no default of the field. -/
theorem not_ofDocument_tally :
    Describes tallyDocument tally ∧ tallyDocument.SpelledBy tallyDocument.write.toList ∧
      tallyDocument.depth ≤ 127 ∧ Shape.ofDocument tallyDocument.write ≠ .ok tally := by
  have str : Describes (.map [("type", .str "str")]) .str :=
    .plain (by simp [Describing.plainTags]) Describing.tagged_self
  have dict : Describes (.map [("type", .str "dict"), ("key", .map [("type", .str "str")]),
      ("value", .map [("type", .str "str")])]) (.mapping .dict .str .str) :=
    .mapping (k := .dict) Describing.tagged_self str str
  have hu : (Json.map [(Json.numberKey, .str "5")]).UniqueKeys := Json.uniqueKeys_map_iff.mpr
    ⟨List.nodup_singleton _,
      List.forall_mem_singleton.mpr (Json.uniqueKeys_of_parts_eq_nil rfl)⟩
  have hv : decode Settings.standard (.mapping .dict .str .str)
      (.map [(Json.numberKey, .str "5")]) =
        .ok (.map .dict [(.str Json.numberKey, .str "5")]) := by cbv
  have field : Describing.OfField Describes (.map [("name", .str "words"),
      ("type", .map [("type", .str "dict"), ("key", .map [("type", .str "str")]),
        ("value", .map [("type", .str "str")])]),
      ("default", .map [(Json.numberKey, .str "5")])])
      ⟨"words", .mapping .dict .str .str, some (.map .dict [(.str Json.numberKey, .str "5")])⟩ :=
    .defaulted (Describing.gives_self (by simp)) dict hu hv
  have hfailed : (Shape.ofDocument tallyDocument.write).isOk = false := by decide +kernel
  refine ⟨.record Describing.tagged_self (.cons field .nil), Json.spelledBy_write tallyDocument,
    by decide, fun h => ?_⟩
  rw [h] at hfailed
  cases hfailed

end ShapeCodec
