import ShapeCodec.Document.Outline
import ShapeCodec.Text.Escaped

/-! # The form of a document

A document is an object whose member `type` is the tag of a shape; the tag says which further
members there must be. Members may come in any order and others are passed over. A list is taken
too: the tag, then the members in their declared order. Fields of records, members of enums and keys
of typed dicts are objects or lists of the same kind, without a tag.

Members are read in the order of the document, so the first thing that is wrong in it is what is
reported; members that are missing are looked for at the end.
-/

namespace ShapeCodec

inductive Tag
  | plain (shape : Shape)
  | sequence (kind : SequenceKind)
  | tuple
  | mapping (kind : MappingKind)
  | optional
  | union
  | literal
  | record
  | enum
  | typedDict

inductive FormCause
  | syntaxFault (cause : SyntaxCause)
  | unknownTag (name : String)
  | tagIndex (index : Int)
  | wrongKind (found expected : String)
  | wrongLength (length : Nat) (expected : String)
  | missingMember (name : String)
  | repeatedMember (name : String)
  /-- A literal or a default in which a map is to stand for a number. -/
  | numberText (fault : TextFault)

abbrev Form (α : Type) := Except FormCause α

namespace Tag

/-- The tags by their names in documents, each with the name that messages about its members use. -/
def table : List (String × String × Tag) :=
  [("bool", "Bool", plain .bool), ("int", "Int", plain .int), ("float", "Float", plain .float),
   ("str", "Str", plain .str), ("none", "None", plain .none),
   ("ellipsis", "Ellipsis", plain .ellipsis), ("any", "Any", plain .any),
   ("decimal", "Decimal", plain .decimal), ("list", "List", sequence .list),
   ("deque", "Deque", sequence .deque), ("set", "Set", sequence .set),
   ("frozen_set", "FrozenSet", sequence .frozenSet), ("tuple", "Tuple", sequence .tuple),
   ("tuple_fixed", "TupleFixed", tuple), ("dict", "Dict", mapping .dict),
   ("ordered_dict", "OrderedDict", mapping .ordered), ("mapping", "Mapping", mapping .mapping),
   ("optional", "Optional", optional), ("union", "Union", union),
   ("literal", "Literal", literal), ("record", "Record", record), ("enum", "Enum", enum),
   ("typed_dict", "TypedDict", typedDict)]

def namesText : String := commaText (table.map fun e => "`" ++ e.1 ++ "`")

end Tag

def FormCause.message : FormCause → String
  | syntaxFault cause => cause.message
  | unknownTag name => "unknown variant `" ++ name ++ "`, expected one of " ++ Tag.namesText
  | tagIndex index =>
    "invalid value: integer `" ++ Digit.intText index ++ "`, expected variant index 0 <= i < " ++
      Digit.natText Tag.table.length
  | wrongKind found expected => "invalid type: " ++ found ++ ", expected " ++ expected
  | wrongLength length expected =>
    "invalid length " ++ Digit.natText length ++ ", expected " ++ expected
  | missingMember name => "missing field `" ++ name ++ "`"
  | repeatedMember name => "duplicate field `" ++ name ++ "`"
  | numberText fault => fault.message

/-! ## Values as a document is read -/

namespace Json

/-- How a message names a value of the wrong kind. A number that is not seen as an integer is
seen as a map without members. -/
def describe : Json → String
  | null => "null"
  | bool b => boolName b
  | int i => integerName i.toInt
  | number n => match n.word? with
    | some i => integerName i
    | none => "map"
  | str s => "string " ++ Escaped.text s
  | list _ => "sequence"
  | map _ => "map"

end Json

namespace Tag

def ofName (name : String) : Form (String × Tag) :=
  match table.find? (·.1 == name) with
  | some (_, title, tag) => .ok (title, tag)
  | none => .error (.unknownTag name)

def ofIndex (index : Int) : Form (String × Tag) :=
  match (if 0 ≤ index then table[index.toNat]? else none) with
  | some (_, title, tag) => .ok (title, tag)
  | none => .error (.tagIndex index)

/-- The tag that a value of the member `type` names. Below the top of a document an index into the
table counts as well. -/
def ofJson (json : Json) : Form (String × Tag) :=
  match json with
  | .str name => ofName name
  | .int i =>
    if 0 ≤ i.toInt then ofIndex i.toInt
    else .error (.wrongKind json.describe "variant identifier")
  | .number n =>
    match n.word? with
    | some i =>
      if 0 ≤ i then ofIndex i else .error (.wrongKind json.describe "variant identifier")
    | none => .error (.wrongKind json.describe "variant identifier")
  | _ => .error (.wrongKind json.describe "variant identifier")

end Tag

/-! ## Members -/

inductive Slot
  | inner
  | key
  | value
  | items
  | literals
  | name
  | fields
  | members
  | keys
  | literal
  | default
  | required
deriving DecidableEq

structure Draft where
  inner? : Option Outline := none
  key? : Option Outline := none
  value? : Option Outline := none
  items? : Option (List Outline) := none
  literals? : Option (List Json) := none
  name? : Option String := none
  fields? : Option (List (FieldOutline Outline)) := none
  members? : Option (List MemberOutline) := none
  keys? : Option (List (Key Outline)) := none
  literal? : Option Json := none
  default? : Option Json := none
  required? : Option Bool := none

def Draft.has (d : Draft) : Slot → Bool
  | .inner => d.inner?.isSome
  | .key => d.key?.isSome
  | .value => d.value?.isSome
  | .items => d.items?.isSome
  | .literals => d.literals?.isSome
  | .name => d.name?.isSome
  | .fields => d.fields?.isSome
  | .members => d.members?.isSome
  | .keys => d.keys?.isSome
  | .literal => d.literal?.isSome
  | .default => d.default?.isSome
  | .required => d.required?.isSome

def need {α : Type} (name : String) : Option α → Form α
  | some a => .ok a
  | none => .error (.missingMember name)

/-- A kind of object: its members in declared order, how many of them a list must give at least, and
how messages call it. -/
structure Template where
  slots : List (String × Slot)
  least : Nat
  title : String

def elementsText (n : Nat) : String :=
  if n = 1 then "1 element" else Digit.natText n ++ " elements"

def Template.field : Template :=
  ⟨[("name", .name), ("type", .inner), ("default", .default)], 2, "struct FieldDoc"⟩

def Template.member : Template := ⟨[("name", .name), ("value", .literal)], 2, "struct MemberDoc"⟩

def Template.key : Template :=
  ⟨[("name", .name), ("type", .inner), ("required", .required)], 2, "struct TypedDictFieldDoc"⟩

namespace Tag

def slots : Tag → List (String × Slot)
  | plain _ => []
  | sequence _ => [("of", .inner)]
  | tuple => [("items", .items)]
  | mapping _ => [("key", .key), ("value", .value)]
  | optional => [("of", .inner)]
  | union => [("members", .items)]
  | literal => [("values", .literals)]
  | record => [("name", .name), ("fields", .fields)]
  | enum => [("name", .name), ("members", .members)]
  | typedDict => [("name", .name), ("fields", .keys)]

def template (title : String) (tag : Tag) : Template :=
  ⟨tag.slots, tag.slots.length, "struct variant DescriptorDoc::" ++ title⟩

def build (d : Draft) : Tag → Form Outline
  | plain s => .ok (.plain s)
  | sequence k => return .sequence k (← need "of" d.inner?)
  | tuple => return .tuple (← need "items" d.items?)
  | mapping k => return .mapping k (← need "key" d.key?) (← need "value" d.value?)
  | optional => return .optional (← need "of" d.inner?)
  | union => return .union (← need "members" d.items?)
  | literal => return .literal (← need "values" d.literals?)
  | record => return .record (← need "name" d.name?) (← need "fields" d.fields?)
  | enum => return .enum (← need "name" d.name?) (← need "members" d.members?)
  | typedDict => return .typedDict (← need "name" d.name?) (← need "fields" d.keys?)

end Tag

namespace Draft

def buildField (d : Draft) : Form (FieldOutline Outline) :=
  return ⟨← need "name" d.name?, ← need "type" d.inner?, d.default?⟩

def buildMember (d : Draft) : Form MemberOutline :=
  return ⟨← need "name" d.name?, ← need "value" d.literal?⟩

/-- The key of a typed dict that its members amount to. A key is required unless the document says
that it is not. -/
def buildKey (d : Draft) : Form (Key Outline) :=
  return ⟨← need "name" d.name?, ← need "type" d.inner?, d.required?.getD true⟩

end Draft

/-! ## Reading -/

/-- A JSON value with the ways to read it as a part of a document. Each is taken only when it is
asked for. -/
structure Node where
  json : Json
  shape : Unit → Form Outline
  field : Unit → Form (FieldOutline Outline)
  member : Unit → Form MemberOutline
  key : Unit → Form (Key Outline)
  shapes : Unit → Form (List Outline)
  fields : Unit → Form (List (FieldOutline Outline))
  members : Unit → Form (List MemberOutline)
  keys : Unit → Form (List (Key Outline))

namespace Node

def string (json : Json) : Form String :=
  match json with
  | .str s => .ok s
  | _ => .error (.wrongKind json.describe "a string")

def boolean (json : Json) : Form Bool :=
  match json with
  | .bool b => .ok b
  | _ => .error (.wrongKind json.describe "a boolean")

def list (json : Json) : Form (List Json) :=
  match json with
  | .list xs => .ok xs
  | _ => .error (.wrongKind json.describe "a sequence")

/-- A value that is kept as it is, but for the maps in it that stand for numbers. -/
def value (json : Json) : Form Json :=
  (json.resolve .number).mapError fun
    | .notText found => .wrongKind found.describe "string containing a number"
    | .notNumber fault => .numberText fault
    | .tooLong length => .wrongLength length (elementsText 1 ++ " in map")

def values (json : Json) : Form (List Json) := do
  (← list json).mapM value

end Node

/-- The fault of a list that gives too few or too many elements for a template, if it does. -/
def Template.lengthFault? (t : Template) (length : Nat) : Option FormCause :=
  if length < t.least then
    some (.wrongLength length (t.title ++ " with " ++ elementsText t.slots.length))
  else if t.slots.length < length then
    some (.wrongLength length (elementsText t.slots.length ++ " in sequence"))
  else none

def Draft.read (d : Draft) (slot : Slot) (node : Node) : Form Draft :=
  match slot with
  | .inner => return { d with inner? := some (← node.shape ()) }
  | .key => return { d with key? := some (← node.shape ()) }
  | .value => return { d with value? := some (← node.shape ()) }
  | .items => return { d with items? := some (← node.shapes ()) }
  | .literals => return { d with literals? := some (← Node.values node.json) }
  | .name => return { d with name? := some (← Node.string node.json) }
  | .fields => return { d with fields? := some (← node.fields ()) }
  | .members => return { d with members? := some (← node.members ()) }
  | .keys => return { d with keys? := some (← node.keys ()) }
  | .literal => return { d with literal? := some (← Node.value node.json) }
  | .default => return { d with default? := some (← Node.value node.json) }
  | .required => return { d with required? := some (← Node.boolean node.json) }

namespace Template

/-- Reads the members of an object, in the order of the document. -/
def fillNamed (t : Template) (d : Draft) : List (String × Node) → Form Draft
  | [] => .ok d
  | (name, node) :: rest =>
    match t.slots.find? (·.1 == name) with
    | none => fillNamed t d rest
    | some (_, slot) =>
      if d.has slot then .error (.repeatedMember name)
      else do
        let d ← d.read slot node
        fillNamed t d rest

/-- Reads the elements of a list into the members in declared order. -/
def fillOrdered (d : Draft) : List (String × Slot) → List Node → Form Draft
  | (_, slot) :: slots, node :: nodes => do
    let d ← d.read slot node
    fillOrdered d slots nodes
  | _, _ => .ok d

def fillList (t : Template) (nodes : List Node) : Form Draft := do
  let d ← fillOrdered {} t.slots nodes
  match t.lengthFault? nodes.length with
  | some fault => throw fault
  | none => return d

end Template

def Tag.ofMembers (members : List (String × Node)) : Form (String × Tag) :=
  match members.filter (·.1 == "type") with
  | [] => .error (.missingMember "type")
  | [(_, node)] => Tag.ofJson node.json
  | (_, node) :: _ => do
    let _ ← Tag.ofJson node.json
    throw (.repeatedMember "type")

def Outline.ofMembers (members : List (String × Node)) : Form Outline := do
  let (title, tag) ← Tag.ofMembers members
  tag.build (← (tag.template title).fillNamed {} (members.filter (·.1 != "type")))

def Outline.ofElements : List Node → Form Outline
  | [] => .error (.missingMember "type")
  | node :: nodes => do
    let (title, tag) ← Tag.ofJson node.json
    tag.build (← (tag.template title).fillList nodes)

namespace Node

def ofMembers (json : Json) (members : List (String × Node)) : Node where
  json := json
  shape _ := Outline.ofMembers members
  field _ := do (← Template.field.fillNamed {} members).buildField
  member _ := do (← Template.member.fillNamed {} members).buildMember
  key _ := do (← Template.key.fillNamed {} members).buildKey
  shapes _ := .error (.wrongKind json.describe "a sequence")
  fields _ := .error (.wrongKind json.describe "a sequence")
  members _ := .error (.wrongKind json.describe "a sequence")
  keys _ := .error (.wrongKind json.describe "a sequence")

def ofElements (json : Json) (nodes : List Node) : Node where
  json := json
  shape _ := Outline.ofElements nodes
  field _ := do (← Template.field.fillList nodes).buildField
  member _ := do (← Template.member.fillList nodes).buildMember
  key _ := do (← Template.key.fillList nodes).buildKey
  shapes _ := nodes.mapM fun n => n.shape ()
  fields _ := nodes.mapM fun n => n.field ()
  members _ := nodes.mapM fun n => n.member ()
  keys _ := nodes.mapM fun n => n.key ()

/-- The node of a scalar, which is no part of a document but a literal or a default. -/
def ofScalar (json : Json) : Node where
  json := json
  shape _ := .error (.wrongKind json.describe "internally tagged enum DescriptorDoc")
  field _ := .error (.wrongKind json.describe Template.field.title)
  member _ := .error (.wrongKind json.describe Template.member.title)
  key _ := .error (.wrongKind json.describe Template.key.title)
  shapes _ := .error (.wrongKind json.describe "a sequence")
  fields _ := .error (.wrongKind json.describe "a sequence")
  members _ := .error (.wrongKind json.describe "a sequence")
  keys _ := .error (.wrongKind json.describe "a sequence")

mutual

def ofJson : Json → Node
  | .list xs => ofElements (.list xs) (ofItems xs)
  | .map es => ofMembers (.map es) (ofEntries es)
  | .number n =>
    match n.word? with
    | some _ => ofScalar (.number n)
    | none => ofMembers (.number n) []
  | json => ofScalar json

def ofItems : List Json → List Node
  | [] => []
  | x :: xs => ofJson x :: ofItems xs

def ofEntries : List (String × Json) → List (String × Node)
  | [] => []
  | (name, x) :: rest => (name, ofJson x) :: ofEntries rest

end

end Node

def Outline.ofJson (json : Json) : Form Outline := (Node.ofJson json).shape ()

end ShapeCodec
