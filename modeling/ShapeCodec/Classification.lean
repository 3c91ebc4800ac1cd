import ShapeCodec.Conformance

/-! # Classification of shapes

Which shapes can be checked against, hashed, used as keys and encoded, and what is to be said
against the others. Every judgment goes through the whole shape, so that no reason is lost; the
reasons against a part come before the line of the shape that holds it.
-/

namespace ShapeCodec

/-- The names that have come before, in order, once for each repetition. -/
def repeatedNames (seen : List String) : List String → List String
  | [] => []
  | name :: rest =>
    if name ∈ seen then name :: repeatedNames seen rest else repeatedNames (name :: seen) rest

def Literal.isEncodable : Literal → Bool
  | float x => x.isFinite
  | _ => true

namespace Shape

/-! ## Checkable shapes -/

mutual

/-- True when conformance to a shape makes sense: unions have two branches, literals a value, names
are distinct, and defaults are strict instances of the shapes of their fields. -/
def checkable : Shape → Bool
  | sequence _ s => checkable s
  | tuple ss => checkableAll ss
  | mapping _ key value => checkable key && checkable value
  | optional s => checkable s
  | union ss => decide (2 ≤ ss.length) && checkableAll ss
  | literal ls => !ls.isEmpty
  | record _ fs => decide (fs.map (·.name)).Nodup && checkableFields fs
  | enum _ ms => decide (ms.map (·.name)).Nodup
  | typedDict _ ks => decide (ks.map (·.name)).Nodup && checkableKeys ks
  | _ => true

def checkableAll : List Shape → Bool
  | [] => true
  | s :: ss => checkable s && checkableAll ss

def checkableFields : List (Field Shape) → Bool
  | [] => true
  | f :: fs =>
    checkable f.shape && f.default?.all (conforms Settings.standard.strict f.shape) &&
      checkableFields fs

def checkableKeys : List (Key Shape) → Bool
  | [] => true
  | k :: ks => checkable k.shape && checkableKeys ks

end

/-- The reasons against the default of a field whose shape is checkable. -/
def defaultFaults (record : String) (f : Field Shape) : List Reason :=
  match f.default? with
  | some v =>
    if conforms Settings.standard.strict f.shape v then []
    else complaints Settings.standard.strict f.shape v ++ [.badDefault v f.name record f.shape]
  | Option.none => []

/-- The reasons in `inner`, then the line of a shape that fails a judgment. -/
def failing (judgment : Judgment) (holds : Bool) (s : Shape) (inner : List Reason) : List Reason :=
  if holds then [] else inner ++ [.fails judgment s]

def nameFaults (owner : NameOwner) (ownerName : String) (names : List String) : List Reason :=
  (repeatedNames [] names).map fun name => .repeatedName name owner ownerName

mutual

def checkFaults : Shape → List Reason
  | sequence k s => failing .checkable (checkable (sequence k s)) (sequence k s) (checkFaults s)
  | tuple ss => failing .checkable (checkable (tuple ss)) (tuple ss) (checkFaultsAll ss)
  | mapping k key value =>
    failing .checkable (checkable (mapping k key value)) (mapping k key value)
      (checkFaults key ++ checkFaults value)
  | optional s => failing .checkable (checkable (optional s)) (optional s) (checkFaults s)
  | union ss =>
    failing .checkable (checkable (union ss)) (union ss)
      ((if ss.length < 2 then [.fewBranches (union ss)] else []) ++ checkFaultsAll ss)
  | literal ls => failing .checkable (checkable (literal ls)) (literal ls) [.emptyLiteral]
  | record name fs =>
    failing .checkable (checkable (record name fs)) (record name fs)
      (nameFaults .record name (fs.map (·.name)) ++ checkFaultsFields name fs)
  | enum name ms =>
    failing .checkable (checkable (enum name ms)) (enum name ms)
      (nameFaults .enum name (ms.map (·.name)))
  | typedDict name ks =>
    failing .checkable (checkable (typedDict name ks)) (typedDict name ks)
      (nameFaults .typedDict name (ks.map (·.name)) ++ checkFaultsKeys ks)
  | _ => []

def checkFaultsAll : List Shape → List Reason
  | [] => []
  | s :: ss => checkFaults s ++ checkFaultsAll ss

/-- What is to be said against checking fields. Defaults are looked at where shapes are checkable. -/
def checkFaultsFields (record : String) : List (Field Shape) → List Reason
  | [] => []
  | f :: fs =>
    checkFaults f.shape ++ (if checkable f.shape then defaultFaults record f else []) ++
      checkFaultsFields record fs

def checkFaultsKeys : List (Key Shape) → List Reason
  | [] => []
  | k :: ks => checkFaults k.shape ++ checkFaultsKeys ks

end

/-! ## Hashable shapes -/

mutual

/-- True when no part of a shape is mutable or unknown. -/
def hashable : Shape → Bool
  | any => false
  | sequence k s => (k == .frozenSet || k == .tuple) && hashable s
  | tuple ss => hashableAll ss
  | mapping _ _ _ => false
  | optional s => hashable s
  | union ss => hashableAll ss
  | record _ fs => hashableFields fs
  | typedDict _ _ => false
  | _ => true

def hashableAll : List Shape → Bool
  | [] => true
  | s :: ss => hashable s && hashableAll ss

def hashableFields : List (Field Shape) → Bool
  | [] => true
  | f :: fs => hashable f.shape && hashableFields fs

end

mutual

def hashFaults : Shape → List Reason
  | sequence k s =>
    failing .hashable (hashable (sequence k s)) (sequence k s)
      (if k == .frozenSet || k == .tuple then hashFaults s else [])
  | tuple ss => failing .hashable (hashable (tuple ss)) (tuple ss) (hashFaultsAll ss)
  | optional s => failing .hashable (hashable (optional s)) (optional s) (hashFaults s)
  | union ss => failing .hashable (hashable (union ss)) (union ss) (hashFaultsAll ss)
  | record name fs =>
    failing .hashable (hashable (record name fs)) (record name fs) (hashFaultsFields fs)
  | s => failing .hashable (hashable s) s []

def hashFaultsAll : List Shape → List Reason
  | [] => []
  | s :: ss => hashFaults s ++ hashFaultsAll ss

def hashFaultsFields : List (Field Shape) → List Reason
  | [] => []
  | f :: fs => hashFaults f.shape ++ hashFaultsFields fs

end

/-- A key must be hashable. The line about the key is all that is said. -/
def keyFaults (s : Shape) : List Reason := failing .keyable (hashable s) s []

/-! ## Encodable shapes -/

mutual

/-- True when every instance of a shape has a JSON form: nothing is left open, keys are hashable and
literals are finite. -/
def encodable : Shape → Bool
  | any => false
  | sequence _ s => encodable s
  | tuple ss => encodableAll ss
  | mapping _ key value => encodable key && hashable key && encodable value
  | optional s => encodable s
  | union ss => encodableAll ss
  | literal ls => ls.all (·.isEncodable)
  | record _ fs => encodableFields fs
  | typedDict _ ks => encodableKeys ks
  | _ => true

def encodableAll : List Shape → Bool
  | [] => true
  | s :: ss => encodable s && encodableAll ss

def encodableFields : List (Field Shape) → Bool
  | [] => true
  | f :: fs => encodable f.shape && encodableFields fs

def encodableKeys : List (Key Shape) → Bool
  | [] => true
  | k :: ks => encodable k.shape && encodableKeys ks

end

mutual

/-- What is to be said against encoding a shape. Whether a key is keyable is asked when it is
encodable. -/
def encodeFaults : Shape → List Reason
  | sequence k s => failing .encodable (encodable (sequence k s)) (sequence k s) (encodeFaults s)
  | tuple ss => failing .encodable (encodable (tuple ss)) (tuple ss) (encodeFaultsAll ss)
  | mapping k key value =>
    failing .encodable (encodable (mapping k key value)) (mapping k key value)
      (encodeFaults key ++ (if encodable key then keyFaults key else []) ++ encodeFaults value)
  | optional s => failing .encodable (encodable (optional s)) (optional s) (encodeFaults s)
  | union ss => failing .encodable (encodable (union ss)) (union ss) (encodeFaultsAll ss)
  | literal ls =>
    failing .encodable (encodable (literal ls)) (literal ls)
      ((ls.filter (!·.isEncodable)).map .infiniteLiteral)
  | record name fs =>
    failing .encodable (encodable (record name fs)) (record name fs) (encodeFaultsFields fs)
  | typedDict name ks =>
    failing .encodable (encodable (typedDict name ks)) (typedDict name ks) (encodeFaultsKeys ks)
  | s => failing .encodable (encodable s) s []

def encodeFaultsAll : List Shape → List Reason
  | [] => []
  | s :: ss => encodeFaults s ++ encodeFaultsAll ss

def encodeFaultsFields : List (Field Shape) → List Reason
  | [] => []
  | f :: fs => encodeFaults f.shape ++ encodeFaultsFields fs

def encodeFaultsKeys : List (Key Shape) → List Reason
  | [] => []
  | k :: ks => encodeFaults k.shape ++ encodeFaultsKeys ks

end

/-! ## Verdicts -/

/-- Whether a judgment holds of a shape. All judgments ask for a checkable shape. -/
def satisfies (judgment : Judgment) (s : Shape) : Bool :=
  match judgment with
  | .checkable => checkable s
  | .hashable => checkable s && hashable s
  | .keyable => checkable s && hashable s
  | .encodable => checkable s && encodable s

def faults (judgment : Judgment) (s : Shape) : List Reason :=
  match judgment with
  | .checkable => checkFaults s
  | .hashable => if checkable s then hashFaults s else checkFaults s
  | .keyable => if checkable s then keyFaults s else checkFaults s
  | .encodable =>
    if checkable s then encodeFaults s else checkFaults s ++ [.fails .encodable s]

def judge (judgment : Judgment) (s : Shape) : Verdict Reason :=
  ⟨satisfies judgment s, ⟨faults judgment s⟩⟩

/-- Refuses a shape of which a judgment does not hold. -/
def ensure (judgment : Judgment) (s : Shape) : Except Failure Unit :=
  if satisfies judgment s then .ok () else .error (.classification ⟨faults judgment s⟩)

end Shape

/-- How the keys of a map are turned into texts. -/
inductive KeyForm
  /-- By the text of the scalar that the key encodes to. -/
  | direct
  /-- By the JSON text of what the key encodes to. -/
  | stringified
deriving DecidableEq

/-- The form of the keys of a shape: direct for plain scalars but decimals, literals and enums. -/
def Shape.keyForm : Shape → KeyForm
  | bool => .direct
  | int => .direct
  | float => .direct
  | str => .direct
  | none => .direct
  | literal _ => .direct
  | enum _ _ => .direct
  | _ => .stringified

end ShapeCodec
