import ShapeCodec.Reason
import ShapeCodec.Settings
import ShapeCodec.Value.Sameness

/-! # Conformance

Which values are meant by a shape, and what is to be said against the others. Booleans are no
numbers, integers are also floats, and decimals stand for integers and floats only under decimal
casting. Literals match by kind and value. Of a union any branch will do.
-/

namespace ShapeCodec

def Literal.fits (l : Literal) (v : Value) : Bool := l.toValue.same v

namespace Shape

mutual

/-- True when a value is meant by a shape. -/
def conforms (o : Settings) : Shape → Value → Bool
  | any, _ => true
  | bool, v => match v with
    | .bool _ => true
    | _ => false
  | int, v => match v with
    | .int _ => true
    | .decimal d => o.castDecimal && d.isWhole && d.toInt64?.isSome
    | _ => false
  | float, v => match v with
    | .int _ => true
    | .float _ => true
    | .decimal _ => o.castDecimal
    | _ => false
  | str, v => match v with
    | .str _ => true
    | _ => false
  | none, v => match v with
    | .none => true
    | _ => false
  | ellipsis, v => match v with
    | .ellipsis => true
    | _ => false
  | decimal, v => match v with
    | .decimal _ => true
    | _ => false
  | sequence k s, v => match v with
    | .sequence l xs => k == l && xs.all (conforms o s)
    | _ => false
  | tuple ss, v => match v with
    | .sequence .tuple xs => conformsItems o ss xs
    | _ => false
  | mapping k key value, v => match v with
    | .map l es => k.takes l && es.all fun e => conforms o key e.1 && conforms o value e.2
    | _ => false
  | optional s, v => conforms o s v || match v with
    | .none => true
    | _ => false
  | union ss, v => conformsAny o ss v
  | literal ls, v => ls.any (·.fits v)
  | record _ fs, v => match v with
    | .record _ vs => conformsFields o fs vs
    | _ => false
  | enum name ms, v => match v with
    | .member e m => e == name && ms.any (·.name == m)
    | _ => false
  | typedDict _ ks, v => match v with
    | .map _ es =>
      (es.all fun e => match e.1 with
        | .str name => conformsKey o ks name e.2
        | _ => false) &&
      ks.all fun k => !k.required || Value.hasKey es (.str k.name)
    | _ => false

def conformsItems (o : Settings) : List Shape → List Value → Bool
  | [], [] => true
  | s :: ss, x :: xs => conforms o s x && conformsItems o ss xs
  | _, _ => false

def conformsAny (o : Settings) : List Shape → Value → Bool
  | [], _ => false
  | s :: ss, v => conforms o s v || conformsAny o ss v

/-- Fields have the declared names in the declared order, and conform one by one. -/
def conformsFields (o : Settings) : List (Field Shape) → List (String × Value) → Bool
  | [], [] => true
  | f :: fs, (name, v) :: vs => f.name == name && conforms o f.shape v && conformsFields o fs vs
  | _, _ => false

def conformsKey (o : Settings) : List (Key Shape) → String → Value → Bool
  | [], _, _ => false
  | k :: ks, name, v => if k.name = name then conforms o k.shape v else conformsKey o ks name v

end

/-- The reasons against a value that come before the line of its own, if it does not conform. -/
def withLine (o : Settings) (s : Shape) (v : Value) (inner : List Reason) : List Reason :=
  if conforms o s v then [] else inner ++ [.notInstance v s]

mutual

/-- The reasons against the parts of a value that does not conform. -/
def innerComplaints (o : Settings) : Shape → Value → List Reason
  | sequence k s, v => match v with
    | .sequence l xs =>
      if k = l then xs.flatMap fun x => withLine o s x (innerComplaints o s x) else []
    | _ => []
  | tuple ss, v => match v with
    | .sequence .tuple xs =>
      if xs.length = ss.length then itemComplaints o ss xs
      else [.tupleLength v xs.length ss.length]
    | _ => []
  | mapping k key value, v => match v with
    | .map l es =>
      if k.takes l then
        es.flatMap fun e =>
          withLine o key e.1 (innerComplaints o key e.1) ++
            withLine o value e.2 (innerComplaints o value e.2)
      else []
    | _ => []
  | optional s, v => withLine o s v (innerComplaints o s v) ++ withLine o none v []
  | union ss, v => branchComplaints o ss v
  | record name fs, v => match v with
    | .record _ vs =>
      if vs.map (·.1) = fs.map (·.name) then fieldComplaints o fs vs
      else [.recordFields v name]
    | _ => []
  | typedDict name ks, v => match v with
    | .map _ es =>
      (es.flatMap fun e => match e.1 with
        | .str key => keyComplaints o name ks key e.2
        | key => [.keyKind key name]) ++
      (ks.filter fun k => k.required && !Value.hasKey es (.str k.name)).map
        fun k => .missingKey k.name name
    | _ => []
  | _, _ => []

def itemComplaints (o : Settings) : List Shape → List Value → List Reason
  | s :: ss, x :: xs => withLine o s x (innerComplaints o s x) ++ itemComplaints o ss xs
  | _, _ => []

def branchComplaints (o : Settings) : List Shape → Value → List Reason
  | [], _ => []
  | s :: ss, v => withLine o s v (innerComplaints o s v) ++ branchComplaints o ss v

def fieldComplaints (o : Settings) : List (Field Shape) → List (String × Value) → List Reason
  | f :: fs, (_, v) :: vs =>
    withLine o f.shape v (innerComplaints o f.shape v) ++ fieldComplaints o fs vs
  | _, _ => []

def keyComplaints (o : Settings) (dict : String) :
    List (Key Shape) → String → Value → List Reason
  | [], name, _ => [.unexpectedKey name dict]
  | k :: ks, name, v =>
    if k.name = name then withLine o k.shape v (innerComplaints o k.shape v)
    else keyComplaints o dict ks name v

end

/-- What is to be said against a value, the innermost reason first. -/
def complaints (o : Settings) (s : Shape) (v : Value) : List Reason :=
  withLine o s v (innerComplaints o s v)

end Shape

end ShapeCodec
