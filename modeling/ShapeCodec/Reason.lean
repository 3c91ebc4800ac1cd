import ShapeCodec.Json.Fault
import ShapeCodec.Json.Writing
import ShapeCodec.Log
import ShapeCodec.Shape.Text

/-! # Reasons

Everything the engines can have against a shape, a value or a JSON tree, as data. The wording of a
reason is chosen here and nowhere else.
-/

namespace ShapeCodec

inductive Judgment
  | checkable
  | hashable
  | keyable
  | encodable
deriving DecidableEq

def Judgment.text : Judgment → String
  | checkable => "typecheckable"
  | hashable => "hashable"
  | keyable => "keyable"
  | encodable => "JSON encodable"

inductive NameOwner
  | record
  | enum
  | typedDict
deriving DecidableEq

def NameOwner.text : NameOwner → String
  | record => "record"
  | enum => "enum"
  | typedDict => "typed dict"

/-- What is wrong with the entries of a JSON map or list that should be a record or a typed dict. -/
inductive Problem
  | unexpectedField (name : String)
  | failedField (name : String)
  | missingField (name : String)
  | unexpectedKey (name : String)
  | failedKey (name : String)
  | missingKey (name : String)

def Problem.text : Problem → String
  | unexpectedField name => "unexpected field " ++ quoted name
  | failedField name => "field " ++ quoted name ++ " does not decode"
  | missingField name => "missing field " ++ quoted name
  | unexpectedKey name => "unexpected key " ++ quoted name
  | failedKey name => "key " ++ quoted name ++ " does not decode"
  | missingKey name => "missing required key " ++ quoted name

inductive Obstacle
  | anyShape
  /-- The tree is of a kind that the shape never takes. -/
  | found (json : Json)
  | members (failed total : Nat)
  | arity (count expected : Nat)
  /-- The positions of a tuple that do not decode. -/
  | positions (failed : List Nat)
  | collision (key : Value)
  /-- The texts of the keys whose entries do not decode. -/
  | entries (failed : List String)
  | noBranch
  | noLiteral
  | recordLength (count least most : Nat)
  | problems (list : List Problem)
  | notMember (name enum : String)
  | integerRange (n : Numeral)
  | castInt (n : Numeral)
  | castFloat (n : Numeral)
  | fraction (n : Numeral)
  | integerFit (n : Numeral)
  | floatRange (n : Numeral)
  /-- Digits that a decimal cannot hold, as they are written. -/
  | inexact (digits : String)
  | notNumber (s : String)

def Obstacle.text : Obstacle → String
  | anyShape => "any cannot be decoded"
  | found json => "found " ++ json.kind
  | members failed total =>
    Digit.natText failed ++ " of " ++ Digit.natText total ++ " members do not decode"
  | arity count expected =>
    "found " ++ Digit.natText count ++ " members, expected " ++ Digit.natText expected
  | positions failed => "members " ++ commaText (failed.map Digit.natText) ++ " do not decode"
  | collision key => "keys collide on " ++ key.text
  | entries failed => "entries " ++ commaText (failed.map quoted) ++ " do not decode"
  | noBranch => "no member of the union matches"
  | noLiteral => "not one of the literal values"
  | recordLength count least most =>
    "found " ++ Digit.natText count ++ " members, expected " ++ Digit.natText least ++ " to " ++
      Digit.natText most
  | problems list => commaText (list.map Problem.text)
  | notMember name enum => quoted name ++ " is not a member of " ++ enum
  | integerRange n => n.text ++ " is out of range for a 64-bit integer"
  | castInt n =>
    "decimal number " ++ n.text ++ " is not cast to int unless decimal casting is on"
  | castFloat n =>
    "decimal number " ++ n.text ++ " is not cast to float unless decimal casting is on"
  | fraction n => n.text ++ " has a non-zero fractional part"
  | integerFit n => n.text ++ " does not fit a 64-bit integer"
  | floatRange n => n.text ++ " is out of float range"
  | inexact digits => digits ++ " cannot be held exactly as a decimal"
  | notNumber s => quoted s ++ " is not a decimal number"

inductive Reason
  | fails (judgment : Judgment) (shape : Shape)
  | fewBranches (union : Shape)
  | emptyLiteral
  | repeatedName (name : String) (owner : NameOwner) (ownerName : String)
  | badDefault (value : Value) (field record : String) (shape : Shape)
  | infiniteLiteral (literal : Literal)
  | notInstance (value : Value) (shape : Shape)
  | tupleLength (value : Value) (count expected : Nat)
  | recordFields (value : Value) (record : String)
  | keyKind (key : Value) (typedDict : String)
  | unexpectedKey (name typedDict : String)
  | missingKey (name typedDict : String)
  | infiniteFloat (x : Binary64)
  | collidingKeys (entries : List (Value × Value)) (text : String)
  | compoundKey (key : Value) (shape : Shape)
  | undecodable (json : Json) (shape : Shape) (why : Obstacle)
  | unreadableKey (key : String) (shape : Shape) (fault : TextFault)

def TextFault.fullMessage (f : TextFault) : String := "json text error: " ++ f.message

def Reason.text : Reason → String
  | fails judgment shape => "Type " ++ shape.text ++ " is not " ++ judgment.text ++ "."
  | fewBranches union => "Union type " ++ union.text ++ " must have at least two members."
  | emptyLiteral => "Literal type must list at least one value."
  | repeatedName name owner ownerName =>
    "Name " ++ quoted name ++ " is repeated in " ++ owner.text ++ " " ++ ownerName ++ "."
  | badDefault value field record shape =>
    "Default value " ++ value.text ++ " for field " ++ quoted field ++ " of record " ++ record ++
      " is not an instance of " ++ shape.text ++ "."
  | infiniteLiteral literal => "Literal value " ++ literal.text ++ " is not JSON encodable."
  | notInstance value shape =>
    "Value " ++ value.text ++ " is not an instance of " ++ shape.text ++ "."
  | tupleLength value count expected =>
    "Tuple " ++ value.text ++ " has " ++ Digit.natText count ++ " members, expected " ++
      Digit.natText expected ++ "."
  | recordFields value record =>
    "Record " ++ value.text ++ " does not have the fields of " ++ record ++ "."
  | keyKind key typedDict =>
    "Key " ++ key.text ++ " of typed dict " ++ typedDict ++ " is not a string."
  | unexpectedKey name typedDict =>
    "Unexpected key " ++ quoted name ++ " for typed dict " ++ typedDict ++ "."
  | missingKey name typedDict =>
    "Missing required key " ++ quoted name ++ " for typed dict " ++ typedDict ++ "."
  | infiniteFloat x => "Float value " ++ x.text ++ " cannot be represented in JSON."
  | collidingKeys entries key =>
    "Keys of " ++ (Value.map .dict entries).text ++ " collide on the encoded key " ++ quoted key ++
      "."
  | compoundKey key shape =>
    "Key " ++ key.text ++ " does not encode to a scalar under " ++ shape.text ++ "."
  | undecodable json shape why =>
    "Cannot decode " ++ json.write ++ " as " ++ shape.text ++ ": " ++ why.text ++ "."
  | unreadableKey key shape fault =>
    "Cannot decode key " ++ quoted key ++ " as " ++ shape.text ++ ": " ++ fault.fullMessage ++ "."

inductive Failure
  /-- The shape is not fit for the call. -/
  | classification (log : Log Reason)
  /-- The value or the JSON tree does not match the shape. -/
  | conformance (log : Log Reason)
  /-- The text is not JSON. -/
  | syntaxFault (fault : TextFault)

namespace Failure

def message : Failure → String
  | classification log => "classification failure: " ++ log.text Reason.text
  | conformance log => "conformance failure: " ++ log.text Reason.text
  | syntaxFault fault => fault.fullMessage

def reasons : Failure → List Reason
  | classification log => log.reasons
  | conformance log => log.reasons
  | syntaxFault _ => []

end Failure

end ShapeCodec
