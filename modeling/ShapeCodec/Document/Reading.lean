import ShapeCodec.Document.Form

/-! # Reading documents

A document is read up to the end of its value; what follows is not looked at. Its own tag is checked
as soon as it is there, so that a wrong one is reported before anything behind it. Everything else
about its form is checked when the whole value has been read.
-/

namespace ShapeCodec

/-- A fault in the form of a document. It has no position when the whole document was read. -/
structure FormFault where
  cause : FormCause
  path : Path
  position : Option Position

inductive DocumentFault
  | form (fault : FormFault)
  | content (fault : ContentFault)

def DocumentFault.message : DocumentFault → String
  | form f =>
    "descriptor error: " ++ f.path.intro ++ f.cause.message ++
      (match f.position with | some p => p.suffix | none => "")
  | content f => "descriptor error: " ++ f.message

namespace Document

structure Misplaced where
  cause : FormCause
  path : Path
  place : Place

/-- Checks a lexeme that stands where the tag of the whole document must stand. -/
def checkTag (path : Path) (x : Lexeme) : Except Misplaced Unit :=
  match x.content with
  | .token (.str name) =>
    match Tag.ofName name with
    | .ok _ => .ok ()
    | .error cause => .error ⟨cause, path, .before x.rest⟩
  | _ =>
    match x.otherKind? with
    | some (found, place) => .error ⟨.wrongKind found "variant identifier", path, place⟩
    | none => .ok ()

def checkTop (state : Reading) (x : Lexeme) : Except Misplaced Unit :=
  match state with
  | .value [.map _ "type"] => checkTag [.key "type"] x
  | .firstItem [] => checkTag [.index 0] x
  | .nextKey entries [] =>
    match x.content with
    | .token (.str "type") =>
      if entries.any (·.1 == "type") then
        .error ⟨.repeatedMember "type", [], .leavingMap x.rest⟩
      else .ok ()
    | _ => .ok ()
  | _ => .ok ()

def step (state : Reading) (x : Lexeme) : Except Misplaced Reading := do
  checkTop state x
  (Reading.step .document state x).mapError fun f =>
    ⟨.syntaxFault f.cause, f.path.getD [], f.place⟩

def readValue (state : Reading) (cs : List Char) : Except Misplaced (Json × List Char) :=
  Reading.walk step ⟨.syntaxFault .endInValue, [], .before []⟩ state cs (Lexeme.ofChars cs)

/-- True of a value that cannot be the top of a document. What is wrong with it is found at once. -/
def isBare : Json → Bool
  | .list [] => true
  | .list _ => false
  | .map es => !es.any (·.1 == "type")
  | _ => true

def readOutline (text : List Char) : Except FormFault Outline :=
  match readValue (.value []) text with
  | .error m => .error ⟨m.cause, m.path, some (m.place.position text)⟩
  | .ok (json, rest) =>
    (Outline.ofJson json).mapError fun cause =>
      ⟨cause, [], if isBare json then some (Place.position text (.before rest)) else none⟩

end Document

/-- Reads the shape that a document describes. -/
def Shape.ofDocument (text : String) : Except DocumentFault Shape :=
  match Document.readOutline text.toList with
  | .error f => .error (.form f)
  | .ok outline => outline.toShape.mapError .content

end ShapeCodec
