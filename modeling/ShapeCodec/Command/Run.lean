import ShapeCodec.Command.Request
import ShapeCodec.Document.Reading
import ShapeCodec.Files.Access

/-! # Running a command

A command reads its files, and either all of its output is made or none: nothing is printed or
written before every input has been loaded and encoded again.
-/

namespace ShapeCodec

inductive CommandFault
  | unreadableDocument (path : String) (fault : FileFault)
  | badDocument (path : String) (fault : DocumentFault)
  | badPattern (fault : PatternFault)
  | failedSearch (fault : GlobFault)
  | emptyPattern (pattern : String)
  | unreadableSource (path : String) (fault : FileFault)
  | failedLoad (path : String) (shape : Shape) (failure : Failure)
  | failedEncoding (failure : Failure)
  | noFolder (fault : FileFault)
  | failedWrite (path : String) (fault : FileFault)

/-- The messages of a failure. A fault of a text is named once more without what it is about. -/
def Failure.chain (f : Failure) : List String :=
  match f with
  | .syntaxFault fault => [f.message, fault.message]
  | f => [f.message]

def CommandFault.chain : CommandFault → List String
  | unreadableDocument path fault => ["failed to read descriptor file " ++ path, fault.message]
  | badDocument path fault => ["invalid descriptor file " ++ path, fault.message]
  | badPattern fault => ["failed to resolve input file paths", fault.message]
  | failedSearch fault => ["failed to resolve input file paths", fault.message]
  | emptyPattern pattern =>
    ["failed to resolve input file paths", "glob pattern matched no files: " ++ pattern]
  | unreadableSource path fault => ["failed to read source file " ++ path, fault.message]
  | failedLoad path shape failure =>
    ("failed to load " ++ path ++ " as " ++ shape.text) :: failure.chain
  | failedEncoding failure => failure.chain
  | noFolder fault => [fault.message]
  | failedWrite path fault => ["failed to write " ++ path, fault.message]

def Verdict.lines (judgment : Judgment) (v : Verdict Reason) : List String :=
  ((if v.holds then "  ✓ " else "  ✗ ") ++ judgment.text) ::
    (if v.holds then [] else v.log.reasons.map fun r => "      " ++ r.text)

/-- What `classify` prints about a shape. -/
def Shape.report (s : Shape) : String :=
  let judgments : List Judgment := [.checkable, .hashable, .keyable, .encodable]
  let lines := s.text :: judgments.flatMap fun j => (s.judge j).lines j
  String.join (lines.map (· ++ "\n"))

namespace LoadRequest

def convert (r : LoadRequest) (shape : Shape) (path text : String) :
    Except CommandFault String := do
  let value ← (load r.settings shape text).mapError (.failedLoad path shape)
  let json ← (encode r.settings shape value).mapError .failedEncoding
  return if r.spread then json.writeSpread else json.write

end LoadRequest

namespace Request

variable {m : Type → Type} [Monad m]

def attempt {α ε : Type} (fault : ε → CommandFault) (action : m (Except ε α)) :
    ExceptT CommandFault m α :=
  ExceptT.mk (do return (← action).mapError fault)

/-- Reads the shape that a document at a path describes. -/
def readShape (files : FileAccess m) (path : String) : ExceptT CommandFault m Shape := do
  let text ← attempt (.unreadableDocument path) (files.read path)
  ExceptT.mk (pure ((Shape.ofDocument text).mapError (.badDocument path)))

/-- True of a text that has a character with a meaning in patterns, or a brace. -/
def isPattern (text : String) : Bool :=
  text.toList.any fun c => c == '*' || c == '?' || c == '[' || c == '{'

/-- The paths that a search found, up to the first folder that could not be listed. -/
def gathered (found : List (Except GlobFault String)) : Except GlobFault (List String) :=
  found.mapM id

def resolve (files : FileAccess m) (input : String) : ExceptT CommandFault m (List String) := do
  if isPattern input then
    let found ← attempt .badPattern (files.glob input)
    let paths ← ExceptT.mk (pure ((gathered found).mapError .failedSearch))
    if paths.isEmpty then throw (.emptyPattern input) else return paths
  else return [input]

def convertFile (files : FileAccess m) (r : LoadRequest) (shape : Shape) (path : String) :
    ExceptT CommandFault m String := do
  let text ← attempt (.unreadableSource path) (files.read path)
  ExceptT.mk (pure (r.convert shape path text))

def save (files : FileAccess m) (path output : String) : ExceptT CommandFault m Unit := do
  match FilePath.parent? path with
  | some folder => attempt .noFolder (files.makeFolders folder)
  | none => pure ()
  attempt (.failedWrite path) (files.write path output)

/-- Runs a request, and returns what it prints. -/
def run (files : FileAccess m) : Request → ExceptT CommandFault m String
  | classify document => do
    let shape ← readShape files document
    return shape.report
  | load r => do
    let shape ← readShape files r.document
    let paths ← r.inputs.mapM (resolve files)
    let texts ← paths.flatten.mapM (convertFile files r shape)
    let output := "\n".intercalate texts
    match r.out? with
    | some path =>
      save files path output
      return ""
    | none => return output ++ "\n"

end Request

end ShapeCodec
