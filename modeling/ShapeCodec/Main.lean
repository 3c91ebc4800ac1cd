import ShapeCodec.Command.Run
import ShapeCodec.Files.Pattern

/-! # The command line

Runs a request on the files of the machine.
-/

namespace ShapeCodec

namespace Machine

/-- The number of an error of the operating system, which comes with either sign. -/
def errorNumber (code : UInt32) : UInt32 := min code (0 - code)

def fault (e : IO.Error) : FileFault :=
  match e with
  | .noFileOrDirectory .. => .missing
  | .inappropriateType _ code _ => if errorNumber code = 20 then .notFolder else .isFolder
  | .alreadyExists .. => .occupied
  | .invalidArgument _ code _ => if errorNumber code = 36 then .nameTooLong else .other (toString e)
  | e => .other (toString e)

def attempt {α : Type} (path : String) (action : IO α) : IO (Except FileFault α) := do
  match FilePath.fault? path with
  | some fault => return .error fault
  | none =>
    try
      return .ok (← action)
    catch e => return .error (fault e)

def orElse {α : Type} (default : α) (action : IO α) : IO α := do
  try action catch _ => return default

def folderAccess : FolderAccess IO where
  isThere path := orElse false (do (← IO.FS.realPath path).pathExists)
  isFolder path := orElse false (do (← IO.FS.realPath path).isDir)
  names path := attempt path do
    let entries ← (← IO.FS.realPath path).readDir
    return entries.toList.map (·.fileName)

def access : FileAccess IO where
  read path := do
    if ← folderAccess.isFolder path then return .error .isFolder
    attempt path (IO.FS.readFile path)
  isFolder := folderAccess.isFolder
  glob := Pattern.glob folderAccess
  makeFolder path := attempt path (IO.FS.createDir path)
  write path text := do
    if ← folderAccess.isFolder path then return .error .isFolder
    attempt path (IO.FS.writeFile path text)

def usage : String :=
  "usage: classify -t FILE\n" ++
  "       load -t FILE -i INPUT.. [--no-cast-decimal] [--decimals-as-numbers]\n" ++
  "            [--records-as-lists] [--pretty] [-o FILE]"

end Machine

end ShapeCodec

open ShapeCodec in
/-- Runs a command line. -/
def main (args : List String) : IO UInt32 := do
  match Request.ofArguments args with
  | .error .helpAsked =>
    IO.println Machine.usage
    return 0
  | .error _ =>
    IO.eprintln Machine.usage
    return 2
  | .ok request =>
    match ← (request.run Machine.access).run with
    | .ok output =>
      IO.print output
      return 0
    | .error fault =>
      match fault.chain with
      | [] => return 1
      | first :: rest =>
        IO.eprintln ("Error: " ++ first)
        for message in rest do
          IO.eprintln ("  caused by: " ++ message)
        return 1
