import ShapeCodec.Number.Digit

/-! # Access to files

What a command needs of the files around it. Paths are texts with slashes between their parts; a
path that starts with a slash starts at the root, and any other where the command runs. How patterns
are searched for is left open.
-/

namespace ShapeCodec

inductive FileFault
  | missing
  | isFolder
  | notFolder
  | occupied
  | nameTooLong
  | nulInName
  | other (message : String)
deriving DecidableEq

def FileFault.message : FileFault → String
  | missing => "No such file or directory (os error 2)"
  | isFolder => "Is a directory (os error 21)"
  | notFolder => "Not a directory (os error 20)"
  | occupied => "File exists (os error 17)"
  | nameTooLong => "File name too long (os error 36)"
  | nulInName => "file name contained an unexpected NUL byte"
  | other message => message

inductive PatternCause
  | stars
  | recursiveStars
  | brackets

def PatternCause.message : PatternCause → String
  | stars => "wildcards are either regular `*` or recursive `**`"
  | recursiveStars => "recursive wildcards must form a single path component"
  | brackets => "invalid range pattern"

structure PatternFault where
  cause : PatternCause
  index : Nat

def PatternFault.message (f : PatternFault) : String :=
  "Pattern syntax error near position " ++ Digit.natText f.index ++ ": " ++ f.cause.message

/-- A folder that could not be listed while a pattern was searched for. -/
structure GlobFault where
  path : String
  fault : FileFault

def GlobFault.message (f : GlobFault) : String :=
  "attempting to read `" ++ f.path ++ "` resulted in an error: " ++ f.fault.message

/-- The operations on files, as actions of `m`. -/
structure FileAccess (m : Type → Type) where
  /-- The text of a file. -/
  read : String → m (Except FileFault String)
  /-- True when there is a folder at a path. -/
  isFolder : String → m Bool
  /-- The paths that a pattern leads to, one after the other. In the place of those in a folder that
  cannot be listed there is a fault. -/
  glob : String → m (Except PatternFault (List (Except GlobFault String)))
  /-- Makes a folder in one that is there, where nothing has been before. -/
  makeFolder : String → m (Except FileFault Unit)
  /-- Sets the text of a file. -/
  write : String → String → m (Except FileFault Unit)

/-- The operations that a search goes by, as actions of `m`. -/
structure FolderAccess (m : Type → Type) where
  /-- True when there is a file or folder at a path. -/
  isThere : String → m Bool
  /-- True when there is a folder at a path. -/
  isFolder : String → m Bool
  /-- The names in a folder, in any order. -/
  names : String → m (Except FileFault (List String))

namespace FilePath

/-- The texts between slashes, the first of them behind the characters `before`, which are held last
first. A slash at the end adds nothing. -/
def splitSlashes (before : List Char) : List Char → List String
  | [] => if before.isEmpty then [] else [String.ofList before.reverse]
  | c :: rest =>
    if c = '/' then String.ofList before.reverse :: splitSlashes [] rest
    else splitSlashes (c :: before) rest

def parts (path : String) : List String := (splitSlashes [] path.toList).filter (!·.isEmpty)

def isAbsolute (path : String) : Bool := path.toList.head? == some '/'

def endsWithSlash (path : String) : Bool := path.toList.getLast? == some '/'

def join (folder name : String) : String :=
  if folder.isEmpty || endsWithSlash folder then folder ++ name else folder ++ "/" ++ name

/-- True of the paths that stand for the folder in which a command runs. -/
def isHere (path : String) : Bool :=
  !path.isEmpty && !isAbsolute path && (parts path).all (· == ".")

def maxNameSize : Nat := 255

def maxSize : Nat := 4095

/-- What is wrong with a path whatever there is at it, if anything is. -/
def fault? (path : String) : Option FileFault :=
  if path.toList.contains '\x00' then some .nulInName
  else if path.isEmpty then some .missing
  else if maxSize < path.utf8ByteSize then some .nameTooLong
  else none

/-- A path, from its end on, without the slashes at its end and without dots there that are parts of
their own. A slash or a dot that is the whole path stays. -/
def trimEnd : List Char → List Char
  | '/' :: c :: before => trimEnd (c :: before)
  | '.' :: '/' :: before => trimEnd ('/' :: before)
  | path => path

/-- The folders that end at the slashes of a path, all of them from their ends on, the innermost
first. -/
def foldersBefore : List Char → List (List Char)
  | [] => []
  | c :: before =>
    if c = '/' then trimEnd (c :: before) :: foldersBefore before else foldersBefore before

/-- The folder that a path lies in, unless the path is empty or the root. -/
def parent? (path : String) : Option String :=
  match trimEnd path.toList.reverse with
  | [] => none
  | ['/'] => none
  | path => some (String.ofList ((foldersBefore path).headD []).reverse)

/-- A folder and those that it lies in, the innermost first. -/
def chain (folder : String) : List String :=
  folder :: (foldersBefore folder.toList.reverse).map fun path => String.ofList path.reverse

end FilePath

namespace FileAccess

variable {m : Type → Type} [Monad m]

/-- A folder that could not be made is as good as made when it is there. -/
def settle (files : FileAccess m) (path : String) (made : Except FileFault Unit) :
    m (Except FileFault Unit) := do
  match made with
  | .ok () => return .ok ()
  | .error fault => if ← files.isFolder path then return .ok () else return .error fault

/-- Makes a folder, and before it the folders that it lies in when they are missing. They are given
by their paths, the innermost first. What has been made stays when the rest fails. -/
def makeChain (files : FileAccess m) : List String → m (Except FileFault Unit)
  | [] => return .ok ()
  | path :: outer => do
    match ← files.makeFolder path with
    | .error .missing =>
      match ← makeChain files outer with
      | .ok () => files.settle path (← files.makeFolder path)
      | .error fault => return .error fault
    | made => files.settle path made

def makeFolders (files : FileAccess m) (path : String) : m (Except FileFault Unit) :=
  if path.isEmpty then return .ok () else files.makeChain (FilePath.chain path)

end FileAccess

end ShapeCodec
