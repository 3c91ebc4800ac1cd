import ShapeCodec.Files.Pattern

/-! # Files in memory

Files and folders as a value. A command that runs on it returns the files as it leaves them.
-/

namespace ShapeCodec

inductive Entry
  | file (text : String)
  | folder

/-- Files and folders by their locations, which are the names that lead to them from the root. The
folders around a listed location need not be listed. -/
structure FileTree where
  /-- The folder in which commands run. -/
  here : List String
  files : List (List String × String)
  folders : List (List String)

namespace FileTree

def text? (t : FileTree) (location : List String) : Option String :=
  (t.files.find? (·.1 == location)).map (·.2)

def hasFolder (t : FileTree) (location : List String) : Bool :=
  location.isEmpty || (t.here :: t.folders).any (location.isPrefixOf ·) ||
    t.files.any fun f => location.isPrefixOf f.1 && location != f.1

def at? (t : FileTree) (location : List String) : Option Entry :=
  if t.hasFolder location then some .folder else (t.text? location).map .file

def needFolder (t : FileTree) (location : List String) : Except FileFault Unit :=
  match t.at? location with
  | some .folder => .ok ()
  | some (.file _) => .error .notFolder
  | none => .error .missing

/-- The location that a part of a path leads to from a location, which must be that of a folder. -/
def step (t : FileTree) (location : List String) (part : String) :
    Except FileFault (List String) := do
  t.needFolder location
  if part == "." then return location
  else if part == ".." then return location.dropLast
  else if FilePath.maxNameSize < part.utf8ByteSize then throw .nameTooLong
  else return location ++ [part]

def walk (t : FileTree) (path : String) (parts : List String) : Except FileFault (List String) :=
  match FilePath.fault? path with
  | some fault => .error fault
  | none => parts.foldlM t.step (if FilePath.isAbsolute path then [] else t.here)

/-- What there is at a path. A path that ends with a slash must not be that of a file. -/
def find (t : FileTree) (path : String) : Except FileFault (List String × Entry) := do
  let location ← t.walk path (FilePath.parts path)
  match t.at? location with
  | some .folder => return (location, .folder)
  | some (.file text) =>
    if FilePath.endsWithSlash path then throw .notFolder else return (location, .file text)
  | none => throw .missing

def read (t : FileTree) (path : String) : Except FileFault String := do
  match ← t.find path with
  | (_, .file text) => return text
  | (_, .folder) => throw .isFolder

def isFolder (t : FileTree) (path : String) : Bool :=
  match t.find path with
  | .ok (_, .folder) => true
  | _ => false

def isThere (t : FileTree) (path : String) : Bool :=
  match t.find path with
  | .ok _ => true
  | .error _ => false

/-- The name that follows a location in a longer one. -/
def nameBelow? (location longer : List String) : Option String :=
  if location.isPrefixOf longer then (longer.drop location.length).head? else none

def names (t : FileTree) (path : String) : Except FileFault (List String) := do
  match ← t.find path with
  | (location, .folder) =>
    let locations := t.here :: t.folders ++ t.files.map (·.1)
    return (locations.filterMap (nameBelow? location)).eraseDups
  | (_, .file _) => throw .notFolder

/-- The folder that a path lies in, which must be there, and its own name in it. A path whose last
part is a dot or two has no name. -/
def approach (t : FileTree) (path : String) : Except FileFault (List String × Option String) := do
  let parts := FilePath.parts path
  let folder ← t.walk path parts.dropLast
  t.needFolder folder
  return (folder, parts.getLast?.filter fun part => part != "." && part != "..")

/-- The tree with one more folder, where nothing has been before. -/
def makeFolder (t : FileTree) (path : String) : Except FileFault FileTree := do
  match ← t.approach path with
  | (_, none) => throw .occupied
  | (folder, some name) =>
    let location ← t.step folder name
    if (t.at? location).isSome then throw .occupied
    else return { t with folders := location :: t.folders }

def write (t : FileTree) (path text : String) : Except FileFault FileTree := do
  match ← t.approach path with
  | (_, none) => throw .isFolder
  | (folder, some name) =>
    if FilePath.endsWithSlash path then throw .isFolder
    let location ← t.step folder name
    if t.hasFolder location then throw .isFolder
    else return { t with files := (location, text) :: t.files.filter (·.1 != location) }

/-- Keeps the tree when an operation fails. -/
def update (operation : FileTree → Except FileFault FileTree) :
    StateM FileTree (Except FileFault Unit) := fun t =>
  match operation t with
  | .ok next => (.ok (), next)
  | .error fault => (.error fault, t)

def folderAccess : FolderAccess (StateM FileTree) where
  isThere path := fun t => (t.isThere path, t)
  isFolder path := fun t => (t.isFolder path, t)
  names path := fun t => (t.names path, t)

def access : FileAccess (StateM FileTree) where
  read path := fun t => (t.read path, t)
  isFolder := folderAccess.isFolder
  glob := Pattern.glob folderAccess
  makeFolder path := update (·.makeFolder path)
  write path text := update (·.write path text)

/-- Sets the text of a file, in folders that are made for it. What cannot be made is left out. -/
def place (path text : String) : StateM FileTree Unit := do
  match FilePath.parent? path with
  | some folder => let _ ← access.makeFolders folder
  | none => pure ()
  let _ ← access.write path text

/-- The tree with files that are given by their paths. Later ones replace earlier ones. -/
def withFiles (t : FileTree) (files : List (String × String)) : FileTree :=
  ((files.forM fun f => place f.1 f.2).run t).2

end FileTree

end ShapeCodec
