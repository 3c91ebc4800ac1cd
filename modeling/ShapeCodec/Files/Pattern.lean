import ShapeCodec.Files.Access

/-! # Path patterns

Patterns for paths: `?` stands for a character, `*` for any characters of a name, `[a-z]` and
`[!a-z]` for a character inside or outside of ranges, and a part `**` for any chain of folders.
Braces have no meaning of their own. The paths of a pattern come in the order of their names.
-/

namespace ShapeCodec

inductive Atom
  | char (c : Char)
  | anyChar
  | anyChars
  /-- A character in one of the ranges, or in none of them. -/
  | range (inside : Bool) (ranges : List (Char × Char))
  /-- Any chain of folders. -/
  | anyFolders

namespace Atom

/-- The text between the brackets of a range, and the rest. The first character is never the end. -/
def bracketed? : List Char → Option (List Char × List Char)
  | [] => none
  | x :: xs =>
    match xs.dropWhile (· != ']') with
    | _ :: rest => some (x :: xs.takeWhile (· != ']'), rest)
    | [] => none

def ranges : List Char → List (Char × Char)
  | a :: '-' :: b :: rest => (a, b) :: ranges rest
  | a :: rest => (a, a) :: ranges rest
  | [] => []

theorem bracketed?_length {cs inner rest : List Char} (h : bracketed? cs = some (inner, rest)) :
    rest.length < cs.length := by
  unfold bracketed? at h
  split at h
  · cases h
  · rename_i x xs
    split at h
    · rename_i c rest' hd
      have hs := (List.dropWhile_suffix (l := xs) (· != ']')).length_le
      rw [hd] at hs
      cases h
      simp only [List.length_cons] at hs ⊢
      omega
    · cases h

/-- Reads a pattern from the character `index` on, given the character before it. -/
def parse (index : Nat) (before : Option Char) (cs : List Char) : Except PatternFault (List Atom) :=
  match cs with
  | [] => .ok []
  | '?' :: rest => (parse (index + 1) (some '?') rest).map (anyChar :: ·)
  | '*' :: '*' :: '*' :: _ => .error ⟨.stars, index + 2⟩
  | '*' :: '*' :: rest =>
    if before.isNone || before == some '/' then
      match rest with
      | [] => .ok [anyFolders]
      | '/' :: rest => (parse (index + 3) (some '/') rest).map (anyFolders :: ·)
      | _ => .error ⟨.recursiveStars, index + 2⟩
    else .error ⟨.recursiveStars, index - 1⟩
  | '*' :: rest => (parse (index + 1) (some '*') rest).map (anyChars :: ·)
  | '[' :: '!' :: rest =>
    match _h : bracketed? rest with
    | some (inner, after) =>
      (parse (index + inner.length + 3) (some ']') after).map (range false (ranges inner) :: ·)
    | none => .error ⟨.brackets, index⟩
  | '[' :: rest =>
    match _h : bracketed? rest with
    | some (inner, after) =>
      (parse (index + inner.length + 2) (some ']') after).map (range true (ranges inner) :: ·)
    | none => .error ⟨.brackets, index⟩
  | c :: rest => (parse (index + 1) (some c) rest).map (char c :: ·)
termination_by cs.length
decreasing_by
  all_goals simp only [List.length_cons]
  all_goals try omega
  all_goals have := bracketed?_length _h; omega

def takes (a : Atom) (c : Char) : Bool :=
  match a with
  | char d => c == d
  | anyChar => true
  | range inside rs => rs.any (fun r => decide (r.1 ≤ c) && decide (c ≤ r.2)) == inside
  | _ => false

/-- Which of the members of a list hold at their place or at a later one. -/
def anyOnward : List Bool → List Bool
  | [] => []
  | b :: bs =>
    let onward := anyOnward bs
    (b || onward.headD false) :: onward

/-- For a name and for each of the shorter ends of it, whether atoms take it whole. -/
def fitsOnward : List Atom → List Char → List Bool
  | [], cs => cs.map (fun _ => false) ++ [true]
  | anyChars :: as, cs => anyOnward (fitsOnward as cs)
  | a :: as, cs =>
    List.zipWith (fun c fit => a.takes c && fit) cs (fitsOnward as cs).tail ++ [false]

def fits (as : List Atom) (cs : List Char) : Bool := (fitsOnward as cs).headD false

end Atom

inductive PatternPart
  /-- Any chain of folders. -/
  | anywhere
  | literal (name : String)
  | wild (atoms : List Atom)

namespace PatternPart

/-- The characters of atoms that stand for themselves. -/
def literal? : List Atom → Option (List Char)
  | [] => some []
  | .char c :: as => (literal? as).map (c :: ·)
  | _ => none

def ofText (text : String) : Except PatternFault PatternPart :=
  (Atom.parse 0 none text.toList).map fun as =>
    if as.any (fun a => match a with | .anyFolders => true | _ => false) then anywhere
    else match literal? as with
      | some name => literal (String.ofList name)
      | none => wild as

def fits : PatternPart → String → Bool
  | anywhere, _ => true
  | literal s, name => s == name
  | wild as, name => Atom.fits as name.toList

def isAnywhere : PatternPart → Bool
  | anywhere => true
  | _ => false

/-- The names of a folder itself and of the one around it, if a part takes them. Only a part that
starts with a dot does. -/
def dotNames : PatternPart → List String
  | wild (.char '.' :: as) => ["..", "."].filter fun n => Atom.fits (.char '.' :: as) n.toList
  | _ => []

end PatternPart

/-- A pattern: where it starts, its parts, and whether it asks for folders. -/
structure Pattern where
  start : String
  parts : List PatternPart
  foldersOnly : Bool

namespace Pattern

def ofText (text : String) : Except PatternFault Pattern := do
  let _ ← Atom.parse 0 none text.toList
  let relative := text.toList.dropWhile (· == '/')
  let parts ← (FilePath.splitSlashes [] relative).mapM PatternPart.ofText
  return ⟨if FilePath.isAbsolute text then "/" else ".", parts, FilePath.endsWithSlash text⟩

/-- What a search found at one place: a path, or a folder that could not be listed. -/
abbrev Found := Except GlobFault String

variable {m : Type → Type} [Monad m]

/-- A place where a pattern ends, unless the pattern asks for folders and there is none. -/
def accept (folders : FolderAccess m) (foldersOnly : Bool) (path : String) : m (List Found) := do
  if foldersOnly then
    if ← folders.isFolder path then return [.ok path] else return []
  else return [.ok path]

def enter (folder name : String) : String :=
  if FilePath.isHere folder then name else FilePath.join folder name

/-- What there is below a folder where the parts of a pattern lead. The first number bounds the
depth of the search. -/
def expand (folders : FolderAccess m) (foldersOnly : Bool) :
    Nat → List PatternPart → String → m (List Found)
  | 0, _, _ => return []
  | _ + 1, [], _ => return []
  | depth + 1, part :: rest, path => do
    let reach (rest : List PatternPart) (next : String) : m (List Found) :=
      if rest.isEmpty then accept folders foldersOnly next
      else expand folders foldersOnly depth rest next
    match part with
    | .literal name =>
      let there ←
        if name == "." || name == ".." then folders.isFolder path
        else folders.isThere (enter path name)
      if there then reach rest (enter path name) else return []
    | part =>
      if !(← folders.isFolder path) then return []
      match ← folders.names path with
      | .error fault => return [.error ⟨path, fault⟩]
      | .ok names =>
        let dots ← part.dotNames.mapM fun name => reach rest (FilePath.join path name)
        let found ← (names.mergeSort fun a b => decide (a ≤ b)).mapM fun name => do
          let next := enter path name
          if part.isAnywhere then
            let rest := rest.dropWhile (·.isAnywhere)
            let folder ← folders.isFolder next
            let here ← match rest with
              | [] => pure (if folder then [.ok next] else [])
              | p :: ps => if p.fits name then reach ps next else pure []
            let deeper ←
              if folder then expand folders foldersOnly depth (part :: rest) next else pure []
            return here ++ deeper
          else if part.fits name then reach rest next
          else return []
        return dots.flatten ++ found.flatten

/-- A bound for the depth of a search: no path has more bytes. -/
def maxDepth : Nat := 4096

def search (folders : FolderAccess m) (p : Pattern) : m (List Found) :=
  expand folders p.foldersOnly (maxDepth + p.parts.length) p.parts p.start

def glob (folders : FolderAccess m) (text : String) : m (Except PatternFault (List Found)) := do
  match ofText text with
  | .ok p => return .ok (← search folders p)
  | .error fault => return .error fault

end Pattern

end ShapeCodec
