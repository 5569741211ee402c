import Dwo.Command.Path

/-!
# File trees

A model of the files that a command sees: directories and files, each under the list of names
that leads to it from the root, and a working directory at which relative paths start. There are
no links, so that list identifies a file.

A path is resolved part by part, and every part but the last has to lead to a directory. What the
last part leads to may be missing, in which case it can be created. Names and paths are limited in
size: a path that is too long is refused at once, a name only when it is looked up.
-/

namespace Dwo

/-- Why an operation on files failed. -/
inductive FileError where
  | notFound
  | alreadyExists
  | notDirectory
  | isDirectory
  /-- A name or a whole path exceeds its limit. -/
  | nameTooLong
  /-- The content of a file is not text. -/
  | notText
  /-- Anything else that the operating system reports. -/
  | other (text : String)
deriving DecidableEq, Inhabited, Repr

/-- The wording of an error, with the number under which the operating system knows it. -/
def FileError.message : FileError → String
  | notFound => "No such file or directory (os error 2)"
  | alreadyExists => "File exists (os error 17)"
  | notDirectory => "Not a directory (os error 20)"
  | isDirectory => "Is a directory (os error 21)"
  | nameTooLong => "File name too long (os error 36)"
  | notText => "stream did not contain valid UTF-8"
  | other text => text

/-- What can stand under a name. -/
inductive Entry where
  | directory
  | file (content : ByteArray)
deriving Inhabited

instance : DecidableEq Entry
  | .directory, .directory => isTrue rfl
  | .directory, .file _ => isFalse nofun
  | .file _, .directory => isFalse nofun
  | .file a, .file b =>
    match ByteArray.instDecidableEq a b with
    | isTrue h => isTrue (congrArg Entry.file h)
    | isFalse h => isFalse fun heq => h (Entry.file.inj heq)

/-- Directories and files by the names that lead to them, and the working directory. -/
structure FileTree where
  workingDirectory : List String := []
  entries : List (List String × Entry) := []
deriving DecidableEq, Inhabited

namespace FileTree

/-! ### Looking and storing -/

/-- What stands at a place. The root is always a directory. -/
def get? (t : FileTree) (place : List String) : Option Entry :=
  if place = [] then some .directory else t.entries.lookup place

/-- Puts an entry at a place, instead of what was there. -/
def insert (t : FileTree) (place : List String) (entry : Entry) : FileTree :=
  { t with entries := (place, entry) :: t.entries.filter (·.1 ≠ place) }

/-! ### Resolving paths -/

/-- The most bytes that a name can have. -/
def maxNameSize : Nat := 255

/-- The most bytes that a path can have. -/
def maxPathSize : Nat := 4095

/-- Where a part leads from the directory `here`. -/
def follow (here : List String) (part : String) : List String :=
  if part = "." then here else if part = ".." then here.dropLast else here ++ [part]

/-- The place to which `parts` lead from `here`. All but the last have to lead to directories. -/
def resolveFrom (t : FileTree) (here : List String) : List String → Except FileError (List String)
  | [] => .ok here
  | part :: parts =>
    match t.get? here with
    | none => .error .notFound
    | some (.file _) => .error .notDirectory
    | some .directory =>
      if maxNameSize < part.utf8ByteSize then .error .nameTooLong
      else t.resolveFrom (follow here part) parts

/-- Where a path starts. An empty path starts nowhere. -/
def origin (t : FileTree) (p : Path) : Except FileError (List String) :=
  if p.text = "" then .error .notFound
  else if maxPathSize < p.text.utf8ByteSize then .error .nameTooLong
  else .ok (if p.isAbsolute then [] else t.workingDirectory)

/-- The place to which a path leads. -/
def resolve (t : FileTree) (p : Path) : Except FileError (List String) := do
  t.resolveFrom (← t.origin p) p.parts

/-- Whether a path leads to a directory. -/
def isDirectory (t : FileTree) (p : Path) : Bool :=
  match t.resolve p with
  | .ok place => decide (t.get? place = some .directory)
  | .error _ => false

/-! ### Operations on paths -/

/-- The content of the file at a path. -/
def read (t : FileTree) (p : Path) : Except FileError ByteArray := do
  match t.get? (← t.resolve p) with
  | none => .error .notFound
  | some .directory => .error .isDirectory
  | some (.file content) => if p.endsInSlash then .error .notDirectory else .ok content

/-- The text of the file at a path. -/
def readText (t : FileTree) (path : String) : Except FileError String := do
  match String.fromUTF8? (← t.read (.ofText path)) with
  | some text => .ok text
  | none => .error .notText

/-- Makes a directory where nothing is. -/
def makeDirectory (t : FileTree) (p : Path) : Except FileError FileTree := do
  let place ← t.resolve p
  match t.get? place with
  | some _ => .error .alreadyExists
  | none => .ok (t.insert place .directory)

/-- Makes a directory and those above it that are missing, where the segments of its path come
last segment first. The directory itself is tried first, and those above it only if one of them is
missing; those made before an error stay. -/
def makeDirectoriesFrom (t : FileTree) : (reversed : List String) → FileTree × Option FileError
  | [] => (t, none)
  | segment :: above =>
    let p : Path := ⟨(segment :: above).reverse⟩
    let settle (t : FileTree) (result : Except FileError FileTree) :
        FileTree × Option FileError :=
      match result with
      | .ok t => (t, none)
      | .error e => if t.isDirectory p then (t, none) else (t, some e)
    if Path.isIdle segment then t.makeDirectoriesFrom above
    else match t.makeDirectory p with
      | .error .notFound =>
        match t.makeDirectoriesFrom above with
        | (t, some e) => (t, some e)
        | (t, none) => settle t (t.makeDirectory p)
      | result => settle t result

/-- Makes a directory and those above it that are missing. -/
def makeDirectories (t : FileTree) (p : Path) : FileTree × Option FileError :=
  t.makeDirectoriesFrom p.segments.reverse

/-- Stores a file at a path whose directory exists. A slash at the end of the path asks for a
directory, and the name in front of it is not looked up. -/
def write (t : FileTree) (p : Path) (content : ByteArray) : Except FileError FileTree := do
  let parts := if p.endsInSlash then p.parts.dropLast ++ ["."] else p.parts
  let place ← t.resolveFrom (← t.origin p) parts
  if p.endsInSlash ∨ t.get? place = some .directory then .error .isDirectory
  else .ok (t.insert place (.file content))

/-- Stores a file at a path, and makes the directories that lead to it. -/
def save (t : FileTree) (path : String) (content : ByteArray) : FileTree × Option FileError :=
  let p := Path.ofText path
  match t.makeDirectories p.parent with
  | (t, some e) => (t, some e)
  | (t, none) =>
    match t.write p content with
    | .ok t => (t, none)
    | .error e => (t, some e)

/-! ### Comparing -/

/-- The entries below the working directory that are new or have changed since `before`, by the
names that lead to them from there. -/
def changes (before after : FileTree) : List (List String × Entry) :=
  after.entries.filterMap fun (place, entry) =>
    if before.get? place = some entry then none
    else if after.workingDirectory.isPrefixOf place then
      some (place.drop after.workingDirectory.length, entry)
    else none

end FileTree

end Dwo
