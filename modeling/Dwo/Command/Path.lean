/-!
# Paths

A path is text, and is kept as the user wrote it, by the segments between its slashes. An empty
segment means nothing, and neither does `.`, except that it can only stand behind a directory;
`..` leads to the directory above.

A file name has an extension if it has a dot that is not its first character: the text behind the
last dot. The name of the file at a path is its last segment, where `.` and slashes at the end do
not count.
-/

namespace Dwo

/-- A path, by the texts between its slashes. -/
structure Path where
  segments : List String
deriving DecidableEq, Inhabited, Repr

namespace Path

/-- Reads a path. -/
def ofText (text : String) : Path :=
  ⟨(text.toList.splitOn '/').map String.ofList⟩

/-- A path as it is written. -/
def text (p : Path) : String :=
  "/".intercalate p.segments

/-- Whether a path starts at the root. -/
def isAbsolute : Path → Bool
  | ⟨"" :: _ :: _⟩ => true
  | _ => false

/-- Whether a slash ends a path. -/
def endsInSlash (p : Path) : Bool :=
  decide (1 < p.segments.length ∧ p.segments.getLast? = some "")

/-- The segments of a path that are not empty. -/
def parts (p : Path) : List String :=
  p.segments.filter (· ≠ "")

/-- Whether a segment leads nowhere. -/
def isIdle (segment : String) : Bool :=
  decide (segment = "" ∨ segment = ".")

/-- The file name at the end of a path. The directory above has none. -/
def fileName? (p : Path) : Option String :=
  (p.segments.filter (!isIdle ·)).getLast?.filter (· ≠ "..")

/-- The path in front of the last segment that leads somewhere. -/
def parent (p : Path) : Path :=
  ⟨((p.segments.reverse.dropWhile isIdle).drop 1).reverse⟩

end Path

/-- The extension of a file name. -/
def nameExtension? (name : String) : Option String :=
  let reversed := name.toList.reverse
  match reversed.dropWhile (· ≠ '.') with
  | [] | [_] => none
  | _ => some (String.ofList (reversed.takeWhile (· ≠ '.')).reverse)

/-- The extension of the file at a path. -/
def pathExtension? (text : String) : Option String :=
  (Path.ofText text).fileName?.bind nameExtension?

/-- A path for a file with this extension, which is appended unless the path has it. -/
def withExtension (text extension : String) : String :=
  if pathExtension? text = some extension then text else text ++ "." ++ extension

end Dwo
