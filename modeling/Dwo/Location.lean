/-!
# Places in a source file

A `Location` names a character of a source file for a reader of messages: the path as it was
given, a row counted from one and a column counted from zero. Columns count characters, not
bytes.
-/

namespace Dwo

/-- A place in a source file: path as given, row from one, column from zero. -/
structure Location where
  path : String
  row : Nat
  column : Nat
deriving DecidableEq, Inhabited, Repr

/-- A location is written `path:row:column`. -/
def Location.text (l : Location) : String :=
  l.path ++ ":" ++ toString l.row ++ ":" ++ toString l.column

end Dwo
