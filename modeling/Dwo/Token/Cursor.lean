import Dwo.Location

/-!
# Cursors

A `Cursor` is a position in a source text. It counts UTF-8 bytes from the start of the text, and
keeps the row and column that messages show. A column counts characters, so only the first byte of
a character takes one.
-/

namespace Dwo

/-- A position in a source text: bytes before it, row from one, column from zero. -/
structure Cursor where
  offset : Nat
  row : Nat
  column : Nat
deriving DecidableEq, Inhabited, Repr

namespace Cursor

/-- The position before the first character. -/
def start : Cursor := ⟨0, 1, 0⟩

/-- The position after one more byte. A newline ends its row; a byte that continues a character
belongs to the column of that character. -/
def overByte (c : Cursor) (byte : UInt8) : Cursor :=
  if byte = '\n'.toUInt8 then ⟨c.offset + 1, c.row + 1, 0⟩
  else if byte &&& 0xc0 ≠ 0x80 then ⟨c.offset + 1, c.row, c.column + 1⟩
  else ⟨c.offset + 1, c.row, c.column⟩

@[simp]
theorem offset_overByte (c : Cursor) (byte : UInt8) : (c.overByte byte).offset = c.offset + 1 := by
  rw [overByte]
  split
  · rfl
  · split <;> rfl

/-- The place of a cursor in the file at `path`. -/
def location (c : Cursor) (path : String) : Location := ⟨path, c.row, c.column⟩

/-- A cursor with all its counts. -/
def text (c : Cursor) : String :=
  "Cursor \x7b offset: " ++ toString c.offset ++ ", row: " ++ toString c.row ++
    ", column: " ++ toString c.column ++ " \x7d"

end Cursor

end Dwo
