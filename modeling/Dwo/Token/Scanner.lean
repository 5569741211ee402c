import Dwo.Token.Basic
import Dwo.Token.Cursor

/-!
# Scanners

A `Scanner` hands out the tokens of a source text one at a time. Its only state is a cursor, so
a position can be saved and taken up again, by the same scanner or by a copy. After the last
token it returns the closing token any number of times.

The cursor stands right after the token returned last; the gap behind that token is passed over
only when the next token is asked for. A gap is a run of blanks and comments, where a comment runs
from `//` through the end of its line. Every text can be cut: what fits no class is a token of kind
`Kind.unknown`. Rules of the classes:

* a word starts with a letter or `_` and goes on with letters, digits and `_`;
* an integer is a run of digits;
* a string runs to the next quote of its line, where a backslash protects what is behind it;
  without that quote the rest of the line is one unknown token;
* any other printable ASCII character is a symbol by itself;
* anything else starts an unknown token that runs to the next blank.

Scanning goes byte by byte and knows nothing of characters: it may stop for a moment inside of one,
and a backslash protects just one byte. Only the positions that it keeps have to be between two
characters, or else there would be no text between them (`slice?`).
-/

namespace Dwo

/-! ### Classes of bytes -/

/-- Blanks separate tokens: space, tab, newline, vertical tab, form feed, carriage return. -/
def isBlankByte (b : UInt8) : Bool :=
  b == ' '.toUInt8 || b == '\t'.toUInt8 || b == '\n'.toUInt8 || b == '\x0b'.toUInt8 ||
    b == '\x0c'.toUInt8 || b == '\r'.toUInt8

/-- ASCII letters. -/
def isLetterByte (b : UInt8) : Bool :=
  decide ('a'.toUInt8 ≤ b ∧ b ≤ 'z'.toUInt8) || decide ('A'.toUInt8 ≤ b ∧ b ≤ 'Z'.toUInt8)

/-- ASCII digits. -/
def isDigitByte (b : UInt8) : Bool :=
  decide ('0'.toUInt8 ≤ b ∧ b ≤ '9'.toUInt8)

/-- Bytes that start a word. -/
def isWordStartByte (b : UInt8) : Bool :=
  isLetterByte b || b == '_'.toUInt8

/-- Bytes that continue a word. -/
def isWordByte (b : UInt8) : Bool :=
  isLetterByte b || isDigitByte b || b == '_'.toUInt8

/-- Printable ASCII characters other than letters, digits and the space. -/
def isPunctuationByte (b : UInt8) : Bool :=
  decide ('!'.toUInt8 ≤ b ∧ b ≤ '~'.toUInt8) && !(isLetterByte b || isDigitByte b)

/-! ### Values of integer literals -/

/-- The number that a run of decimal digits denotes. -/
def decimal (digits : List Char) : Nat :=
  digits.foldl (fun n d => 10 * n + (d.toNat - '0'.toNat)) 0

/-- The largest value of a token, the last of the signed numbers of 64 bits. -/
def maxValue : Nat := 0x7fffffffffffffff

/-- The value of a lexeme: an integer literal denotes its number, but never more than
`maxValue`; every other lexeme has value zero. -/
def lexemeValue (kind : Kind) (text : List Char) : Int :=
  if kind = .integer then min (decimal text) maxValue else 0

/-! ### Bytes of a source text -/

/-- The byte behind a position. -/
def byteAt (source : String) (offset : Nat) : Option UInt8 :=
  if h : offset < source.utf8ByteSize then some (source.getUTF8Byte ⟨offset⟩ h) else none

theorem lt_utf8ByteSize_of_byteAt {source : String} {offset : Nat} {b : UInt8}
    (h : byteAt source offset = some b) : offset < source.utf8ByteSize := by
  rw [byteAt] at h
  split at h
  · assumption
  · cases h

/-- The text between two positions. There is none if one of them is inside a character. -/
def slice? (source : String) (start stop : Nat) : Option String :=
  String.fromUTF8? (source.toUTF8.extract start stop)

namespace Cursor

variable (source : String)

/-- Moves over one byte, if there is one. -/
def bump (c : Cursor) : Cursor :=
  match byteAt source c.offset with
  | some b => c.overByte b
  | none => c

theorem le_offset_bump (c : Cursor) : c.offset ≤ (c.bump source).offset := by
  rw [bump]
  split
  · rw [offset_overByte]
    omega
  · exact Nat.le_refl _

theorem lt_offset_bump {c : Cursor} {b : UInt8} (h : byteAt source c.offset = some b) :
    c.offset < (c.bump source).offset := by
  rw [bump, h, offset_overByte]
  exact Nat.lt_succ_self _

/-- Moves over the bytes of a class. -/
def bumpWhile (p : UInt8 → Bool) (c : Cursor) : Cursor :=
  match _h : byteAt source c.offset with
  | some b => if p b then bumpWhile p (c.bump source) else c
  | none => c
termination_by source.utf8ByteSize - c.offset
decreasing_by
  have := lt_utf8ByteSize_of_byteAt _h
  have := lt_offset_bump source _h
  omega

theorem le_offset_bumpWhile (p : UInt8 → Bool) (c : Cursor) :
    c.offset ≤ (c.bumpWhile source p).offset := by
  fun_induction bumpWhile source p c with
  | case1 c _ _ _ ih => exact Nat.le_trans (le_offset_bump source c) ih
  | case2 | case3 => exact Nat.le_refl _

/-- Moving over a class gets on if there is a byte of the class. -/
theorem lt_offset_bumpWhile {p : UInt8 → Bool} {c : Cursor} {b : UInt8}
    (h : byteAt source c.offset = some b) (hb : p b = true) :
    c.offset < (c.bumpWhile source p).offset := by
  fun_cases bumpWhile source p c with
  | case1 => exact Nat.lt_of_lt_of_le (lt_offset_bump source h) (le_offset_bumpWhile source p _)
  | case2 b' h' hb' =>
    cases h.symm.trans h'
    exact absurd hb hb'
  | case3 h' => cases h.symm.trans h'

/-- The first byte that is left does not belong to the class. -/
theorem not_of_byteAt_bumpWhile {p : UInt8 → Bool} {c : Cursor} {b : UInt8}
    (h : byteAt source (c.bumpWhile source p).offset = some b) : ¬p b = true := by
  fun_induction bumpWhile source p c with
  | case1 _ _ _ _ ih => exact ih h
  | case2 c b' h' hb' =>
    cases h.symm.trans h'
    exact hb'
  | case3 c h' => cases h.symm.trans h'

/-! ### Gaps -/

/-- Moves over a comment, with the newline that ends it. -/
def skipComment (c : Cursor) : Cursor :=
  (c.bumpWhile source (· != '\n'.toUInt8)).bump source

theorem lt_offset_skipComment {c : Cursor} (h : byteAt source c.offset = some '/'.toUInt8) :
    c.offset < (c.skipComment source).offset :=
  Nat.lt_of_lt_of_le (lt_offset_bumpWhile source h rfl) (le_offset_bump source _)

/-- Moves over blanks and comments, to where the next token starts. -/
def tokenStart (c : Cursor) : Cursor :=
  let here := c.bumpWhile source isBlankByte
  if _h : byteAt source here.offset = some '/'.toUInt8 ∧
      byteAt source (here.offset + 1) = some '/'.toUInt8 then
    tokenStart (here.skipComment source)
  else here
termination_by source.utf8ByteSize - c.offset
decreasing_by
  have : c.offset ≤ here.offset := le_offset_bumpWhile source isBlankByte c
  have : here.offset < source.utf8ByteSize := lt_utf8ByteSize_of_byteAt _h.1
  have := lt_offset_skipComment source _h.1
  change _ - (here.skipComment source).offset < _
  omega

theorem le_offset_tokenStart (c : Cursor) : c.offset ≤ (c.tokenStart source).offset := by
  fun_induction tokenStart source c with
  | case1 c here h ih =>
    have : c.offset ≤ here.offset := le_offset_bumpWhile source isBlankByte c
    have := lt_offset_skipComment source h.1
    omega
  | case2 c => exact le_offset_bumpWhile source isBlankByte c

/-- No token starts with a blank. -/
theorem not_isBlankByte_tokenStart {c : Cursor} {b : UInt8}
    (h : byteAt source (c.tokenStart source).offset = some b) : ¬isBlankByte b = true := by
  fun_induction tokenStart source c with
  | case1 _ _ _ ih => exact ih h
  | case2 => exact not_of_byteAt_bumpWhile source h

/-! ### The end of a token -/

/-- Moves over the byte behind a backslash, unless it ends the line. -/
def skipEscaped (c : Cursor) : Cursor :=
  match byteAt source c.offset with
  | some b => if b = '\n'.toUInt8 then c else c.bump source
  | none => c

theorem le_offset_skipEscaped (c : Cursor) : c.offset ≤ (c.skipEscaped source).offset := by
  fun_cases skipEscaped source c with
  | case1 | case3 => exact Nat.le_refl _
  | case2 => exact le_offset_bump source c

/-- Kind and end of the token that opened with a quote, from a position behind that quote. -/
def stringEnd (c : Cursor) : Kind × Cursor :=
  match _h : byteAt source c.offset with
  | none => (.unknown, c)
  | some b =>
    if b = '\n'.toUInt8 then (.unknown, c)
    else if b = '"'.toUInt8 then (.string, c.bump source)
    else if b = '\\'.toUInt8 then stringEnd ((c.bump source).skipEscaped source)
    else stringEnd (c.bump source)
termination_by source.utf8ByteSize - c.offset
decreasing_by
  all_goals
    have := lt_utf8ByteSize_of_byteAt _h
    have := lt_offset_bump source _h
    have := le_offset_skipEscaped source (c.bump source)
    omega

theorem le_offset_stringEnd (c : Cursor) : c.offset ≤ (c.stringEnd source).2.offset := by
  fun_induction stringEnd source c with
  | case1 | case2 => exact Nat.le_refl _
  | case3 c => exact le_offset_bump source c
  | case4 c _ _ _ ih =>
    have := le_offset_bump source c
    have := le_offset_skipEscaped source (c.bump source)
    omega
  | case5 c _ _ _ _ _ ih => exact Nat.le_trans (le_offset_bump source c) ih

/-- Kind and end of the token that starts at a position with the byte `first`. -/
def tokenEnd (c : Cursor) (first : UInt8) : Kind × Cursor :=
  if isWordStartByte first then (.identifier, c.bumpWhile source isWordByte)
  else if isDigitByte first then (.integer, c.bumpWhile source isDigitByte)
  else if first = '"'.toUInt8 then (c.bump source).stringEnd source
  else if isPunctuationByte first then (.symbol, c.bump source)
  else (.unknown, c.bumpWhile source (!isBlankByte ·))

/-- A token takes at least one byte. -/
theorem lt_offset_tokenEnd {c : Cursor} {first : UInt8} (h : byteAt source c.offset = some first)
    (hfirst : ¬isBlankByte first = true) : c.offset < (c.tokenEnd source first).2.offset := by
  fun_cases tokenEnd source c first with
  | case1 hword => exact lt_offset_bumpWhile source h (by grind [isWordStartByte, isWordByte])
  | case2 _ hdigit => exact lt_offset_bumpWhile source h hdigit
  | case3 => exact Nat.lt_of_lt_of_le (lt_offset_bump source h) (le_offset_stringEnd source _)
  | case4 => exact lt_offset_bump source h
  | case5 => exact lt_offset_bumpWhile source h (by simpa using hfirst)

end Cursor

/-! ### Scanners -/

/-- A source text with a position in it. -/
structure Scanner where
  path : String
  source : String
  cursor : Cursor
deriving DecidableEq, Inhabited, Repr

/-- A token and the position right after it. -/
structure Lexeme where
  token : Token
  stop : Cursor
deriving DecidableEq, Inhabited, Repr

namespace Scanner

/-- A scanner at the start of a source text. A byte order mark in front is passed over without
taking a column. -/
def ofSource (path source : String) : Scanner :=
  let isMarked := byteAt source 0 = some 0xef ∧ byteAt source 1 = some 0xbb ∧
    byteAt source 2 = some 0xbf
  ⟨path, source, ⟨if isMarked then 3 else 0, 1, 0⟩⟩

/-- The next token, the closing one included, and the scanner after it. -/
def next (s : Scanner) : Token × Scanner :=
  let start := s.cursor.tokenStart s.source
  match byteAt s.source start.offset with
  | none => (.endOfFile (start.location s.path), { s with cursor := start })
  | some first =>
    let found := start.tokenEnd s.source first
    let text := (slice? s.source start.offset found.2.offset).getD ""
    let token : Token :=
      { kind := found.1
        text := text
        value := lexemeValue found.1 text.toList
        location := start.location s.path }
    (token, { s with cursor := found.2 })

/-- The next token, left in place. -/
def peek (s : Scanner) : Token :=
  s.next.1

/-- The next token, if there is one before the end of the text. -/
def next? (s : Scanner) : Option Token × Scanner :=
  (if s.next.1.isEndOfFile then none else some s.next.1, s.next.2)

@[simp]
theorem source_next (s : Scanner) : s.next.2.source = s.source := by
  fun_cases next s <;> rfl

/-- A call that does not return the closing token takes bytes. -/
theorem offset_lt_of_next {s : Scanner} (h : ¬s.next.1.isEndOfFile = true) :
    s.cursor.offset < s.next.2.cursor.offset ∧ s.cursor.offset < s.source.utf8ByteSize := by
  have hgap := Cursor.le_offset_tokenStart s.source s.cursor
  revert h
  fun_cases next s with
  | case1 => exact fun h => absurd rfl h
  | case2 start first hfirst found =>
    intro _
    have hstop : start.offset < found.2.offset :=
      Cursor.lt_offset_tokenEnd s.source hfirst (Cursor.not_isBlankByte_tokenStart s.source hfirst)
    exact ⟨Nat.lt_of_le_of_lt hgap hstop,
      Nat.lt_of_le_of_lt hgap (lt_utf8ByteSize_of_byteAt hfirst)⟩

/-- All tokens up to the end of the text, each with the position after it, and the scanner at that
end. -/
def trail (s : Scanner) : List Lexeme × Scanner :=
  let read := s.next
  if _h : read.1.isEndOfFile then ([], read.2)
  else
    let rest := read.2.trail
    (⟨read.1, read.2.cursor⟩ :: rest.1, rest.2)
termination_by s.source.utf8ByteSize - s.cursor.offset
decreasing_by
  have := offset_lt_of_next _h
  rw [source_next]
  omega

/-- All tokens up to the end of the text, and the scanner at that end. -/
def drain (s : Scanner) : List Token × Scanner :=
  (s.trail.1.map Lexeme.token, s.trail.2)

/-- The scanner taken back, or ahead, to a saved position. -/
def restore (s : Scanner) (saved : Cursor) : Scanner :=
  { s with cursor := saved }

end Scanner

/-- The tokens of a source text, without the one that marks its end. -/
def tokenize (path source : String) : List Token :=
  (Scanner.ofSource path source).drain.1

end Dwo
