import Dwo.Token.Scanner

/-!
# Source texts by character

A scanner goes over the bytes of its source text. Its rules are about characters, and here they
are said once more, for texts that are lists of characters. A source text is a sequence of
lexemes with gaps between them. At the first character after a gap, `extent` tells the class of
the lexeme that starts there and how many characters it takes; `scan` cuts that lexeme off, and
`lexemes` cuts the whole text. Moving over a text is a fold over its characters (`Cursor.past`),
so moving over `s ++ t` is moving over `s` and then over `t`.

All definitions follow the characters of a text one by one, so results about them are by
induction on the text. That a scanner returns the same tokens, at the same places, is
`Scanner.next_past` and `Scanner.trail_past`.

Cutting is resumable: from the position right behind a lexeme, exactly the lexemes that follow
it are found (`exists_lexemes_of_append`), because the position and the text that is left are
all that `scan` depends on.

A source text may start with a mark that is no part of it. `opening` is the position behind the
mark with the text from there, and `closing` is the position at the end; `sourceLexemes` are the
lexemes between the two.
-/

namespace Dwo

/-! ### Moving over characters -/

namespace Cursor

/-- The position after one more character. A newline ends its row. -/
def advance (c : Cursor) (ch : Char) : Cursor :=
  if ch = '\n' then ⟨c.offset + ch.utf8Size, c.row + 1, 0⟩
  else ⟨c.offset + ch.utf8Size, c.row, c.column + 1⟩

/-- The position after a whole text. -/
def past (c : Cursor) (text : List Char) : Cursor :=
  text.foldl advance c

@[simp]
theorem past_nil (c : Cursor) : c.past [] = c := rfl

@[simp]
theorem past_cons (c : Cursor) (ch : Char) (text : List Char) :
    c.past (ch :: text) = (c.advance ch).past text := rfl

/-- Going over a text in two parts is going over it at once. -/
@[simp]
theorem past_append (c : Cursor) (s t : List Char) : c.past (s ++ t) = (c.past s).past t :=
  List.foldl_append

end Cursor

/-! ### Character classes -/

/-- Blanks separate lexemes: space, tab, newline, vertical tab, form feed, carriage return. -/
def isBlank (c : Char) : Bool :=
  c == ' ' || c == '\t' || c == '\n' || c == '\x0b' || c == '\x0c' || c == '\r'

/-- The six blanks. -/
theorem isBlank_iff {c : Char} :
    isBlank c = true ↔
      c = ' ' ∨ c = '\t' ∨ c = '\n' ∨ c = '\x0b' ∨ c = '\x0c' ∨ c = '\r' := by
  simp only [isBlank, Bool.or_eq_true, beq_iff_eq, or_assoc]

/-- Characters that start a word: ASCII letters and `_`. -/
def isWordStart (c : Char) : Bool :=
  c.isAlpha || c == '_'

/-- Characters that continue a word: ASCII letters and digits and `_`. -/
def isWordPart (c : Char) : Bool :=
  c.isAlphanum || c == '_'

/-- Printable ASCII characters other than letters, digits and the space. -/
def isPunctuation (c : Char) : Bool :=
  decide ('!' ≤ c) && decide (c ≤ '~') && !c.isAlphanum

/-! ### Gaps -/

/-- Moves over blanks and comments, from inside a comment if `inComment`, and returns the place
reached with the text from there. -/
def skipGap : (inComment : Bool) → Cursor → List Char → Cursor × List Char
  | _, cursor, [] => (cursor, [])
  | true, cursor, c :: cs => skipGap (c != '\n') (cursor.advance c) cs
  | false, cursor, c :: cs =>
    if isBlank c then skipGap false (cursor.advance c) cs
    else if c = '/' ∧ cs.head? = some '/' then skipGap true (cursor.advance c) cs
    else (cursor, c :: cs)

/-- What remains after a gap is a suffix of the text, and the cursor has moved over the rest. -/
theorem exists_skipGap_eq (inComment : Bool) (cursor : Cursor) (text : List Char) :
    ∃ gap, text = gap ++ (skipGap inComment cursor text).2 ∧
      (skipGap inComment cursor text).1 = cursor.past gap := by
  fun_induction skipGap inComment cursor text with
  | case1 | case5 => exact ⟨[], rfl, rfl⟩
  | case2 cursor c cs ih | case3 cursor c cs _ ih | case4 cursor c cs _ _ ih =>
    obtain ⟨gap, htext, hcursor⟩ := ih
    exact ⟨c :: gap, congrArg (c :: ·) htext, hcursor⟩

/-- Behind a gap stands neither a blank nor a comment. -/
theorem of_skipGap_eq_cons {inComment : Bool} {cursor start : Cursor} {text cs : List Char}
    {c : Char} (h : skipGap inComment cursor text = (start, c :: cs)) :
    isBlank c = false ∧ ¬ (c = '/' ∧ cs.head? = some '/') := by
  fun_induction skipGap inComment cursor text with
  | case1 inComment cursor => cases h
  | case2 cursor d ds ih | case3 cursor d ds _ ih | case4 cursor d ds _ _ ih => exact ih h
  | case5 cursor d ds hblank hslash =>
    obtain ⟨-, hcons⟩ := Prod.mk.inj h
    obtain ⟨rfl, rfl⟩ := List.cons.inj hcons
    exact ⟨Bool.eq_false_iff.mpr hblank, hslash⟩

/-- Skipping a gap never lengthens the text, which is why scanning ends. -/
private theorem length_skipGap_le (inComment : Bool) (cursor : Cursor) (text : List Char) :
    (skipGap inComment cursor text).2.length ≤ text.length := by
  obtain ⟨gap, htext, -⟩ := exists_skipGap_eq inComment cursor text
  have := congrArg List.length htext
  rw [List.length_append] at this
  omega

/-! ### The extent of a lexeme -/

/-- Class and length of the lexeme that opened with a quote `length` characters ago, where
`escaped` tells whether the last of them was a protecting backslash. -/
def quotedExtent : (escaped : Bool) → (length : Nat) → List Char → Kind × Nat
  | _, length, [] => (.unknown, length)
  | escaped, length, c :: cs =>
    if c = '\n' then (.unknown, length)
    else if escaped then quotedExtent false (length + 1) cs
    else if c = '"' then (.string, length + 1)
    else quotedExtent (c == '\\') (length + 1) cs

/-- Class and length of the lexeme that starts with `c` and is followed by the text `cs`. -/
def extent (c : Char) (cs : List Char) : Kind × Nat :=
  if isWordStart c then (.identifier, (cs.takeWhile isWordPart).length + 1)
  else if c.isDigit then (.integer, (cs.takeWhile Char.isDigit).length + 1)
  else if c = '"' then quotedExtent false 1 cs
  else if isPunctuation c then (.symbol, 1)
  else (.unknown, (cs.takeWhile fun d => !isBlank d).length + 1)

/-- A quoted string only grows while it is read. -/
theorem le_quotedExtent (escaped : Bool) (length : Nat) (cs : List Char) :
    length ≤ (quotedExtent escaped length cs).2 := by
  fun_induction quotedExtent escaped length cs <;> grind

/-- A lexeme has at least one character. -/
theorem extent_pos (c : Char) (cs : List Char) : 0 < (extent c cs).2 := by
  have := le_quotedExtent false 1 cs
  grind [extent]

/-! ### Cutting a text -/

/-- What stands at a position of a text, behind a gap: the end of the text, or a lexeme with the
text after it. -/
inductive Scan where
  | done (stop : Cursor)
  | found (lexeme : Lexeme) (rest : List Char)
deriving DecidableEq, Repr

/-- Moves over a gap and cuts the next lexeme off `text`, which starts at `cursor`. -/
def scan (path : String) (cursor : Cursor) (text : List Char) : Scan :=
  match skipGap false cursor text with
  | (start, []) => .done start
  | (start, c :: cs) =>
    let kind := (extent c cs).1
    let word := (c :: cs).take (extent c cs).2
    let token : Token :=
      { kind := kind
        text := String.ofList word
        value := lexemeValue kind word
        location := start.location path }
    .found ⟨token, start.past word⟩ ((c :: cs).drop (extent c cs).2)

/-- Cutting a lexeme off makes the text shorter. -/
theorem length_lt_of_scan {path : String} {cursor : Cursor} {text rest : List Char} {l : Lexeme}
    (h : scan path cursor text = .found l rest) : rest.length < text.length := by
  have hgap := length_skipGap_le false cursor text
  rw [scan] at h
  split at h
  · cases h
  · next start c cs heq =>
    rw [heq, List.length_cons] at hgap
    simp only [Scan.found.injEq] at h
    have := extent_pos c cs
    rw [← h.2, List.length_drop, List.length_cons]
    omega

/-- The lexemes of `text`, which starts at `cursor`. -/
def lexemes (path : String) (cursor : Cursor) (text : List Char) : List Lexeme :=
  match _h : scan path cursor text with
  | .done _ => []
  | .found lexeme rest => lexeme :: lexemes path lexeme.stop rest
termination_by text.length
decreasing_by exact length_lt_of_scan ‹_›

/-- A quote opens a string or, where the line ends first, an unknown token. -/
theorem kind_quotedExtent (escaped : Bool) (length : Nat) (cs : List Char) :
    (quotedExtent escaped length cs).1 = .unknown ∨
      (quotedExtent escaped length cs).1 = .string := by
  fun_induction quotedExtent escaped length cs <;> simp_all

/-- No lexeme has the class that marks the end of a text. -/
theorem kind_extent_ne (c : Char) (cs : List Char) : (extent c cs).1 ≠ .endOfFile := by
  have hquoted := kind_quotedExtent false 1 cs
  rw [extent]
  split
  · simp
  · split
    · simp
    · split
      · rcases hquoted with h | h <;> simp [h]
      · split <;> simp

/-! ### One lexeme -/

/-- The lexeme that starts with `c` at `start` and is followed by the text `cs`. -/
def lexemeAt (path : String) (start : Cursor) (c : Char) (cs : List Char) : Lexeme :=
  let word := (c :: cs).take (extent c cs).2
  { token :=
      { kind := (extent c cs).1
        text := String.ofList word
        value := lexemeValue (extent c cs).1 word
        location := start.location path }
    stop := start.past word }

/-- There is no further token exactly when a gap reaches to the end of the text. -/
theorem scan_eq_done_iff {path : String} {cursor stop : Cursor} {text : List Char} :
    scan path cursor text = .done stop ↔ skipGap false cursor text = (stop, []) := by
  rw [scan]
  split
  · next start heq => simp [heq]
  · next start c cs heq => simp [heq]

/-- A scan that finds nothing more has come to the end of the text. -/
theorem eq_past_of_scan_eq_done {path : String} {cursor stop : Cursor} {text : List Char}
    (h : scan path cursor text = .done stop) : stop = cursor.past text := by
  obtain ⟨gap, htext, hstop⟩ := exists_skipGap_eq false cursor text
  rw [scan_eq_done_iff.mp h] at htext hstop
  rw [htext, List.append_nil]
  exact hstop

/-- What a scan finds is the lexeme behind the gap. -/
theorem scan_eq_found_iff {path : String} {cursor : Cursor} {text rest : List Char}
    {l : Lexeme} :
    scan path cursor text = .found l rest ↔
      ∃ start c cs, skipGap false cursor text = (start, c :: cs) ∧
        l = lexemeAt path start c cs ∧ rest = (c :: cs).drop (extent c cs).2 := by
  rw [scan]
  split
  · next start heq => simp [heq]
  · next start c cs heq =>
    simp only [heq, Scan.found.injEq]
    constructor
    · rintro ⟨rfl, rfl⟩
      exact ⟨start, c, cs, rfl, rfl, rfl⟩
    · rintro ⟨_, _, _, h, rfl, rfl⟩
      obtain ⟨rfl, hcons⟩ := Prod.mk.inj h
      obtain ⟨rfl, rfl⟩ := List.cons.inj hcons
      exact ⟨rfl, rfl⟩

/-- What a scan finds does not mark the end of the text. -/
theorem isEndOfFile_of_scan_eq_found {path : String} {cursor : Cursor} {text rest : List Char}
    {l : Lexeme} (h : scan path cursor text = .found l rest) : l.token.isEndOfFile = false := by
  obtain ⟨start, c, cs, -, rfl, -⟩ := scan_eq_found_iff.mp h
  rw [Token.isEndOfFile, decide_eq_false_iff_not]
  exact kind_extent_ne c cs

/-- A scan splits its text into a gap, the lexeme that it finds, and what it leaves. -/
theorem exists_word_of_scan_eq_found {path : String} {cursor : Cursor} {text rest : List Char}
    {l : Lexeme} (h : scan path cursor text = .found l rest) :
    ∃ gap word, text = gap ++ (word ++ rest) ∧ word ≠ [] ∧ l.token.text = String.ofList word ∧
      l.token.location = (cursor.past gap).location path ∧
      l.stop = (cursor.past gap).past word := by
  obtain ⟨start, c, cs, hgap, rfl, rfl⟩ := scan_eq_found_iff.mp h
  obtain ⟨gap, htext, hstart⟩ := exists_skipGap_eq false cursor text
  rw [hgap] at htext hstart
  obtain rfl : start = cursor.past gap := hstart
  refine ⟨gap, (c :: cs).take (extent c cs).2, ?_, ?_, rfl, rfl, rfl⟩
  · rw [List.take_append_drop]
    exact htext
  · have hpos := extent_pos c cs
    rw [Ne, List.take_eq_nil_iff]
    rintro (hzero | hnil)
    · omega
    · cases hnil

/-- A scan splits its text into what it moves over and what it leaves. -/
theorem exists_of_scan_eq_found {path : String} {cursor : Cursor} {text rest : List Char}
    {l : Lexeme} (h : scan path cursor text = .found l rest) :
    ∃ taken, text = taken ++ rest ∧ l.stop = cursor.past taken := by
  obtain ⟨gap, word, htext, -, -, -, hstop⟩ := exists_word_of_scan_eq_found h
  refine ⟨gap ++ word, ?_, ?_⟩
  · rw [List.append_assoc, htext]
  · rw [hstop, Cursor.past_append]

/-! ### Taking up a text behind a lexeme -/

/-- The first of the lexemes is the one that is scanned, and the others are those behind it. -/
theorem lexemes_eq_cons_iff {path : String} {cursor : Cursor} {text : List Char}
    {l : Lexeme} {ls : List Lexeme} :
    lexemes path cursor text = l :: ls ↔
      ∃ rest, scan path cursor text = .found l rest ∧ lexemes path l.stop rest = ls := by
  rw [lexemes]
  split
  · next heq => simp [heq]
  · next l' rest' heq =>
    simp only [heq, List.cons.injEq, Scan.found.injEq]
    constructor
    · rintro ⟨rfl, rfl⟩
      exact ⟨rest', ⟨rfl, rfl⟩, rfl⟩
    · rintro ⟨_, ⟨rfl, rfl⟩, rfl⟩
      exact ⟨rfl, rfl⟩

/-- Every lexeme is cut off somewhere, and the lexemes behind it are those of what it leaves. -/
theorem exists_lexemeAt_of_append {path : String} {cursor : Cursor} {text : List Char}
    {ls : List Lexeme} {l : Lexeme} {rest : List Lexeme}
    (h : lexemes path cursor text = ls ++ l :: rest) :
    ∃ front c cs, text = front ++ c :: cs ∧ l = lexemeAt path (cursor.past front) c cs ∧
      lexemes path l.stop ((c :: cs).drop (extent c cs).2) = rest := by
  induction ls generalizing cursor text with
  | nil =>
    obtain ⟨left, hscan, hrest⟩ := lexemes_eq_cons_iff.mp h
    obtain ⟨start, c, cs, hgap, rfl, rfl⟩ := scan_eq_found_iff.mp hscan
    obtain ⟨gap, htext, hstart⟩ := exists_skipGap_eq false cursor text
    rw [hgap] at htext hstart
    obtain rfl : start = cursor.past gap := hstart
    exact ⟨gap, c, cs, htext, rfl, hrest⟩
  | cons k ls ih =>
    obtain ⟨mid, hscan, hmid⟩ := lexemes_eq_cons_iff.mp h
    obtain ⟨first, htext, hstop⟩ := exists_of_scan_eq_found hscan
    obtain ⟨front, c, cs, rfl, hl, hrest⟩ := ih hmid
    rw [hstop, ← Cursor.past_append] at hl
    exact ⟨first ++ front, c, cs, by rw [htext, List.append_assoc], hl, hrest⟩

/-- Behind a lexeme, the text has the lexemes that follow it. -/
theorem exists_lexemes_of_append {path : String} {cursor : Cursor} {text : List Char}
    {ls : List Lexeme} {l : Lexeme} {rest : List Lexeme}
    (h : lexemes path cursor text = ls ++ l :: rest) :
    ∃ taken left, text = taken ++ left ∧ l.stop = cursor.past taken ∧
      lexemes path l.stop left = rest := by
  obtain ⟨front, c, cs, htext, rfl, hrest⟩ := exists_lexemeAt_of_append h
  refine ⟨front ++ (c :: cs).take (extent c cs).2, _, ?_, ?_, hrest⟩
  · rw [List.append_assoc, List.take_append_drop, htext]
  · rw [Cursor.past_append]
    rfl

/-! ### Source texts -/

/-- Where the reading of a source text starts, and the text from there. A byte order mark in
front is passed over without taking a column. -/
def opening (source : String) : Cursor × List Char :=
  match source.toList with
  | [] => (.start, [])
  | c :: cs => if c = '\ufeff' then (⟨c.utf8Size, 1, 0⟩, cs) else (.start, c :: cs)

/-- The position after the last character of a source text. -/
def closing (source : String) : Cursor :=
  (opening source).1.past (opening source).2

/-- The lexemes of a source text. -/
def sourceLexemes (path source : String) : List Lexeme :=
  lexemes path (opening source).1 (opening source).2

/-- The token that marks the end of a source text. -/
def closingToken (path source : String) : Token :=
  .endOfFile ((closing source).location path)

/-- A listing of the tokens of a source text, one to a line, the closing one included. -/
def tokenListing (path source : String) : String :=
  String.join ((tokenize path source ++ [closingToken path source]).map fun t => t.dump ++ "\n")

/-- Wherever the scan starts in a source, the end it finds is the end of that source. -/
theorem eq_closing_of_scan_eq_done {path source : String} {taken left : List Char} {stop : Cursor}
    (h : (opening source).2 = taken ++ left)
    (hscan : scan path ((opening source).1.past taken) left = .done stop) :
    stop = closing source := by
  rw [eq_past_of_scan_eq_done hscan, ← Cursor.past_append, ← h, closing]

end Dwo
