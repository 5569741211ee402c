import Dwo.Proofs.Token.Scanning

/-!
# Spellings of tokens

The `Spelling` of a token is its class and its text. Statements are read by the spellings of
their tokens alone; values and places are only passed on. So the tests that reading makes of a
token are tests of its spelling (`Token.isSymbol_iff`, `Token.isKeyword_iff`,
`Token.isSign_iff`), and none of them is changed by moving the token to another place
(`Token.relocate`).

Two facts about the tokens of a source text are used throughout. First, a scanner that is sent
behind a lexeme returns the tokens that follow it (`drain_of_append`). Second, not every
spelling occurs (`lexical_of_mem_tokenize`): no token of a text has the class of its end, and an
identifier is a nonempty run of word characters, so it holds no colon. `Spelling.Lexical` is
what is used of this in the modules on reading.
-/

namespace Dwo

/-! ### Spellings -/

/-- The class and the text of a token, without its value and place. -/
structure Spelling where
  kind : Kind
  text : String
deriving DecidableEq, Inhabited, Repr

namespace Spelling

/-- The spelling of a symbol. -/
def symbol (text : String) : Spelling := ⟨.symbol, text⟩

/-- The spelling of a word. -/
def word (text : String) : Spelling := ⟨.identifier, text⟩

/-- The token of this spelling that stands at `l` in a source text. -/
def tokenAt (l : Location) (s : Spelling) : Token where
  kind := s.kind
  text := s.text
  value := lexemeValue s.kind s.text.toList
  location := l

@[simp]
theorem symbol_inj {a b : String} : symbol a = symbol b ↔ a = b := by
  simp [symbol]

@[simp]
theorem word_inj {a b : String} : word a = word b ↔ a = b := by
  simp [word]

@[simp]
theorem symbol_ne_word (a b : String) : symbol a ≠ word b := by
  simp [symbol, word]

@[simp]
theorem word_ne_symbol (a b : String) : word a ≠ symbol b := by
  simp [symbol, word]

end Spelling

namespace Token

/-- The class and the text of a token. -/
def spelling (t : Token) : Spelling := ⟨t.kind, t.text⟩

/-- Testing a token for a symbol is testing its spelling. -/
theorem isSymbol_iff {t : Token} {text : String} :
    t.isSymbol text = true ↔ t.spelling = .symbol text := by
  simp [isSymbol, spelling, Spelling.symbol]

/-- Testing a token for a keyword is testing its spelling. -/
theorem isKeyword_iff {t : Token} {text : String} :
    t.isKeyword text = true ↔ t.spelling = .word text := by
  simp [isKeyword, spelling, Spelling.word]

/-- The signs are plus and minus. -/
theorem isSign_iff {t : Token} :
    t.isSign = true ↔ t.spelling = .symbol "+" ∨ t.spelling = .symbol "-" := by
  rw [isSign, Bool.or_eq_true, isSymbol_iff, isSymbol_iff]

/-- The operands are the names, the integers and the strings. -/
theorem isOperand_iff {t : Token} :
    t.isOperand = true ↔ t.kind = .identifier ∨ t.kind = .integer ∨ t.kind = .string := by
  rw [isOperand]
  cases t.kind <;> simp [Kind.isOperand]

end Token

/-! ### Tokens at other places -/

namespace Token

section Relocation

variable (f : Location → Location)

/-- A token at another place. -/
def relocate (t : Token) : Token :=
  { t with location := f t.location }

variable (t : Token) (text : String)

@[simp]
theorem kind_relocate : (t.relocate f).kind = t.kind := rfl

@[simp]
theorem text_relocate : (t.relocate f).text = t.text := rfl

@[simp]
theorem location_relocate : (t.relocate f).location = f t.location := rfl

@[simp]
theorem isSymbol_relocate : (t.relocate f).isSymbol text = t.isSymbol text := rfl

@[simp]
theorem isKeyword_relocate : (t.relocate f).isKeyword text = t.isKeyword text := rfl

@[simp]
theorem isOperand_relocate : (t.relocate f).isOperand = t.isOperand := rfl

@[simp]
theorem isSign_relocate : (t.relocate f).isSign = t.isSign := rfl

@[simp]
theorem dump_relocate : (t.relocate f).dump = t.dump := rfl

end Relocation

end Token

/-! ### Taking up a text behind a lexeme -/

/-- A scanner at the stop of a lexeme of its source hands out the tokens behind that lexeme. -/
theorem drain_of_append {path source : String} {ls : List Lexeme} {l : Lexeme}
    {rest : List Lexeme} (h : sourceLexemes path source = ls ++ l :: rest) :
    (Scanner.drain ⟨path, source, l.stop⟩).1 = rest.map Lexeme.token := by
  obtain ⟨taken, left, htext, hstop, hrest⟩ := exists_lexemes_of_append h
  rw [Scanner.drain, hstop, Scanner.trail_past htext, ← hstop, hrest]

/-! ### Spellings that occur -/

/-- What holds of the spelling of every token of a source text: it does not mark the end, and a
word is not empty and holds no colon. -/
structure Spelling.Lexical (s : Spelling) : Prop where
  kind_ne : s.kind ≠ .endOfFile
  word_ne : s.kind = .identifier → s.text ≠ ""
  colon_notMem : s.kind = .identifier → ':' ∉ s.text.toList

/-- The classes of lexemes, with the form of a word. -/
private theorem extent_cases (c : Char) (cs : List Char) :
    (isWordStart c = true ∧
        extent c cs = (.identifier, (cs.takeWhile isWordPart).length + 1)) ∨
      ((extent c cs).1 ≠ .endOfFile ∧ (extent c cs).1 ≠ .identifier) := by
  have hquoted := kind_quotedExtent false 1 cs
  by_cases hword : isWordStart c = true
  · exact .inl ⟨hword, by rw [extent, if_pos hword]⟩
  · refine .inr ?_
    rw [extent, if_neg hword]
    split
    · simp
    · split
      · rcases hquoted with h | h <;> simp [h]
      · split <;> simp

theorem lexical_lexemeAt (path : String) (start : Cursor) (c : Char) (cs : List Char) :
    (lexemeAt path start c cs).token.spelling.Lexical := by
  rcases extent_cases c cs with ⟨hword, hextent⟩ | ⟨hend, hident⟩
  · have htext : (lexemeAt path start c cs).token.text.toList =
        c :: cs.takeWhile isWordPart := by
      have htake : cs.take (cs.takeWhile isWordPart).length = cs.takeWhile isWordPart :=
        (List.prefix_iff_eq_take.mp (List.takeWhile_prefix isWordPart)).symm
      simp [lexemeAt, hextent, htake]
    refine ⟨by simp [lexemeAt, hextent, Token.spelling], fun _ hempty => ?_, fun _ hmem => ?_⟩
    · have hnil : (lexemeAt path start c cs).token.text = "" := hempty
      rw [hnil] at htext
      simp at htext
    · have hcolon : ':' ∈ (lexemeAt path start c cs).token.text.toList := hmem
      rw [htext, List.mem_cons] at hcolon
      rcases hcolon with rfl | hcolon
      · exact absurd hword (by decide)
      · exact absurd (List.all_eq_true.mp List.all_takeWhile _ hcolon) (by decide)
  · exact ⟨hend, fun h => absurd h hident, fun h => absurd h hident⟩

/-- Every token of a source text is cut off somewhere. -/
theorem exists_lexemeAt_of_mem_tokenize {path source : String} {t : Token}
    (h : t ∈ tokenize path source) :
    ∃ start c cs, t = (lexemeAt path start c cs).token := by
  rw [tokenize_eq] at h
  obtain ⟨l, hl, rfl⟩ := List.mem_map.mp h
  obtain ⟨ls, rest, hsplit⟩ := List.append_of_mem hl
  obtain ⟨front, c, cs, -, rfl, -⟩ := exists_lexemeAt_of_append hsplit
  exact ⟨_, c, cs, rfl⟩

/-- Every token of a source text has a spelling that occurs. -/
theorem lexical_of_mem_tokenize {path source : String} {t : Token}
    (h : t ∈ tokenize path source) : t.spelling.Lexical := by
  obtain ⟨start, c, cs, rfl⟩ := exists_lexemeAt_of_mem_tokenize h
  exact lexical_lexemeAt path start c cs

/-- The value of a token of a source text is fixed by its spelling. -/
theorem value_of_mem_tokenize {path source : String} {t : Token}
    (h : t ∈ tokenize path source) : t.value = lexemeValue t.kind t.text.toList := by
  obtain ⟨start, c, cs, rfl⟩ := exists_lexemeAt_of_mem_tokenize h
  simp only [lexemeAt, String.toList_ofList]

end Dwo
