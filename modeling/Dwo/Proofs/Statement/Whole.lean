import Dwo.Proofs.Token.Scanning
import Dwo.Statement.Reader

/-!
# Whole texts

The statements of a text as one value, up to its end or up to the first error. A reader hands out
the same statements one call at a time; that the two agree is shown in
`Dwo.Proofs.Session.Streaming`.

`statementsFrom` goes on from a state of reading, and the list ends in one of two ways: `closed`
with the place of the end, or `failed` with the error. `sourceStatements` starts with the tokens
of a source text. Here the scanner by bytes is left behind: `sourceStatements_eq` and
`Reader.ofSource_eq` give the statements and the reader of a text by its lexemes, as they are
cut by characters, and later modules use nothing else about scanning.
-/

namespace Dwo

/-- The statements of a text, up to its end or up to an error. -/
inductive Statements where
  | closed (location : Location)
  | failed (error : ParseError)
  | next (node : Node) (rest : Statements)
deriving Inhabited, Repr

/-- Reads on from `state` over `tokens`, the last of a text that ends at `closing`. -/
def statementsFrom (closing : Location) (state : Open) : (tokens : List Token) → Statements
  | [] => if state.isInitial then .closed closing else .failed (state.unexpectedEnd closing)
  | t :: tokens =>
    match state.step t with
    | .error e => .failed e
    | .ok (.reading state) => statementsFrom closing state tokens
    | .ok (.complete node) => .next node (statementsFrom closing {} tokens)

/-- The statements of a text that has these tokens and ends at `closing`. -/
def statements (closing : Location) (tokens : List Token) : Statements :=
  statementsFrom closing {} tokens

/-- The statements of a source text. -/
def sourceStatements (path source : String) : Statements :=
  statements ((closing source).location path) (tokenize path source)

/-- Reading a source is reading the tokens of its lexemes, up to its end. -/
theorem sourceStatements_eq (path source : String) :
    sourceStatements path source = statements ((closing source).location path)
      ((sourceLexemes path source).map Lexeme.token) := by
  rw [sourceStatements, tokenize_eq]

/-- A reader starts with all lexemes of its text. -/
theorem Reader.ofSource_eq (path source : String) :
    ofSource path source =
      ⟨path, (opening source).1, sourceLexemes path source, Dwo.closing source⟩ := by
  rw [ofSource, Scanner.trail_ofSource, Scanner.ofSource_eq]

/-- The reader of a source looks at nothing but the lexemes of that source. -/
theorem Reader.pending_ofSource_suffix (path source : String) :
    (ofSource path source).pending <:+ sourceLexemes path source := by
  rw [ofSource_eq]

end Dwo
