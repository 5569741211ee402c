import Dwo.Statement.Open
import Dwo.Token.Scanner

/-!
# Reading statements

A `Reader` hands out the top-level statements of a source text one at a time and, after the last
of them, the end of the text any number of times. Every statement takes tokens, so there are only
so many calls before the end (`Reader.length_pending_lt`).
-/

namespace Dwo

/-- A source text with a position in it: the lexemes still to be read, the position after those
already read, and the position at the end of the text. -/
structure Reader where
  path : String
  cursor : Cursor
  pending : List Lexeme
  closing : Cursor
deriving Inhabited, Repr

namespace Reader

/-- A reader at the start of a source text. -/
def ofSource (path source : String) : Reader :=
  let scanner := Scanner.ofSource path source
  let trail := scanner.trail
  { path := path
    cursor := scanner.cursor
    pending := trail.1
    closing := trail.2.cursor }

/-- Reads on from `state` over `lexemes`, which are the last of those of `r`. -/
def resume (r : Reader) (state : Open) : (lexemes : List Lexeme) →
    Except ParseError (Node × Reader)
  | [] =>
    let location := r.closing.location r.path
    if state.isInitial then
      .ok (.endOfFile location, { r with cursor := r.closing, pending := [] })
    else .error (state.unexpectedEnd location)
  | lexeme :: rest =>
    match state.step lexeme.token with
    | .error e => .error e
    | .ok (.reading state) => r.resume state rest
    | .ok (.complete node) => .ok (node, { r with cursor := lexeme.stop, pending := rest })

/-- The next top-level statement, or the end of the text, and the reader after it. -/
def next (r : Reader) : Except ParseError (Node × Reader) :=
  r.resume {} r.pending

/-- What is left behind a statement is shorter than what the statement was read from. -/
theorem length_pending_lt_of_resume {r r' : Reader} {state : Open} {lexemes : List Lexeme}
    {node : Node} (h : r.resume state lexemes = .ok (node, r'))
    (hnode : ¬node.isEndOfFile = true) : r'.pending.length < lexemes.length := by
  induction lexemes generalizing state with
  | nil =>
    rw [resume] at h
    split at h
    · cases h
      exact absurd rfl hnode
    · cases h
  | cons lexeme rest ih =>
    rw [resume] at h
    split at h
    · cases h
    · exact Nat.lt_succ_of_lt (ih h)
    · cases h
      exact Nat.lt_succ_self rest.length

/-- A call that returns a statement leaves fewer lexemes. -/
theorem length_pending_lt {r r' : Reader} {node : Node} (h : r.next = .ok (node, r'))
    (hnode : ¬node.isEndOfFile = true) : r'.pending.length < r.pending.length :=
  length_pending_lt_of_resume h hnode

end Reader

end Dwo
