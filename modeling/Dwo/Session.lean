import Dwo.Node.Dump
import Dwo.Script.Basic
import Dwo.Statement.Reader

/-!
# Sessions

A `Session` is one source text and the warnings about it. It can be run for several targets in
turn; only the JavaScript target looks at what statements mean, so only it adds warnings. When a
run fails, the warnings up to the failure stay.
-/

namespace Dwo

/-- What can be made of a source text. -/
inductive Target where
  /-- A JavaScript program. -/
  | javaScript
  /-- A listing of the syntax tree. -/
  | tree
  /-- A listing of the tokens. -/
  | tokens
deriving DecidableEq, Repr

instance : Inhabited Target := ⟨.javaScript⟩

/-- The file extension of a product, without the dot. -/
def Target.extension : Target → String
  | javaScript => "js"
  | tree => "ir"
  | tokens => "tokens"

/-- Why a run failed: the text cannot be read, or a statement makes no sense. -/
inductive CompileError where
  | parse (error : ParseError)
  | emit (error : EmitError)
deriving DecidableEq, Repr

namespace CompileError

/-- The failure in one line. -/
def message : CompileError → String
  | parse e => e.message
  | emit e => e.message

/-- The place of the failure. -/
def location : CompileError → Location
  | parse e => e.location
  | emit e => e.location

/-- The failure as an error for the user. -/
def diagnostic : CompileError → Diagnostic
  | parse e => e.diagnostic
  | emit e => e.diagnostic

/-- Whether the failure is due to a construct that is not available yet. -/
def isUnimplemented : CompileError → Bool
  | parse e => e.isUnimplemented
  | emit e => e.isUnimplemented

end CompileError

/-- A source text and the warnings about it. -/
structure Session where
  path : String
  source : String
  warnings : List Diagnostic := []
deriving DecidableEq, Inhabited, Repr

namespace Session

/-- Reads the statements one by one, and adds each to the script before the next is read. The
warnings about a statement go to the session, also if it is rejected. -/
def emitFrom (s : Session) (r : Reader) (script : Script) :
    Session × Except CompileError String :=
  match _h : r.next with
  | .error e => (s, .error (.parse e))
  | .ok (node, r) =>
    if _hnode : node.isEndOfFile then (s, .ok script.finish)
    else
      let added := script.add node
      let drained := added.1.takeWarnings
      let s := { s with warnings := s.warnings ++ drained.1 }
      match added.2 with
      | some e => (s, .error (.emit e))
      | none => s.emitFrom r drained.2
termination_by r.pending.length
decreasing_by exact Reader.length_pending_lt ‹_› ‹_›

/-- Reads the statements one by one, and lists each behind those in `listed`, the end of the text
included. -/
def listFrom (r : Reader) (listed : String) : Except CompileError String :=
  match _h : r.next with
  | .error e => .error (.parse e)
  | .ok (node, r) =>
    let listed := listed ++ node.dump ++ "\n"
    if _hnode : node.isEndOfFile then .ok listed else listFrom r listed
termination_by r.pending.length
decreasing_by exact Reader.length_pending_lt ‹_› ‹_›

/-- Takes the tokens one by one, and lists each behind those in `listed`, the closing one
included. -/
def listTokens (scanner : Scanner) (listed : String) : String :=
  let read := scanner.next
  let listed := listed ++ read.1.dump ++ "\n"
  if _h : read.1.isEndOfFile then listed else listTokens read.2 listed
termination_by scanner.source.utf8ByteSize - scanner.cursor.offset
decreasing_by
  have := Scanner.offset_lt_of_next _h
  rw [Scanner.source_next]
  omega

/-- Makes a product of the source text. Warnings join those of earlier runs. -/
def run (s : Session) : Target → Session × Except CompileError String
  | .javaScript => s.emitFrom (.ofSource s.path s.source) {}
  | .tree => (s, listFrom (.ofSource s.path s.source) "")
  | .tokens => (s, .ok (listTokens (.ofSource s.path s.source) ""))

end Session

/-- The product of a source text. -/
def compile (path source : String) (target : Target) : Except CompileError String :=
  (Session.run { path := path, source := source } target).2

end Dwo
