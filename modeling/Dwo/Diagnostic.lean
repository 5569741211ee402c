import Dwo.Location

/-!
# Diagnostics

What the compiler has to say about a source file. A `Diagnostic` is a headline with a severity
and a place, and any number of `Note`s that point at related places. `Failure` is the form in
which a phase of the compiler gives up: a cause, drawn from that phase's own type of causes, the
place it concerns, and the notes collected on the way out. The wording of a cause is kept apart
from the cause itself, in the class `Cause`.
-/

namespace Dwo

/-- A remark about a related place. -/
structure Note where
  location : Location
  message : String
deriving DecidableEq, Inhabited, Repr

/-- A note is written with its place in front. -/
def Note.text (n : Note) : String :=
  n.location.text ++ ": " ++ n.message

/-- How grave a diagnostic is. -/
inductive Severity where
  | error
  | warning
deriving DecidableEq, Inhabited, Repr

/-- The label of a severity in a headline. -/
def Severity.label : Severity → String
  | .error => "[ERROR]"
  | .warning => "[WARN]"

/-- A message to the user: a headline with its place, and notes on related places. -/
structure Diagnostic where
  severity : Severity
  location : Location
  message : String
  notes : List Note := []
deriving DecidableEq, Inhabited, Repr

/-- A warning without notes. -/
def Diagnostic.warning (location : Location) (message : String) : Diagnostic where
  severity := .warning
  location := location
  message := message

/-- Adds notes after those already there. -/
def Diagnostic.withNotes (d : Diagnostic) (notes : List Note) : Diagnostic :=
  { d with notes := d.notes ++ notes }

/-- The first line of a diagnostic: place, label and message. Notes are written separately. -/
def Diagnostic.headline (d : Diagnostic) : String :=
  d.location.text ++ ": " ++ d.severity.label ++ " " ++ d.message

/-! ### Failures -/

/-- The reasons for which one phase of the compiler can give up, with their wording. -/
class Cause (κ : Type) where
  /-- The wording of a cause, without its place. -/
  message : κ → String
  /-- Whether the cause is a construct that is reserved and not available yet. -/
  isUnimplemented : κ → Bool

/-- Why and where a phase gave up, with notes on related places, innermost first. -/
structure Failure (κ : Type) where
  cause : κ
  location : Location
  notes : List Note := []
deriving DecidableEq, Repr

namespace Failure

variable {κ : Type} [Cause κ]

/-- The failure in one line: its place, then its cause. -/
def message (f : Failure κ) : String :=
  f.location.text ++ ": " ++ Cause.message f.cause

/-- The failure as an error for the user, with its notes. -/
def diagnostic (f : Failure κ) : Diagnostic where
  severity := .error
  location := f.location
  message := Cause.message f.cause
  notes := f.notes

/-- Whether the failure is due to a construct that is not available yet. -/
def isUnimplemented (f : Failure κ) : Bool :=
  Cause.isUnimplemented f.cause

end Failure

end Dwo
