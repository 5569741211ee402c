import Dwo.Diagnostic
import Dwo.Symbol
import Dwo.Token.Basic

/-!
# Errors and warnings about statements

A statement that has been read may still make no sense: it may take a name twice, change a
constant, or use a construct where it has no meaning. `EmitError` tells so. `Warning` is for
statements that make sense and do nothing.
-/

namespace Dwo

/-- Why a statement has no JavaScript form. -/
inductive EmitCause where
  /-- Two variables of one name in one table. -/
  | redeclaration (name : String)
  /-- Two functions of one name. -/
  | functionRedeclaration (name : String)
  /-- A constant that never gets a value. -/
  | constantWithoutInitializer (name : String)
  /-- A constant that changes its value. -/
  | assignToConstant (name : String)
  /-- A function inside a function. -/
  | nestedFunction (name : String)
  /-- Something other than operands and signs in an expression. -/
  | unsupportedInExpression (what : String)
  /-- A construct that cannot stand inside a function. -/
  | misplaced (what : String)
  /-- A library that provides a name that is taken. -/
  | importConflict (library name : String)
  /-- A construct that is reserved. -/
  | unimplemented (feature : String)
deriving DecidableEq, Inhabited, Repr

namespace EmitCause

/-- The wording of a cause. -/
def message : EmitCause → String
  | redeclaration name => "cannot redeclare existing variable `" ++ name ++ "`"
  | functionRedeclaration name => "cannot redeclare existing function `" ++ name ++ "`"
  | constantWithoutInitializer name =>
    "constant variable `" ++ name ++ "` requires to be set on declaration"
  | assignToConstant name => "cannot assign to immutable variable `" ++ name ++ "`"
  | nestedFunction name => "closures are not supported yet: nested function `" ++ name ++ "`"
  | unsupportedInExpression what => "unsupported " ++ what ++ " in expression"
  | misplaced what => what ++ " is not allowed inside a function body"
  | importConflict library name =>
    "importing `" ++ library ++ "` would redeclare `" ++ name ++ "`"
  | unimplemented feature => "not implemented yet: " ++ feature

/-- Whether the cause is a reserved construct. -/
def isUnimplemented : EmitCause → Bool
  | unimplemented _ => true
  | _ => false

instance : Cause EmitCause where
  message := message
  isUnimplemented := isUnimplemented

end EmitCause

/-- Why and where a statement has no JavaScript form. -/
abbrev EmitError := Failure EmitCause

/-- The remark that points at the place where a name was taken. -/
def declaredNote (location : Location) : Note := ⟨location, "originally declared here"⟩

/-- The remark on a name that is taken, for a statement at `here` that uses it. -/
def Binding.note (b : Binding) (here : Location) : Note :=
  match b.location, b.library with
  | some location, _ => declaredNote location
  | none, some library => ⟨here, "`" ++ b.name ++ "` is provided by `" ++ library ++ "`"⟩
  | none, none => ⟨here, "`" ++ b.name ++ "` was declared before"⟩

/-- What is worth a word about a statement that makes sense. -/
inductive Warning where
  /-- A token outside all functions. -/
  | danglingToken (kind : Kind)
  /-- A reserved operation outside all functions. -/
  | danglingOperation (name : String)
  /-- An expression whose value is not used. -/
  | danglingExpression
  /-- A token that stands as a statement of a function. -/
  | danglingStatement (kind : Kind)
  /-- A library that is there already. -/
  | alreadyImported (library : String)
deriving DecidableEq, Inhabited, Repr

/-- The wording of a warning. -/
def Warning.message : Warning → String
  | danglingToken kind => "dangling atom " ++ kind.name ++ " at top level"
  | danglingOperation name => "dangling molecule " ++ name ++ " at top level"
  | danglingExpression => "dangling expression with no usage found"
  | danglingStatement kind =>
    "dangling atom " ++ kind.name ++ " with no operation or usage found"
  | alreadyImported library => "`" ++ library ++ "` is already imported"

end Dwo
