import Dwo.Diagnostic
import Dwo.Token.Basic

/-!
# Errors of reading

Reading stops at the first token that cannot continue what has been read. A `ParseError` tells
what was wrong with that token, its place, and, in its notes, where each construct around it
started.
-/

namespace Dwo

/-- What reading was waiting for. -/
inductive Expected where
  | functionName
  | parameterListOpening
  | parameterListClosing
  | bodyOpening
  | bodyClosing
  | statementEnd
  | continuation
  | argumentSeparator
  | operand
  | variableName
  | declarationMarker
  | importName
deriving DecidableEq, Inhabited, Repr

/-- What was expected, in words. -/
def Expected.text : Expected → String
  | functionName => "a function name"
  | parameterListOpening => "'(' after the function name"
  | parameterListClosing => "')' to close the parameter list"
  | bodyOpening => "'\x7b' to open the function body"
  | bodyClosing => "'\x7d' to close the function body"
  | statementEnd => "';' to end the statement"
  | continuation => "';' or '()' after the identifier"
  | argumentSeparator => "',' or ')' in the argument list"
  | operand => "an identifier or integer operand"
  | variableName => "a variable name"
  | declarationMarker => "':=' for a mutable or '::' for an immutable variable"
  | importName => "an import name or ';'"

/-- Why reading stopped. -/
inductive ParseCause where
  /-- The text ended inside a construct. -/
  | unexpectedEnd (expected : Expected)
  /-- A token of the wrong class or text. -/
  | unexpectedToken (expected : Expected) (kind : Kind) (found : String)
  /-- A token that starts no statement, outside all functions. -/
  | unknownStatement (kind : Kind) (found : String)
  /-- A name followed by none of `=`, `(` and `;`. -/
  | expectedContinuation (kind : Kind) (found : String)
  /-- `use core:;` -/
  | importTrailingColon
  /-- Names and colons out of turn, as in `use :io;` and `use core io;`. -/
  | invalidImportPath
  /-- `use;` -/
  | emptyImport
  /-- `let name ::;` -/
  | uninitializedConstant (name : String)
  /-- A construct that is reserved. -/
  | unimplemented (feature : String)
deriving DecidableEq, Inhabited, Repr

namespace ParseCause

/-- The wording of a cause. -/
def message : ParseCause → String
  | unexpectedEnd expected => "unexpected end of file: expected " ++ expected.text
  | unexpectedToken expected kind found =>
    "unexpected " ++ kind.name ++ " `" ++ found ++ "`: expected " ++ expected.text
  | unknownStatement kind found =>
    "don't know how to parse " ++ kind.name ++ " `" ++ found ++
      "`: expected `fn`, `let` or `use` at the top level"
  | expectedContinuation kind found =>
    "unexpected token: expected ';' or '()' but got " ++ kind.name ++ " `" ++ found ++ "`"
  | importTrailingColon =>
    "import name cannot end with a colon, did you forget to type something?"
  | invalidImportPath => "invalid import path: imports are declared like `use core:io;`"
  | emptyImport => "missing import name: imports are declared like `use core:io;`"
  | uninitializedConstant name =>
    "immutable variable `" ++ name ++ "` must be initialized on declaration"
  | unimplemented feature => "not implemented yet: " ++ feature

/-- Whether the cause is a reserved construct. -/
def isUnimplemented : ParseCause → Bool
  | unimplemented _ => true
  | _ => false

instance : Cause ParseCause where
  message := message
  isUnimplemented := isUnimplemented

end ParseCause

/-- Why and where reading stopped. -/
abbrev ParseError := Failure ParseCause

end Dwo
