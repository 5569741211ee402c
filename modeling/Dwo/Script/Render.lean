import Dwo.Node.Basic
import Dwo.Script.Attempt

/-!
# Statements as JavaScript

How expressions, declarations, assignments and calls are written at the end of a text. The parts
are written as they come, so a statement that makes no sense may leave its first half behind; a
declaration enters its name in the table of variables last, when its text is complete.

Signs associate to the left with equal precedence in both languages, so expressions are written
without parentheses. Integers lose their leading zeros, which JavaScript would take for an octal
number or refuse; all other operands keep their text.
-/

namespace Dwo

/-! ### Expressions -/

/-- A run of digits without leading zeros. -/
def trimZeros (digits : String) : String :=
  match digits.toList.dropWhile (· == '0') with
  | [] => "0"
  | digits => String.ofList digits

/-- An operand in JavaScript. -/
def Token.operandText (t : Token) : String :=
  match t.kind with
  | .integer => trimZeros t.text
  | _ => t.text

/-- A part of a tree in the words of a message. -/
def Node.description : Node → String
  | .token t => t.kind.name ++ " `" ++ t.text ++ "`"
  | node => node.kindName

/-- The error for a part that has no place in an expression, with a remark on what it is a part
of. -/
def unsupported (node : Node) (context : Note) : EmitError :=
  ⟨.unsupportedInExpression node.description, node.location, [context]⟩

/-- The remark on an expression. -/
def exprNote (start : Location) : Note := ⟨start, "expression starts here"⟩

/-- Writes at the end of a text. -/
def write (text : String) : Attempt String Unit := .change (· ++ text)

/-- Writes a part of an expression that starts at `start`: an operand, or a sign between spaces. -/
def writeItem (start : Location) (item : Node) : Attempt String Unit :=
  match item with
  | .token t =>
    if t.isOperand then write t.operandText
    else if t.isSign then do
      write " "
      write t.text
      write " "
    else .fail (unsupported item (exprNote start))
  | _ => .fail (unsupported item (exprNote start))

/-- Writes parts of an expression that starts at `start`, one behind the other. -/
def writeItems (start : Location) : List Node → Attempt String Unit
  | [] => pure ()
  | item :: items => do
    writeItem start item
    writeItems start items

/-- Writes an expression. -/
def writeExpr : List Node → Attempt String Unit
  | [] => pure ()
  | first :: rest => writeItems first.location (first :: rest)

/-- An expression in JavaScript: what `writeExpr` writes on an empty page. -/
def exprText (items : List Node) : Except EmitError String :=
  match writeExpr items "" with
  | (.ok (), text) => .ok text
  | (.error e, _) => .error e

/-! ### Calls -/

/-- Writes an argument of the call at `call`: an expression or a single operand. -/
def writeArg (call : Location) (arg : Node) : Attempt String Unit :=
  match arg with
  | .expr items _ => writeExpr items
  | .token t =>
    if t.isOperand then write t.operandText
    else .fail (unsupported arg ⟨call, "function call starts here"⟩)
  | _ => .fail (unsupported arg ⟨call, "function call starts here"⟩)

/-- Writes arguments of the call at `call`, with a comma before each but the first of the call. -/
def writeArgs (call : Location) : (isFirst : Bool) → List Node → Attempt String Unit
  | _, [] => pure ()
  | isFirst, arg :: args => do
    if isFirst then pure () else write ", "
    writeArg call arg
    writeArgs call false args

/-- Writes a call. -/
def writeCall (name : String) (args : List Node) (location : Location) :
    Attempt String Unit := do
  write name
  write "("
  writeArgs location true args
  write ");"

/-! ### Variables -/

/-- Writes the value of a variable in its declaration, which may be left out. -/
def writeInitializer (initializer : List Node) : Attempt String Unit :=
  if initializer.isEmpty then pure ()
  else do
    write " = "
    writeExpr initializer

/-- Writes a declaration, and then enters the new variable in the table. The name has to be free
in the table, and a constant needs a value. -/
def writeDeclaration (name : String) (isMutable : Bool) (initializer : List Node)
    (location : Location) : Attempt (String × Table Variable) Unit := do
  let taken? ← Attempt.look fun state => state.2.find? name
  match taken? with
  | some taken => .fail ⟨.redeclaration name, location, [taken.toBinding.note location]⟩
  | none =>
    if !isMutable && initializer.isEmpty then
      .fail ⟨.constantWithoutInitializer name, location, []⟩
    else do
      Attempt.on Prod.fst (fun text state => (text, state.2)) do
        write (if isMutable then "let " else "const ")
        write name
        writeInitializer initializer
        write ";"
      Attempt.change fun state => (state.1,
        state.2.declare { name := name, location := some location, immutable := !isMutable })

/-- Writes an assignment. A name that is known must not be a constant; a name that is not known is
let through. -/
def writeAssignment (scope : Scope) (name : String) (initializer : List Node)
    (location : Location) : Attempt String Unit :=
  match (scope.lookup? name).filter (·.immutable) with
  | some constant =>
    .fail ⟨.assignToConstant name, location, [constant.toBinding.note location]⟩
  | none => do
    write name
    write " = "
    writeExpr initializer
    write ";"

end Dwo
