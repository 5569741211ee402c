import Dwo.Script.Library
import Dwo.Script.Render

/-!
# Scripts

A `Script` is a JavaScript program under construction. `Script.add` appends one top-level
statement. The statement is worked on in place (`Work`): warnings, names and text are entered in
the script as soon as they are known, and nothing takes them back. So it is a matter of the order
of the steps whether a statement that makes no sense leaves something behind: names are entered
behind the last check, and the text of the statement is kept apart until it is complete.
`Script.finish` closes the script with a call of `main`, if there is one.
-/

namespace Dwo

/-! ### The script -/

/-- What the statements so far have established: the names that are taken, whether there is a
function `main`, and the libraries that have been imported. -/
structure Context where
  «variables» : Table Variable := {}
  functions : Table Function := {}
  hasMain : Bool := false
  libraries : List String := []
deriving DecidableEq, Inhabited, Repr

namespace Context

/-- Whether a library has been imported. -/
def hasImported (c : Context) (library : String) : Bool :=
  c.libraries.contains library

/-- The first name of a library that is taken, and the place where it was declared: constants
are looked up among the variables, then functions among the functions. -/
def clash? (c : Context) (l : Library) : Option (String × Option Location) :=
  (l.constants.findSome? fun name =>
    (c.variables.find? name).map fun taken => (name, taken.location)).or
  (l.functions.findSome? fun name =>
    (c.functions.find? name).map fun taken => (name, taken.location))

end Context

/-- The first lines of a script. -/
def prologue : String := "\"use strict\";\n\n"

/-- A JavaScript program under construction, with the warnings that nobody has taken yet. -/
structure Script where
  output : String := prologue
  context : Context := {}
  warnings : List Diagnostic := []
deriving DecidableEq, Inhabited, Repr

/-- A script and the statement that is being added to it: the text that has been written for it,
and the variables of the function that it declares. -/
structure Work where
  script : Script
  text : String := ""
  inner : Table Variable := {}

/-! ### Parts of the work -/

/-- A warning, for the script to keep. -/
def warn (location : Location) (warning : Warning) : Attempt Work Unit :=
  .change fun w =>
    { w with script.warnings := w.script.warnings ++ [.warning location warning.message] }

/-- Writes at the end of the text of the statement. -/
def inText (m : Attempt String Unit) : Attempt Work Unit :=
  m.on Work.text fun text w => { w with text := text }

/-- Writes at the end of the text of the statement, with the variables of the function at hand. -/
def inFunction (m : Attempt (String × Table Variable) Unit) : Attempt Work Unit :=
  m.on (fun w => (w.text, w.inner)) fun state w => { w with text := state.1, inner := state.2 }

/-- Writes at the end of the text of the statement, with the variables outside of functions at
hand. -/
def atTopLevel (m : Attempt (String × Table Variable) Unit) : Attempt Work Unit :=
  m.on (fun w => (w.text, w.script.context.variables)) fun state w =>
    { w with text := state.1, script.context.variables := state.2 }

/-- Moves the text of the statement into the script, on lines of its own. -/
def commit : Attempt Work Unit :=
  .change fun w => { w with script.output := w.script.output ++ w.text ++ "\n" }

/-! ### Statements of a function -/

/-- Adds a statement of a function. -/
def addBodyItem : Node → Attempt Work Unit
  | .token t => do
    warn t.location (.danglingStatement t.kind)
    if t.isOperand then
      inText do
        write "  "
        write t.operandText
        write ";\n"
    else pure ()
  | .unaryOp l =>
    .fail ⟨.unimplemented ("compilation of " ++ (Node.unaryOp l).kindName ++ " molecules"), l, []⟩
  | .binaryOp l =>
    .fail ⟨.unimplemented ("compilation of " ++ (Node.binaryOp l).kindName ++ " molecules"), l, []⟩
  | .fnParams l => .fail ⟨.misplaced "a function parameter declaration", l, []⟩
  | .endOfFile l => .fail ⟨.misplaced "end of file", l, []⟩
  | .importDecl _ _ _ l => .fail ⟨.misplaced "an import", l, []⟩
  | .expr items l => do
    warn l .danglingExpression
    inText do
      write "  "
      writeExpr items
      write ";\n"
  | .varDecl name isMutable initializer l => do
    inText (write "  ")
    inFunction (writeDeclaration name isMutable initializer l)
    inText (write "\n")
  | .assignment name initializer l => do
    let scope ← Attempt.look fun w : Work => ⟨some w.inner, w.script.context.variables⟩
    inText do
      write "  "
      writeAssignment scope name initializer l
      write "\n"
  | .fnDecl name _ _ l =>
    .fail ⟨.nestedFunction name, l,
      [⟨l, "function `" ++ name ++ "` should be moved to the top level"⟩]⟩
  | .fnCall name args l =>
    inText do
      write "  "
      writeCall name args l
      write "\n"

/-- Adds the statements of a function, in order. -/
def addBody : List Node → Attempt Work Unit
  | [] => pure ()
  | item :: items => do
    addBodyItem item
    addBody items

/-! ### Top-level statements -/

/-- Adds an import: the names of the library and its text. Returns whether there is something to
add; a second import does nothing. -/
def addImport (name : String) (location : Location) : Attempt Work Bool :=
  if name ≠ coreIo.name then
    .fail ⟨.unimplemented
      ("imports other than `" ++ coreIo.name ++ "` (`" ++ name ++ "`)"), location, []⟩
  else do
    let context ← Attempt.look fun w : Work => w.script.context
    if context.hasImported coreIo.name then
      warn location (.alreadyImported coreIo.name)
      return false
    else
      match context.clash? coreIo with
      | some (taken, declared) =>
        .fail ⟨.importConflict coreIo.name taken, location, declared.toList.map declaredNote⟩
      | none =>
        Attempt.change fun w =>
          { w with script.context.variables := w.script.context.variables.declareAll <|
              coreIo.constants.map fun name =>
                { name := name, library := some coreIo.name, immutable := true } }
        Attempt.change fun w =>
          { w with script.context.functions := w.script.context.functions.declareAll <|
              coreIo.functions.map fun name => { name := name, library := some coreIo.name } }
        inText (write coreIo.text)
        Attempt.change fun w =>
          { w with script.context.libraries := w.script.context.libraries ++ [coreIo.name] }
        return true

/-- Adds a function: its text, and then its name. -/
def addFn (name : String) (params body : List Node) (location : Location) :
    Attempt Work Unit := do
  let taken? ← Attempt.look fun w : Work => w.script.context.functions.find? name
  match taken?, params with
  | some taken, _ =>
    .fail ⟨.functionRedeclaration name, location, [taken.toBinding.note location]⟩
  | none, param :: _ => .fail ⟨.unimplemented "function parameters", param.location, []⟩
  | none, [] =>
    Attempt.change fun w => { w with inner := {} }
    inText (write ("function " ++ name ++ "() \x7b\n"))
    addBody body
    inText (write "\x7d")
    Attempt.change fun w =>
      { w with script.context.functions :=
          w.script.context.functions.declare { name := name, location := some location } }
    if name = "main" then
      Attempt.change fun w => { w with script.context.hasMain := true }
    else pure ()

/-- Adds a top-level statement. -/
def addNode : Node → Attempt Work Unit
  | .endOfFile _ => pure ()
  | .token t => warn t.location (.danglingToken t.kind)
  | .unaryOp l => warn l (.danglingOperation (Node.unaryOp l).kindName)
  | .binaryOp l => warn l (.danglingOperation (Node.binaryOp l).kindName)
  | .fnParams l => .fail ⟨.unimplemented "dangling function parameter declaration", l, []⟩
  | .importDecl name _ _ l => do
    let isNew ← addImport name l
    if isNew then commit else pure ()
  | .expr items l => do
    warn l .danglingExpression
    inText do
      writeExpr items
      write ";"
    commit
  | .varDecl name isMutable initializer l => do
    atTopLevel (writeDeclaration name isMutable initializer l)
    commit
  | .assignment name initializer l => do
    let scope ← Attempt.look fun w : Work => ⟨none, w.script.context.variables⟩
    inText (writeAssignment scope name initializer l)
    commit
  | .fnDecl name params body l => do
    addFn name params body l
    commit
  | .fnCall name args l => do
    inText (writeCall name args l)
    commit

namespace Script

/-- Appends a top-level statement, on lines of its own. Returns the script as the statement has
left it, and the error if it makes no sense. -/
def add (s : Script) (node : Node) : Script × Option EmitError :=
  match addNode node { script := s } with
  | (.ok (), w) => (w.script, none)
  | (.error e, w) => (w.script, some e)

/-- Takes the warnings out of a script. -/
def takeWarnings (s : Script) : List Diagnostic × Script :=
  (s.warnings, { s with warnings := [] })

/-- The last lines of a script that has a function `main`: its result is the exit code. -/
def epilogue (flushes : Bool) : String :=
  "\n\x7b const code = main(); " ++ (if flushes then "flush(); " else "") ++
    "if (typeof code === 'number' && code !== 0) \x7b " ++
    "throw new Error(`Program exited with non-zero exit code: $\x7bcode\x7d`); \x7d \x7d\n"

/-- The finished program. -/
def finish (s : Script) : String :=
  if s.context.hasMain then s.output ++ epilogue (s.context.hasImported coreIo.name)
  else s.output

end Script

end Dwo
