import Dwo.Node.Basic
import Dwo.Statement.Error

/-!
# Open constructs

Statements are read one token at a time. Between two tokens, what has been read of the current
top-level statement is an `Open` state: the functions whose bodies are being read, innermost
first, and the `Phase` of the innermost construct that is not a function body. `Open.step` takes
one token and gives the next state, or the finished statement, or an error. No token is looked at
twice, and no step looks ahead.

The grammar, with `name`, `int` and `str` for identifiers, integers and strings:

```text
  top        = function | variable | inclusion
  function   = "fn" name "(" ")" "{" item* "}"
  item       = function | variable | assignment | call | name ";" | int ";" | str ";" | ";" | other
  variable   = "let" name ":" "=" expression? ";" | "let" name ":" ":" expression ";"
  assignment = name "=" expression ";"
  call       = name "(" (expression ("," expression)*)? ")" ";"
  expression = operand (("+" | "-") operand)*
  inclusion  = "use" name (":" name)* ";"
```

Here `operand` is a name, an integer or a string, and `other` is any symbol besides the two that
have a meaning at that place, or a token of no class. The word `use` is not reserved inside a
function, and neither keyword is reserved where a name is expected.
-/

namespace Dwo

/-! ### What has been read so far -/

/-- The start of an expression: an operand, and what follows it, newest first. -/
structure Chain where
  first : Token
  rest : List Token := []
deriving DecidableEq, Inhabited, Repr

namespace Chain

/-- A chain with one more token at its end. -/
def push (c : Chain) (t : Token) : Chain :=
  { c with rest := t :: c.rest }

/-- The tokens of a chain in source order. -/
def tokens (c : Chain) : List Token :=
  c.first :: c.rest.reverse

/-- A chain as the value of a variable. -/
def items (c : Chain) : List Node :=
  c.tokens.map Node.token

/-- A chain as an argument of a call: a single operand stands for itself. -/
def argument (c : Chain) : Node :=
  match c.rest with
  | [] => .token c.first
  | _ :: _ => .expr c.items c.first.location

end Chain

/-- What an expression is read for. -/
inductive Purpose where
  /-- The value of a new variable, declared by the `let` at `keyword`. -/
  | initializer (keyword : Location) (name : Token) (isMutable : Bool)
  /-- The new value of a variable. -/
  | rvalue (name : Token)
  /-- An argument of a call, behind those already read, newest first. -/
  | argument (name : Token) (previous : List Node)
deriving Inhabited, Repr

/-- What an import path ends with so far. -/
inductive PathEnd where
  | nothing
  | name
  | colon (location : Location)
deriving DecidableEq, Inhabited, Repr

/-- The innermost construct that is being read, other than a function body, by what has been
read of it. -/
inductive Phase where
  /-- Between two statements. -/
  | idle
  /-- After `fn`. -/
  | fnKeyword (keyword : Location)
  /-- After the name of a function. -/
  | fnName (keyword : Location) (name : Token)
  /-- After the parenthesis that opens a parameter list. -/
  | fnParams (keyword : Location) (name : Token)
  /-- After the parenthesis that closes a parameter list. -/
  | fnHead (keyword : Location) (name : Token)
  /-- After `let`. -/
  | letKeyword (keyword : Location)
  /-- After the name of a new variable. -/
  | letName (keyword : Location) (name : Token)
  /-- After the first character of the marker that follows that name. -/
  | letColon (keyword : Location) (name : Token)
  /-- After the whole marker. -/
  | letMarker (keyword : Location) (name : Token) (isMutable : Bool)
  /-- After `use` and part of a path. -/
  | importPath (keyword : Location) (text : String) (last : PathEnd)
  /-- After an identifier that starts a statement. -/
  | word (name : Token)
  /-- After a literal that starts a statement. -/
  | literal (token : Token)
  /-- After the parenthesis that opens an argument list. -/
  | callOpen (name : Token)
  /-- After a comma in an argument list, or after the sign of an assignment. -/
  | operand (purpose : Purpose)
  /-- After a sign in an expression; `chain` includes it. -/
  | sign (purpose : Purpose) (chain : Chain)
  /-- After an operand. -/
  | value (purpose : Purpose) (chain : Chain)
  /-- After the parenthesis that closes an argument list, arguments newest first. -/
  | callClosed (name : Token) (args : List Node)
deriving Inhabited, Repr

/-- A function whose body is being read: the place of its `fn`, its name, and the statements of
its body, newest first. -/
structure OpenFn where
  keyword : Location
  name : Token
  body : List Node := []
deriving Inhabited, Repr

/-- What has been read of a top-level statement. -/
structure Open where
  functions : List OpenFn := []
  phase : Phase := .idle
deriving Inhabited, Repr

/-! ### Where open constructs started -/

/-- The remark on a function that is still open. -/
def fnNote (keyword : Location) : Note := ⟨keyword, "function declaration starts here"⟩

/-- The remark on a variable declaration that is still open. -/
def letNote (keyword : Location) : Note := ⟨keyword, "variable declaration starts here"⟩

/-- The remark on a call that is still open. -/
def callNote (name : Token) : Note := ⟨name.location, "function call starts here"⟩

/-- The remark on an assignment that is still open. -/
def assignNote (name : Token) : Note :=
  ⟨name.location, "invalid rvalue in assignment to `" ++ name.text ++ "`"⟩

/-- The remark on an import that is still open. -/
def importNote (keyword : Location) : Note := ⟨keyword, "import statement starts here"⟩

/-- The remark on a name with nothing behind it. -/
def hangingNote (name : Token) : Note := ⟨name.location, "hanging statement starts here"⟩

/-- The remark on the construct that an expression belongs to. -/
def Purpose.note : Purpose → Note
  | initializer keyword _ _ => letNote keyword
  | rvalue name => assignNote name
  | argument name _ => callNote name

namespace Phase

/-- The remark on the construct in progress. A statement that starts with a name or a literal is
not a construct yet. -/
def notes : Phase → List Note
  | idle | word _ | literal _ => []
  | fnKeyword keyword | fnName keyword _ | fnParams keyword _ | fnHead keyword _ =>
    [fnNote keyword]
  | letKeyword keyword | letName keyword _ | letColon keyword _ | letMarker keyword _ _ =>
    [letNote keyword]
  | importPath keyword _ _ => [importNote keyword]
  | callOpen name | callClosed name _ => [callNote name]
  | operand purpose | sign purpose _ | value purpose _ => [purpose.note]

/-- The remark on the construct in progress when the text ends in it. -/
def endNotes : Phase → List Note
  | word name => [hangingNote name]
  | phase => phase.notes

/-- What the construct in progress is waiting for. -/
def expected : Phase → Expected
  | idle => .bodyClosing
  | fnKeyword _ => .functionName
  | fnName .. => .parameterListOpening
  | fnParams .. => .parameterListClosing
  | fnHead .. => .bodyOpening
  | letKeyword _ => .variableName
  | letName .. | letColon .. => .declarationMarker
  | importPath .. => .importName
  | word _ => .continuation
  | letMarker .. | callOpen _ | operand _ | sign .. => .operand
  | value (.argument ..) _ => .argumentSeparator
  | value .. | literal _ | callClosed .. => .statementEnd

end Phase

/-! ### Reading a token -/

/-- The state after a token: still inside the top-level statement, or at its end. -/
inductive Progress where
  | reading (state : Open)
  | complete (node : Node)
deriving Inhabited, Repr

/-- A statement has been read inside these functions: it joins the innermost body, or is a
top-level statement if there is none. -/
def Progress.close : List OpenFn → Node → Progress
  | [], node => .complete node
  | f :: outer, node => .reading ⟨{ f with body := node :: f.body } :: outer, .idle⟩

namespace Open

/-- The functions still open, as remarks. -/
def fnNotes (s : Open) : List Note :=
  s.functions.map fun f => fnNote f.keyword

/-- An error in the construct in progress. -/
def fail (s : Open) (cause : ParseCause) (location : Location) : ParseError :=
  ⟨cause, location, s.phase.notes ++ s.fnNotes⟩

/-- The error for a token that is not what the construct in progress is waiting for. -/
def unexpected (s : Open) (t : Token) : ParseError :=
  s.fail (.unexpectedToken s.phase.expected t.kind t.text) t.location

/-- The error for a text that ends in this state. -/
def unexpectedEnd (s : Open) (location : Location) : ParseError :=
  ⟨.unexpectedEnd s.phase.expected, location, s.phase.endNotes ++ s.fnNotes⟩

/-- Whether no statement has been started. -/
def isInitial : Open → Bool
  | ⟨[], .idle⟩ => true
  | _ => false

/-- The same functions, in another phase. -/
def enter (s : Open) (phase : Phase) : Except ParseError Progress :=
  .ok (.reading { s with phase := phase })

/-- The construct in progress is finished. -/
def close (s : Open) (node : Node) : Except ParseError Progress :=
  .ok (Progress.close s.functions node)

/-- A token outside all functions, where a statement has to start. -/
def stepTop (s : Open) (t : Token) : Except ParseError Progress :=
  if t.isKeyword "fn" then s.enter (.fnKeyword t.location)
  else if t.isKeyword "use" then s.enter (.importPath t.location "" .nothing)
  else if t.isKeyword "let" then s.enter (.letKeyword t.location)
  else .error (s.fail (.unknownStatement t.kind t.text) t.location)

/-- A token in the body of `f`, where a statement can start or the body can end. -/
def stepBody (s : Open) (f : OpenFn) (outer : List OpenFn) (t : Token) :
    Except ParseError Progress :=
  if t.isSymbol "\x7d" then
    .ok (Progress.close outer (.fnDecl f.name.text [] f.body.reverse f.name.location))
  else if t.isSymbol ";" then .ok (.reading s)
  else if t.isKeyword "let" then s.enter (.letKeyword t.location)
  else if t.isKeyword "fn" then s.enter (.fnKeyword t.location)
  else match t.kind with
    | .identifier => s.enter (.word t)
    | .integer | .string => s.enter (.literal t)
    | .symbol | .unknown | .endOfFile => s.close (.token t)

/-- A token behind an import path that ends with `last`. -/
def stepPath (s : Open) (keyword : Location) (text : String) (last : PathEnd) (t : Token) :
    Except ParseError Progress :=
  if t.isSymbol ";" then
    match last with
    | .nothing => .error (s.fail .emptyImport t.location)
    | .colon location => .error (s.fail .importTrailingColon location)
    | .name => s.close (.importDecl text none false keyword)
  else if t.isSymbol ":" then
    match last with
    | .name => s.enter (.importPath keyword (text ++ ":") (.colon t.location))
    | .nothing | .colon _ => .error (s.fail .invalidImportPath t.location)
  else if t.kind = .identifier then
    match last with
    | .name => .error (s.fail .invalidImportPath t.location)
    | .nothing | .colon _ => s.enter (.importPath keyword (text ++ t.text) .name)
  else .error (s.unexpected t)

/-- A token where an operand has to stand. -/
def stepOperand (s : Open) (purpose : Purpose) (t : Token) : Except ParseError Progress :=
  if t.isOperand then s.enter (.value purpose ⟨t, []⟩) else .error (s.unexpected t)

/-- A token behind an expression, which goes on with a sign or ends as its purpose demands. -/
def stepChain (s : Open) (purpose : Purpose) (chain : Chain) (t : Token) :
    Except ParseError Progress :=
  if t.isSign then s.enter (.sign purpose (chain.push t))
  else match purpose with
    | .initializer _ name isMutable =>
      if t.isSymbol ";" then s.close (.varDecl name.text isMutable chain.items name.location)
      else .error (s.unexpected t)
    | .rvalue name =>
      if t.isSymbol ";" then s.close (.assignment name.text chain.items name.location)
      else .error (s.unexpected t)
    | .argument name previous =>
      if t.isSymbol "," then s.enter (.operand (.argument name (chain.argument :: previous)))
      else if t.isSymbol ")" then s.enter (.callClosed name (chain.argument :: previous))
      else .error (s.unexpected t)

/-- Reads one token. -/
def step (s : Open) (t : Token) : Except ParseError Progress :=
  match s.phase with
  | .idle =>
    match s.functions with
    | [] => s.stepTop t
    | f :: outer => s.stepBody f outer t
  | .fnKeyword keyword =>
    if t.kind = .identifier then s.enter (.fnName keyword t) else .error (s.unexpected t)
  | .fnName keyword name =>
    if t.isSymbol "(" then s.enter (.fnParams keyword name) else .error (s.unexpected t)
  | .fnParams keyword name =>
    if t.isSymbol ")" then s.enter (.fnHead keyword name)
    else if t.kind = .identifier then
      .error (s.fail (.unimplemented "function parameters") t.location)
    else .error (s.unexpected t)
  | .fnHead keyword name =>
    if t.isSymbol "\x7b" then .ok (.reading ⟨⟨keyword, name, []⟩ :: s.functions, .idle⟩)
    else .error (s.unexpected t)
  | .letKeyword keyword =>
    if t.kind = .identifier then s.enter (.letName keyword t) else .error (s.unexpected t)
  | .letName keyword name =>
    if t.isSymbol ":" then s.enter (.letColon keyword name) else .error (s.unexpected t)
  | .letColon keyword name =>
    if t.isSymbol "=" then s.enter (.letMarker keyword name true)
    else if t.isSymbol ":" then s.enter (.letMarker keyword name false)
    else .error (s.unexpected t)
  | .letMarker keyword name isMutable =>
    if t.isSymbol ";" then
      if isMutable then s.close (.varDecl name.text true [] name.location)
      else .error (s.fail (.uninitializedConstant name.text) name.location)
    else s.stepOperand (.initializer keyword name isMutable) t
  | .importPath keyword text last => s.stepPath keyword text last t
  | .word name =>
    if t.isSymbol "=" then s.enter (.operand (.rvalue name))
    else if t.isSymbol "(" then s.enter (.callOpen name)
    else if t.isSymbol ";" then s.close (.token name)
    else .error (s.fail (.expectedContinuation t.kind t.text) t.location)
  | .literal token =>
    if t.isSymbol ";" then s.close (.token token) else .error (s.unexpected t)
  | .callOpen name =>
    if t.isSymbol ")" then s.enter (.callClosed name [])
    else s.stepOperand (.argument name []) t
  | .operand purpose => s.stepOperand purpose t
  | .sign purpose chain =>
    if t.isOperand then s.enter (.value purpose (chain.push t)) else .error (s.unexpected t)
  | .value purpose chain => s.stepChain purpose chain t
  | .callClosed name args =>
    if t.isSymbol ";" then s.close (.fnCall name.text args.reverse name.location)
    else .error (s.unexpected t)

end Open

end Dwo
