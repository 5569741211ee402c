import Dwo.Session

/-!
# Requests

What a user asks for on the command line. Arguments are read from left to right: one input file,
and options in any order. An option with a value takes it from the same argument (`-ovalue`,
`-o=value`, `--output=value`) or from the next, which then must not look like an option. Each
option can be given once, and no value is empty. Behind `--` every argument is an input file, also
one that looks like an option. A request for help or for the version counts as soon as it is
reached, whatever follows.
-/

namespace Dwo

/-- What to compile, and where the product goes. -/
structure Options where
  input : String
  output : String := "out"
  target : Target := .javaScript
  toStdout : Bool := false
deriving DecidableEq, Inhabited, Repr

/-- What a user asks for. -/
inductive Request where
  | help
  | version
  | compile (options : Options)
deriving DecidableEq, Inhabited, Repr

/-- The options that take a value. -/
inductive Setting where
  | output
  | target
deriving DecidableEq, Inhabited, Repr

/-- An argument by itself. -/
inductive Argument where
  | input (path : String)
  /-- An option that takes a value, and the value if the argument holds it. -/
  | setting (setting : Setting) (value : Option String)
  | toStdout
  | help
  | version
  /-- `--` -/
  | separator
  | unknown
deriving DecidableEq, Inhabited, Repr

namespace Argument

/-- An option of several letters, behind its two dashes, with the value behind its first `=`. -/
def ofLong (name : List Char) (value : Option String) : Argument :=
  match String.ofList name, value with
  | "output", value => .setting .output value
  | "target", value => .setting .target value
  | "stdout", none => .toStdout
  | "help", none => .help
  | "version", none => .version
  | _, _ => .unknown

/-- The value that follows a one-letter option in the same argument. -/
def attached : List Char → Option String
  | [] => none
  | '=' :: value => some (String.ofList value)
  | value => some (String.ofList value)

/-- An option of one letter, behind its dash, and the text behind the letter. -/
def ofShort (letter : Char) (rest : List Char) : Argument :=
  match letter with
  | 'o' => .setting .output (attached rest)
  | 't' => .setting .target (attached rest)
  | 'h' => .help
  | 'V' => .version
  | _ => .unknown

/-- Reads an argument by itself. A lone dash is a file name. -/
def ofText (text : String) : Argument :=
  match text.toList with
  | ['-', '-'] => .separator
  | '-' :: '-' :: option =>
    match option.dropWhile (· ≠ '=') with
    | [] => ofLong option none
    | _ :: value => ofLong (option.takeWhile (· ≠ '=')) (some (String.ofList value))
  | '-' :: letter :: rest => ofShort letter rest
  | _ => .input text

end Argument

/-- The target of a name. -/
def Target.ofName? : String → Option Target
  | "js" => some .javaScript
  | "ir" => some .tree
  | "tokens" => some .tokens
  | _ => none

/-- The arguments read so far. -/
structure Draft where
  input : Option String := none
  output : Option String := none
  target : Option Target := none
  toStdout : Bool := false
deriving DecidableEq, Inhabited, Repr

namespace Draft

/-- Names the input file, which has to be the only one. -/
def withInput (d : Draft) (path : String) : Option Draft :=
  if path = "" ∨ d.input.isSome then none else some { d with input := some path }

/-- Gives a value to an option that has none yet. -/
def withSetting (d : Draft) (setting : Setting) (value : String) : Option Draft :=
  match setting with
  | .output => if value = "" ∨ d.output.isSome then none else some { d with output := some value }
  | .target =>
    if d.target.isSome then none
    else (Target.ofName? value).map fun target => { d with target := some target }

/-- Asks for the product on standard output, once. -/
def withStdout (d : Draft) : Option Draft :=
  if d.toStdout then none else some { d with toStdout := true }

/-- The request that the arguments come to. There has to be an input file. -/
def request? (d : Draft) : Option Request :=
  d.input.map fun input => .compile
    { input := input
      output := d.output.getD "out"
      target := d.target.getD .javaScript
      toStdout := d.toStdout }

/-- Reads arguments behind `--`. -/
def readInputs (d : Draft) : List String → Option Request
  | [] => d.request?
  | path :: paths => (d.withInput path).bind fun d => d.readInputs paths

/-- Reads arguments, where `pending` is an option that still waits for its value. -/
def read (d : Draft) (pending : Option Setting) : List String → Option Request
  | [] => if pending.isSome then none else d.request?
  | text :: rest =>
    match pending, Argument.ofText text with
    | some setting, .input value => (d.withSetting setting value).bind fun d => d.read none rest
    | some _, _ => none
    | none, .input path => (d.withInput path).bind fun d => d.read none rest
    | none, .setting setting (some value) =>
      (d.withSetting setting value).bind fun d => d.read none rest
    | none, .setting setting none => d.read (some setting) rest
    | none, .toStdout => d.withStdout.bind fun d => d.read none rest
    | none, .help => some .help
    | none, .version => some .version
    | none, .separator => d.readInputs rest
    | none, .unknown => none

end Draft

/-- The request that a list of arguments makes, if it makes one. -/
def Request.ofArguments? (arguments : List String) : Option Request :=
  Draft.read {} none arguments

end Dwo
