import Dwo.Command.FileTree
import Dwo.Command.Request

/-!
# Carrying out requests

A request is carried out in three steps: the input file is read, its text is compiled, and the
product is stored in a file or printed. The middle step touches no file: `Options.outcome` says
what is to be printed and what is to be stored. `Request.run` does the whole on a `FileTree`, and
`runArguments` starts from the words of a command line.

The exit code is 0 for success, 1 for a source text that does not compile, and 2 for a file that
cannot be read or stored. The headline of a diagnostic goes to the error output and its notes to
standard output.
-/

namespace Dwo

/-- What a command leaves behind, apart from files. -/
structure Report where
  exitCode : Nat := 0
  stdout : String := ""
  stderr : String := ""
deriving DecidableEq, Inhabited, Repr

namespace Report

/-- The report with a diagnostic. -/
def emit (r : Report) (d : Diagnostic) : Report :=
  { r with
    stdout := r.stdout ++ String.join (d.notes.map fun n => n.text ++ "\n")
    stderr := r.stderr ++ d.headline ++ "\n" }

/-- The report with several diagnostics, in order. -/
def emitAll (r : Report) (ds : List Diagnostic) : Report :=
  ds.foldl emit r

/-- The report with a failure at a path. -/
def fileFailure (r : Report) (path : String) (e : FileError) : Report :=
  { r with exitCode := 2, stderr := r.stderr ++ path ++ ": " ++ e.message ++ "\n" }

end Report

/-- What a compilation comes to: a report, and possibly a file to be stored. -/
inductive Outcome where
  | done (report : Report)
  | store (report : Report) (path : String) (text : String)
deriving DecidableEq, Repr

/-- The path under which a product is stored. -/
def Options.destination (o : Options) : String :=
  withExtension o.output o.target.extension

/-- Compiles the content of the input file, if it could be read. -/
def Options.outcome (o : Options) : Except FileError String → Outcome
  | .error e => .done (({} : Report).fileFailure o.input e)
  | .ok source =>
    let (session, result) := Session.run { path := o.input, source := source } o.target
    let report := ({} : Report).emitAll session.warnings
    match result with
    | .error e => .done { report.emit e.diagnostic with exitCode := 1 }
    | .ok text =>
      if o.toStdout then .done { report with stdout := report.stdout ++ text }
      else .store report o.destination text

/-- The answer to a request for the version. -/
def versionText : String := "dwoc-rs 0.1.0\n"

/-- How to use the command. -/
def usageText : String := "Usage: dwoc [OPTIONS] <INPUT>\n"

/-- The answer to a request for help. -/
def helpText : String :=
  "Compiler for the dwo language\n\n" ++ usageText ++
    "\nArguments:\n  <INPUT>  Source file path\n" ++
    "\nOptions:\n" ++
    "  -o, --output <OUTPUT>  Output file; the target's extension is appended when missing " ++
    "[default: out]\n" ++
    "  -t, --target <TARGET>  What to produce [default: js] " ++
    "[possible values: js, ir, tokens]\n" ++
    "      --stdout           Print the result instead of writing a file\n" ++
    "  -h, --help             Print help\n" ++
    "  -V, --version          Print version\n"

/-- Carries out a request on a file tree. -/
def Request.run (t : FileTree) : Request → Report × FileTree
  | .help => ({ stdout := helpText }, t)
  | .version => ({ stdout := versionText }, t)
  | .compile o =>
    match o.outcome (t.readText o.input) with
    | .done report => (report, t)
    | .store report path text =>
      match t.save path text.toUTF8 with
      | (t, none) => (report, t)
      | (t, some e) => (report.fileFailure path e, t)

/-- The answer to arguments that make no request. -/
def Report.usage : Report := { exitCode := 2, stderr := usageText }

end Dwo
