import Dwo.Command.Run

/-!
# The command

Carries out a request on the files of the machine. Everything that does not touch a file is
decided elsewhere: `Options.outcome` says what to print and what to store.
-/

namespace Dwo

/-- An error of the operating system. -/
def FileError.ofSystem (e : IO.Error) : FileError :=
  match e with
  | .noFileOrDirectory .. => .notFound
  | .alreadyExists .. => .alreadyExists
  | .inappropriateType _ 20 _ => .notDirectory
  | .inappropriateType _ 21 _ => .isDirectory
  | .invalidArgument _ 36 _ => .nameTooLong
  | .inappropriateType _ code reason | .permissionDenied _ code reason
  | .invalidArgument _ code reason | .resourceExhausted _ code reason
  | .noSuchThing _ code reason | .otherError code reason | .resourceBusy code reason
  | .unsupportedOperation code reason | .illegalOperation code reason
  | .unsatisfiedConstraints code reason =>
    .other (reason ++ " (os error " ++ toString code ++ ")")
  | e => .other (toString e)

/-- Tries an action on files. -/
def attempt {α : Type} (action : IO α) : IO (Except FileError α) := do
  try return .ok (← action)
  catch e => return .error (.ofSystem e)

/-- The text of a file. -/
def readTextFile (path : String) : IO (Except FileError String) := do
  match ← attempt (IO.FS.withFile path .read fun file => file.readBinToEnd) with
  | .error e => return .error e
  | .ok content =>
    match String.fromUTF8? content with
    | some text => return .ok text
    | none => return .error .notText

/-- Whether there is a directory at a path: directories, and nothing else, hold an entry `.`
already. -/
def isDirectoryPath (path : String) : IO Bool := do
  match ← attempt (IO.FS.createDir (path ++ "/.")) with
  | .error .alreadyExists => return true
  | _ => return false

/-- Makes a directory and those above it that are missing, where the segments of its path come
last segment first. The directory itself is tried first. -/
def makeDirectories : (reversed : List String) → IO (Option FileError)
  | [] => return none
  | segment :: above => do
    let path := (Path.mk (segment :: above).reverse).text
    let settle (e : FileError) : IO (Option FileError) := do
      if ← isDirectoryPath path then return none else return some e
    if Path.isIdle segment then makeDirectories above
    else match ← attempt (IO.FS.createDir path) with
      | .ok () => return none
      | .error .notFound =>
        match ← makeDirectories above with
        | some e => return some e
        | none =>
          match ← attempt (IO.FS.createDir path) with
          | .ok () => return none
          | .error e => settle e
      | .error e => settle e

/-- Stores a file, and makes the directories that lead to it. -/
def saveTextFile (path text : String) : IO (Option FileError) := do
  match ← makeDirectories (Path.ofText path).parent.segments.reverse with
  | some e => return some e
  | none =>
    match ← attempt (IO.FS.writeBinFile path text.toUTF8) with
    | .ok () => return none
    | .error e => return some e

/-- Prints a report and returns its exit code. -/
def Report.print (r : Report) : IO UInt32 := do
  (← IO.getStderr).putStr r.stderr
  (← IO.getStdout).putStr r.stdout
  return r.exitCode.toUInt32

end Dwo

open Dwo in
/-- Carries out what the arguments ask for. -/
def main (arguments : List String) : IO UInt32 := do
  match Request.ofArguments? arguments with
  | none => Report.usage.print
  | some (.compile o) =>
    match o.outcome (← readTextFile o.input) with
    | .done report => report.print
    | .store report path text =>
      match ← saveTextFile path text with
      | none => report.print
      | some e => (report.fileFailure path e).print
  | some request => (request.run {}).1.print
