import Dwo.Proofs.Script.Relocation
import Dwo.Proofs.Token.Spelling

/-!
# Layout

How a text is laid out over lines, what its comments say and what its file is called is of no
consequence for its translation: two texts whose tokens have the same spellings, one after the
other, have the same products, warnings and failures, up to the places that these mention. The main
result is `compile_eq_of_spellings_eq`.

The tokens of two such texts differ in their places alone, for the value of a token is a function
of its spelling. So the texts have the same tokens once all places are made one, and making all
places one commutes with reading and with compiling (`relocate_statements`,
`Statements.compile_relocate`).

`SameOutcome` compares two outcomes up to places: the same product, or errors with the same
cause and the same texts in their notes. It is obtained from the equality of the outcomes after
all places have been made one, and that is an equality between functions of the tokens.
-/

namespace Dwo

/-! ### Two runs -/

/-- Two runs end alike: with the same product, or in the same phase, for the same cause and with
the same remarks. The places of a failure and of its remarks are left open. -/
inductive SameOutcome : Except CompileError String → Except CompileError String → Prop where
  | ok (text : String) : SameOutcome (.ok text) (.ok text)
  | parse {e e' : ParseError} (cause : e.cause = e'.cause)
      (notes : e.notes.map Note.message = e'.notes.map Note.message) :
      SameOutcome (.error (.parse e)) (.error (.parse e'))
  | emit {e e' : EmitError} (cause : e.cause = e'.cause)
      (notes : e.notes.map Note.message = e'.notes.map Note.message) :
      SameOutcome (.error (.emit e)) (.error (.emit e'))

variable {f : Location → Location}

/-- Failures that become one when they are moved differ in their places alone. -/
theorem Failure.of_relocate_eq {κ : Type} {e e' : Failure κ}
    (h : e.relocate f = e'.relocate f) :
    e.cause = e'.cause ∧ e.notes.map Note.message = e'.notes.map Note.message := by
  have hcause : (e.relocate f).cause = (e'.relocate f).cause := congrArg Failure.cause h
  have hnotes : e.notes.map (Note.relocate f) = e'.notes.map (Note.relocate f) :=
    congrArg Failure.notes h
  have hmessages := congrArg (List.map Note.message) hnotes
  rw [List.map_map, List.map_map] at hmessages
  exact ⟨hcause, hmessages⟩

private theorem SameOutcome.of_relocate_eq {r r' : Except CompileError String}
    (h : r.mapError (CompileError.relocate f) = r'.mapError (CompileError.relocate f)) :
    SameOutcome r r' := by
  cases r with
  | ok text =>
    cases r' with
    | ok text' =>
      rw [Except.ok.inj h]
      exact .ok text'
    | error e' => cases h
  | error e =>
    cases r' with
    | ok text' => cases h
    | error e' =>
      have herror : e.relocate f = e'.relocate f := Except.error.inj h
      rcases e with e | e <;> rcases e' with e' | e'
      · obtain ⟨hcause, hnotes⟩ := Failure.of_relocate_eq (CompileError.parse.inj herror)
        exact .parse hcause hnotes
      · cases herror
      · cases herror
      · obtain ⟨hcause, hnotes⟩ := Failure.of_relocate_eq (CompileError.emit.inj herror)
        exact .emit hcause hnotes

private theorem map_message_of_relocate_eq {ds ds' : List Diagnostic}
    (h : ds.map (Diagnostic.relocate f) = ds'.map (Diagnostic.relocate f)) :
    ds.map Diagnostic.message = ds'.map Diagnostic.message := by
  have hmessages := congrArg (List.map Diagnostic.message) h
  rw [List.map_map, List.map_map] at hmessages
  exact hmessages

/-! ### One place for all tokens -/

/-- With all places made one, the tokens of a text are those of its spellings. -/
theorem map_relocate_tokenize (l : Location) (path source : String) :
    (tokenize path source).map (Token.relocate fun _ => l) =
      ((tokenize path source).map Token.spelling).map (Spelling.tokenAt l) := by
  rw [List.map_map]
  refine List.map_congr_left fun t ht => ?_
  have hvalue := value_of_mem_tokenize ht
  simp only [Token.relocate, Function.comp_apply, Token.spelling, Spelling.tokenAt, hvalue]

/-- With all places made one, the statements of a text are those of its spellings. -/
theorem relocate_sourceStatements (l : Location) (path source : String) :
    (sourceStatements path source).relocate (fun _ => l) =
      statements l (((tokenize path source).map Token.spelling).map (Spelling.tokenAt l)) := by
  rw [sourceStatements, relocate_statements, map_relocate_tokenize]

/-- **Layout and file names do not influence the translation.** If two texts have tokens of the
same classes and texts, in the same order, then both have the same JavaScript and the same syntax
tree, or fail for the same cause and with the same remarks; and both draw the same warnings. -/
theorem compile_eq_of_spellings_eq {path path' source source' : String}
    (h : (tokenize path source).map Token.spelling = (tokenize path' source').map Token.spelling) :
    SameOutcome (compile path source .javaScript) (compile path' source' .javaScript) ∧
      (Session.run { path := path, source := source } .javaScript).1.warnings.map
          Diagnostic.message =
        (Session.run { path := path', source := source' } .javaScript).1.warnings.map
          Diagnostic.message ∧
      SameOutcome (compile path source .tree) (compile path' source' .tree) := by
  let l : Location := default
  let forget : CompileError → CompileError := CompileError.relocate fun _ => l
  have hstatements : (sourceStatements path source).relocate (fun _ => l) =
      (sourceStatements path' source').relocate (fun _ => l) := by
    rw [relocate_sourceStatements, relocate_sourceStatements, h]
  have hcompile := congrArg (Statements.compile (Script.relocate (fun _ => l) {})) hstatements
  rw [Statements.compile_relocate, Statements.compile_relocate] at hcompile
  have hwarnings : ((sourceStatements path source).compile {}).1.map Diagnostic.message =
      ((sourceStatements path' source').compile {}).1.map Diagnostic.message :=
    map_message_of_relocate_eq (congrArg Prod.fst hcompile)
  have hresult : ((sourceStatements path source).compile {}).2.mapError forget =
      ((sourceStatements path' source').compile {}).2.mapError forget :=
    congrArg Prod.snd hcompile
  have hlisting := congrArg Statements.listing hstatements
  rw [Statements.listing_relocate, Statements.listing_relocate] at hlisting
  simp only [compile_javaScript_eq, compile_tree_eq_listing, Session.run_javaScript_eq,
    List.nil_append]
  exact ⟨.of_relocate_eq hresult, hwarnings, .of_relocate_eq hlisting⟩

/-- A program with a warning and an error, on one line and on several. -/
theorem compile_eq_of_spellings_eq_lines :
    let source := "let a::2;fn f()\x7b1;a=3;\x7d"
    let source' := "// A constant.\nlet a :: 2;\n\nfn f() \x7b\n\t1;\n\ta = 3; // error\n\x7d\n"
    (tokenize "m" source).map Token.spelling = (tokenize "dir/n.dwo" source').map Token.spelling ∧
      SameOutcome (compile "m" source .javaScript) (compile "dir/n.dwo" source' .javaScript) ∧
      (Session.run { path := "m", source := source } .javaScript).1.warnings.map
          Diagnostic.message =
        (Session.run { path := "dir/n.dwo", source := source' } .javaScript).1.warnings.map
          Diagnostic.message ∧
      SameOutcome (compile "m" source .tree) (compile "dir/n.dwo" source' .tree) := by
  intro source source'
  have hspellings : (tokenize "m" source).map Token.spelling =
      (tokenize "dir/n.dwo" source').map Token.spelling := by
    rw [tokenize_eq, tokenize_eq]
    cbv
  exact ⟨hspellings, compile_eq_of_spellings_eq hspellings⟩

end Dwo
