import Dwo.Proofs.Script.Rejection
import Dwo.Session

/-!
# Statement by statement

A run of a session goes from statement to statement: it reads one, adds it to the script, takes the
warnings out of the script, and reads the next one only if the statement was not rejected. Here a
run is compared with two values of the whole text: the statements that a reader has still to return
(`Reader.remaining`), and what a script makes of a list of statements without ever giving its
warnings away (`Statements.compile`). The main results are `Session.emitFrom_eq` and
`Session.listFrom_eq`.

Two things have to be seen. One call of a reader takes the first of the remaining statements off,
or finds what there is in its place. And a script does not look at the warnings that it holds, so
nothing changes if they are taken out on the way: those that were taken, one batch behind the other,
are those that would have been there at the end.

Tokens are listed in the same way, one call of the scanner after the other (`listTokens_eq`).
All three results are by induction on what is left of the text, along the recursion of the loop;
the loops end because a call that does not fail takes at least one token.
-/

namespace Dwo

/-! ### All statements at once -/

namespace Statements

/-- A listing of the statements, one behind the other, the end of the text included. -/
def listing : Statements → Except CompileError String
  | closed location => .ok ((Node.endOfFile location).dump ++ "\n")
  | failed error => .error (.parse error)
  | next node rest => do
    let tail ← rest.listing
    return node.dump ++ "\n" ++ tail

/-- Adds the statements to a script one at a time, up to the first that makes no sense, and
finishes the script. Returns also the warnings. -/
def compile (script : Script) : Statements → List Diagnostic × Except CompileError String
  | closed _ => (script.warnings, .ok script.finish)
  | failed error => (script.warnings, .error (.parse error))
  | next node rest =>
    match script.add node with
    | (script, some error) => (script.warnings, .error (.emit error))
    | (script, none) => rest.compile script

variable {script : Script} {node : Node} {rest : Statements}

/-- A rejected statement ends the compilation with the warnings given so far. -/
theorem compile_next_of_some {e : EmitError} (h : (script.add node).2 = some e) :
    (next node rest).compile script = ((script.add node).1.warnings, .error (.emit e)) := by
  rw [compile]
  generalize script.add node = added at h
  obtain ⟨added, error⟩ := added
  obtain rfl : error = some e := h
  rfl

/-- Behind an accepted statement the others are compiled by the script it leads to. -/
theorem compile_next_of_none (h : (script.add node).2 = none) :
    (next node rest).compile script = rest.compile (script.add node).1 := by
  rw [compile]
  generalize script.add node = added at h
  obtain ⟨added, error⟩ := added
  obtain rfl : error = none := h
  rfl

/-- Warnings that a script holds from the start come out in front of the others, and make no other
difference. -/
theorem compile_of_agrees {s t : Script} {held : List Diagnostic} (h : t.Agrees s)
    (hheld : t.warnings = held ++ s.warnings) (statements : Statements) :
    statements.compile t = (held ++ (statements.compile s).1, (statements.compile s).2) := by
  induction statements generalizing s t with
  | closed l => rw [compile, compile, hheld, h.finish_eq]
  | failed e => rw [compile, compile, hheld]
  | next node rest ih =>
    obtain ⟨herror, hagrees⟩ := h.add node
    have hwarnings : (t.add node).1.warnings = held ++ (s.add node).1.warnings := by
      rw [Script.warnings_add, Script.warnings_add, hheld, h.context, List.append_assoc]
    cases hadd : (s.add node).2 with
    | some e => rw [compile_next_of_some hadd, compile_next_of_some (herror.trans hadd), hwarnings]
    | none =>
      rw [compile_next_of_none hadd, compile_next_of_none (herror.trans hadd)]
      exact ih hagrees hwarnings

end Statements

/-! ### One statement at a time -/

namespace Reader

/-- The statements that a reader has still to return. -/
def remaining (r : Reader) : Statements :=
  statements (r.closing.location r.path) (r.pending.map Lexeme.token)

/-- A fresh reader has all statements of the source to return. -/
theorem remaining_ofSource (path source : String) :
    (ofSource path source).remaining = sourceStatements path source := by
  rw [ofSource_eq, sourceStatements_eq, remaining]

/-- Reading on from a state, with a reader and with a list of tokens. -/
theorem statementsFrom_eq_of_resume (r : Reader) (s : Open) (ls : List Lexeme) :
    statementsFrom (r.closing.location r.path) s (ls.map Lexeme.token) =
      match r.resume s ls with
      | .error e => .failed e
      | .ok (node, r') =>
        if node.isEndOfFile then .closed (r.closing.location r.path)
        else .next node r'.remaining := by
  induction ls generalizing s with
  | nil =>
    rw [List.map_nil, statementsFrom, resume]
    cases s.isInitial <;> rfl
  | cons l ls ih =>
    rw [List.map_cons, statementsFrom, resume]
    cases hstep : s.step l.token with
    | error e => rfl
    | ok p =>
      cases p with
      -- A statement that is complete is never the end of the text, so reading starts over behind
      -- it.
      | reading s' => exact ih s'
      | complete node =>
        have hnode := (Open.Step.of_step_eq hstep).isEndOfFile_eq_false
        simp only [hnode]
        rfl

/-- One call takes off the first statement, or returns what there is in its place. -/
theorem remaining_eq (r : Reader) :
    r.remaining =
      match r.next with
      | .error e => .failed e
      | .ok (node, r') =>
        if node.isEndOfFile then .closed (r.closing.location r.path)
        else .next node r'.remaining :=
  statementsFrom_eq_of_resume r {} r.pending

/-- If the next call fails, what remains is that failure. -/
theorem remaining_of_error {r : Reader} {e : ParseError} (h : r.next = .error e) :
    r.remaining = .failed e := by
  rw [remaining_eq, h]

/-- If the next call returns the end of file, nothing remains but the end of the source. -/
theorem remaining_of_end {r r' : Reader} {node : Node} (h : r.next = .ok (node, r'))
    (hnode : node.isEndOfFile = true) : r.remaining = .closed (r.closing.location r.path) := by
  rw [remaining_eq, h]
  exact if_pos hnode

/-- If the next call returns a statement, it is the first of what remains. -/
theorem remaining_of_next {r r' : Reader} {node : Node} (h : r.next = .ok (node, r'))
    (hnode : node.isEndOfFile = false) : r.remaining = .next node r'.remaining := by
  rw [remaining_eq, h]
  exact if_neg (Bool.eq_false_iff.mp hnode)

end Reader

namespace Session

/-- **Reading and adding in turn is reading first and adding afterwards.** A session that goes from
statement to statement, with a script whose warnings have been taken out, ends as the script does
with all the statements that are left; its warnings are those the script would hold by then. -/
theorem emitFrom_eq (s : Session) (r : Reader) {script : Script} (hscript : script.warnings = []) :
    s.emitFrom r script =
      ({ s with warnings := s.warnings ++ (r.remaining.compile script).1 },
        (r.remaining.compile script).2) := by
  fun_induction emitFrom s r script with
  | case1 s r script e h =>
    rw [Reader.remaining_of_error h, Statements.compile, hscript, List.append_nil]
  | case2 s r script node r' h hnode =>
    rw [Reader.remaining_of_end h hnode, Statements.compile, hscript, List.append_nil]
  | case3 s r script node r' h hnode added drained s' e hadd =>
    rw [Reader.remaining_of_next h (Bool.eq_false_iff.mpr hnode),
      Statements.compile_next_of_some hadd]
    rfl
  | case4 s r script node r' h hnode added drained s' hadd ih =>
    rw [Reader.remaining_of_next h (Bool.eq_false_iff.mpr hnode),
      Statements.compile_next_of_none hadd, ih rfl]
    -- The script goes on without the warnings that were taken out, and differs in nothing else.
    have hdrained : added.1.Agrees drained.2 := ⟨rfl, rfl⟩
    have hcompile := Statements.compile_of_agrees hdrained (List.append_nil _).symm r'.remaining
    rw [hcompile, ← List.append_assoc]
    rfl

/-- **Listing statements one by one lists them all.** -/
theorem listFrom_eq (r : Reader) (listed : String) :
    listFrom r listed = r.remaining.listing.map (listed ++ ·) := by
  fun_induction listFrom r listed with
  | case1 r listed e h =>
    rw [Reader.remaining_of_error h]
    rfl
  | case2 r listed node r' h listed' hnode =>
    rw [Reader.remaining_of_end h hnode]
    cases node with
    | endOfFile l => exact congrArg Except.ok String.append_assoc
    | _ => cases hnode
  | case3 r listed node r' h listed' hnode ih =>
    rw [Reader.remaining_of_next h (Bool.eq_false_iff.mpr hnode), Statements.listing, ih]
    cases r'.remaining.listing with
    | error e => rfl
    | ok tail =>
      change Except.ok (listed ++ node.dump ++ "\n" ++ tail) =
        Except.ok (listed ++ (node.dump ++ "\n" ++ tail))
      simp only [String.append_assoc]

/-- **Listing tokens one by one lists them all**, from any position between two characters. -/
theorem listTokens_eq {source : String} {c : Cursor} {left : List Char} (path : String)
    (h : c.IsAt source left) (listed : String) :
    listTokens ⟨path, source, c⟩ listed =
      listed ++ String.join (((lexemes path c left).map Lexeme.token ++
        [Token.endOfFile ((c.past left).location path)]).map fun t => t.dump ++ "\n") := by
  fun_induction lexemes path c left generalizing listed with
  | case1 c left stop hscan =>
    have hkind : (Token.endOfFile (stop.location path)).isEndOfFile = true := rfl
    rw [listTokens, Scanner.next_eq path h, hscan, ← eq_past_of_scan_eq_done hscan]
    dsimp only
    rw [dif_pos hkind, List.map_nil, List.nil_append, List.map_singleton, String.join_cons,
      String.join_nil, String.append_empty, String.append_assoc]
  | case2 c left l rest hscan ih =>
    obtain ⟨taken, rfl, hstop⟩ := exists_of_scan_eq_found hscan
    have hat : l.stop.IsAt source rest := by
      rw [hstop]
      exact h.past
    have hkind := Bool.eq_false_iff.mp (isEndOfFile_of_scan_eq_found hscan)
    rw [listTokens, Scanner.next_eq path h, hscan]
    dsimp only
    rw [dif_neg hkind, ih hat, Cursor.past_append, ← hstop, List.map_cons, List.cons_append,
      List.map_cons, String.join_cons]
    simp only [String.append_assoc]

/-- A run for the tokens, from any session. -/
theorem run_tokens_eq (s : Session) :
    s.run .tokens = (s, .ok (tokenListing s.path s.source)) := by
  rw [run, Scanner.ofSource_eq, listTokens_eq s.path (Scanner.isAt_opening s.source),
    String.empty_append, tokenListing, tokenize_eq]
  rfl

/-- A run for JavaScript, from any session. -/
theorem run_javaScript_eq (s : Session) :
    s.run .javaScript =
      ({ s with
        warnings := s.warnings ++ ((sourceStatements s.path s.source).compile {}).1 },
        ((sourceStatements s.path s.source).compile {}).2) := by
  rw [run, emitFrom_eq s _ rfl, Reader.remaining_ofSource]

/-- A run for the syntax tree, from any session. -/
theorem run_tree_eq (s : Session) :
    s.run .tree = (s, (sourceStatements s.path s.source).listing) := by
  rw [run, listFrom_eq, Reader.remaining_ofSource]
  cases (sourceStatements s.path s.source).listing with
  | error e => rfl
  | ok text => exact congrArg (fun text => (s, Except.ok text)) String.empty_append

end Session

/-- The program that a source text is compiled to. -/
theorem compile_javaScript_eq (path source : String) :
    compile path source .javaScript = ((sourceStatements path source).compile {}).2 := by
  rw [compile, Session.run_javaScript_eq]

/-- The listing of the syntax tree of a source text. -/
theorem compile_tree_eq_listing (path source : String) :
    compile path source .tree = (sourceStatements path source).listing := by
  rw [compile, Session.run_tree_eq]

/-- The listing of the tokens of a source text. -/
theorem compile_tokens_eq_ok (path source : String) :
    compile path source .tokens = .ok (tokenListing path source) := by
  rw [compile, Session.run_tokens_eq]

end Dwo
