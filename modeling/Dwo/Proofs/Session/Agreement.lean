import Dwo.Proofs.Script.Rejection
import Dwo.Proofs.Script.Rules
import Dwo.Proofs.Session.Phases
import Dwo.Proofs.Statement.Returned

/-!
# Reading and compiling agree

Compiling is prepared for trees that reading never returns: constants without a value, expressions
that are none, statements in the wrong place. It rejects them with causes of their own
(`EmitCause.isDefensive`), or draws a warning. No source text leads there, whether it can be read to
its end or not. The main result, `read_statements_fit`, puts this together with the form of the
statements that are returned.

* `EmitCause.isDefensive`: the causes that only trees of another form can have;
* `Diagnostic.IsExpected`: the warnings that statements of the right form can draw.

The form of the statements comes from reading (`Node.IsTopLevel`), and the errors come from the
rules: a statement of the right form is rejected only for an offence, and no offence has a
defensive cause (`cause_of_mem_offences`). The warnings are followed in the same way
(`isExpected_of_mem_emit`).
-/

namespace Dwo

/-- The causes that are there for trees of a form that is never returned. -/
def EmitCause.isDefensive : EmitCause → Bool
  | constantWithoutInitializer _ | unsupportedInExpression _ | misplaced _ => true
  | _ => false

/-! ### Causes of offences -/

private theorem cause_of_mem_itemOffences {before earlier : List Node} {item : Node} {o : Offence}
    (h : o ∈ item.itemOffences before earlier) :
    o.cause.isDefensive = false ∧ o.cause.isUnimplemented = false := by
  cases item with
  | varDecl | assignment =>
    rw [Node.itemOffences] at h
    split at h
    · rw [List.mem_singleton.mp h]
      exact ⟨rfl, rfl⟩
    · cases h
  | fnDecl =>
    rw [List.mem_singleton.mp h]
    exact ⟨rfl, rfl⟩
  | _ => cases h

private theorem cause_of_mem_bodyOffences {before earlier items : List Node} {o : Offence}
    (h : o ∈ Node.bodyOffences before earlier items) :
    o.cause.isDefensive = false ∧ o.cause.isUnimplemented = false := by
  induction items generalizing earlier with
  | nil => cases h
  | cons item items ih =>
    rcases List.mem_append.mp h with h | h
    · exact cause_of_mem_itemOffences h
    · exact ih h

/-- **No offence has a defensive cause**, and only an import is not implemented. -/
theorem cause_of_mem_offences {before : List Node} {node : Node} {o : Offence}
    (h : o ∈ node.offences before) :
    o.cause.isDefensive = false ∧
      (o.cause.isUnimplemented = true → ∃ path newName isLocal,
        node = .importDecl path newName isLocal o.location ∧ path ≠ coreIo.name) := by
  cases node with
  | varDecl =>
    rw [Node.offences] at h
    split at h
    · rw [List.mem_singleton.mp h]
      exact ⟨rfl, fun h => by cases h⟩
    · cases h
  | fnDecl name params body l =>
    rcases List.mem_append.mp h with h | h
    · split at h
      · rw [List.mem_singleton.mp h]
        exact ⟨rfl, fun h => by cases h⟩
      · cases h
    · obtain ⟨hdefensive, hunimplemented⟩ := cause_of_mem_bodyOffences h
      refine ⟨hdefensive, fun h => ?_⟩
      rw [hunimplemented] at h
      cases h
  | importDecl path newName isLocal l =>
    rw [Node.offences] at h
    split at h
    · next hpath =>
      rw [List.mem_singleton.mp h]
      exact ⟨rfl, fun _ => ⟨path, newName, isLocal, rfl, hpath⟩⟩
    · split at h
      · cases h
      · obtain ⟨name, -, rfl⟩ := List.mem_map.mp h
        exact ⟨rfl, fun h => by cases h⟩
  | _ => cases h

/-- A script that is fed with statements of the right form stops at an offence. -/
theorem exists_offence_of_feed {s s' : Script} {before nodes : List Node} {e : EmitError}
    (hs : s.context.Tracks before) (hnodes : ∀ node ∈ nodes, node.IsTopLevel)
    (h : s.feed nodes = (s', some e)) :
    ∃ node ∈ nodes, ∃ earlier, ∃ o ∈ node.offences earlier,
      e.cause = o.cause ∧ e.location = o.location := by
  induction nodes generalizing s before with
  | nil => cases h
  | cons node nodes ih =>
    have hjudges := judges_emit hs (hnodes node List.mem_cons_self)
    rcases Script.feed_cons_eq_some_iff.mp h with hadd | ⟨s₁, hadd, hrest⟩
    · rw [Script.result_of_add_eq_some hadd] at hjudges
      obtain ⟨o, rest, hoffences, hcause⟩ := Judges.error_iff.mp hjudges
      refine ⟨node, List.mem_cons_self, before, o, ?_, hcause⟩
      rw [hoffences]
      exact List.mem_cons_self
    · obtain ⟨text, hresult, -⟩ := Script.of_add_eq_none hadd
      rw [hresult] at hjudges
      obtain ⟨-, htracks⟩ := Judges.ok_iff.mp hjudges
      obtain ⟨node', hmem, hoffence⟩ :=
        ih htracks (fun n hn => hnodes n (List.mem_cons_of_mem node hn)) hrest
      exact ⟨node', List.mem_cons_of_mem node hmem, hoffence⟩

/-! ### Warnings -/

/-- The warnings that statements of the right form draw. -/
def Warning.isExpected : Warning → Bool
  | danglingStatement _ => true
  | alreadyImported library => library = coreIo.name
  | _ => false

/-- Their wording tells them apart from the warnings about tokens outside all functions and about
expressions. -/
theorem Warning.message_ne_of_isExpected {w : Warning} (h : w.isExpected = true) :
    (∀ kind, w.message ≠ (danglingToken kind).message) ∧
      w.message ≠ danglingExpression.message := by
  cases w with
  | danglingStatement kind =>
    refine ⟨fun kind' => ?_, ?_⟩
    · cases kind <;> cases kind' <;> decide
    · cases kind <;> decide
  | alreadyImported library =>
    obtain rfl : library = coreIo.name := of_decide_eq_true h
    refine ⟨fun kind => ?_, by decide⟩
    cases kind <;> decide
  | danglingToken | danglingOperation | danglingExpression => cases h

/-- A warning that is expected, at some place. -/
def Diagnostic.IsExpected (d : Diagnostic) : Prop :=
  ∃ l w, Warning.isExpected w = true ∧ d = .warning l w.message

private theorem isExpected_of_mem_emitBodyItem {outer inner : Table Variable} {item : Node}
    {d : Diagnostic} (h : item.IsBodyItem)
    (hd : d ∈ (emitBodyItem outer inner item).warnings) : d.IsExpected := by
  cases h with
  | token t =>
    have hd : d ∈ [Diagnostic.warning t.location (Warning.danglingStatement t.kind).message] := hd
    exact ⟨t.location, .danglingStatement t.kind, rfl, List.mem_singleton.mp hd⟩
  | varDecl | assignment | fnCall =>
    rcases Emission.of_mem_warnings_bind hd with hd | ⟨_, hd⟩ <;> cases hd
  | fnDecl => cases hd

private theorem isExpected_of_mem_emitBody {outer inner : Table Variable} {items : List Node}
    {d : Diagnostic} (h : ∀ item ∈ items, item.IsBodyItem)
    (hd : d ∈ (emitBody outer inner items).warnings) : d.IsExpected := by
  induction items generalizing inner with
  | nil => cases hd
  | cons item items ih =>
    rw [emitBody] at hd
    rcases Emission.of_mem_warnings_bind hd with hd | ⟨r, hd⟩
    · exact isExpected_of_mem_emitBodyItem (h item List.mem_cons_self) hd
    · rcases Emission.of_mem_warnings_bind hd with hd | ⟨_, hd⟩
      · exact ih (fun i hi => h i (List.mem_cons_of_mem item hi)) hd
      · cases hd

/-- **Statements of the right form draw no other warning.** -/
theorem isExpected_of_mem_emit {c : Context} {node : Node} {d : Diagnostic} (h : node.IsTopLevel)
    (hd : d ∈ (emit c node).warnings) : d.IsExpected := by
  cases h with
  | @importDecl path l =>
    rw [emit, emitImport] at hd
    split at hd
    · cases hd
    split at hd
    · have hd : d ∈ [Diagnostic.warning l (Warning.alreadyImported coreIo.name).message] := hd
      exact ⟨l, .alreadyImported coreIo.name, by decide, List.mem_singleton.mp hd⟩
    · split at hd <;> cases hd
  | varDecl => rcases Emission.of_mem_warnings_bind hd with hd | ⟨_, hd⟩ <;> cases hd
  | @fnDecl name body l hbody =>
    have hd : d ∈ (emitFn c name [] body l).warnings := hd
    unfold emitFn at hd
    split at hd
    · cases hd
    · cases hd
    · rcases Emission.of_mem_warnings_bind hd with hd | ⟨_, hd⟩
      · exact isExpected_of_mem_emitBody hbody hd
      · cases hd

/-- A script that is fed holds its own warnings and those of the statements. -/
theorem isExpected_of_mem_feed {s : Script} {nodes : List Node}
    (hs : ∀ d ∈ s.warnings, d.IsExpected) (hnodes : ∀ node ∈ nodes, node.IsTopLevel) :
    ∀ d ∈ (s.feed nodes).1.warnings, d.IsExpected := by
  induction nodes generalizing s with
  | nil => exact hs
  | cons node nodes ih =>
    have hadd : ∀ d ∈ (s.add node).1.warnings, d.IsExpected := by
      intro d hd
      rw [Script.warnings_add] at hd
      rcases List.mem_append.mp hd with hd | hd
      · exact hs d hd
      · exact isExpected_of_mem_emit (hnodes node List.mem_cons_self) hd
    have hrest := ih hadd fun n hn => hnodes n (List.mem_cons_of_mem node hn)
    rw [Script.feed]
    generalize s.add node = added at hadd hrest
    obtain ⟨s₁, rejected⟩ := added
    cases rejected with
    | some e => exact hadd
    | none => exact hrest

/-! ### Source texts -/

/-- All statements that calls return, up to the end of the text or an error, have the right form. -/
theorem Reader.Parses.isReturned {path source : String} {r : Reader} {nodes : List Node}
    {stop : Option ParseError} (h : r.Parses nodes stop)
    (hr : r.pending <:+ sourceLexemes path source) : ∀ node ∈ nodes, node.IsReturned := by
  induction h with
  | closed | failed => exact fun node hnode => by cases hnode
  | next hnext hnode _ ih =>
    obtain ⟨hreturned, hr'⟩ := Reader.isReturned_of_next hr hnext hnode
    intro n hn
    rcases List.mem_cons.mp hn with rfl | hn
    · exact hreturned
    · exact ih hr' n hn

/-- If compiling fails on a statement, that is where a script stops that is fed with what can be
read. -/
theorem exists_feed_of_compile_error {path source : String} {e : EmitError}
    (h : compile path source .javaScript = .error (.emit e)) :
    ∃ s, ({} : Script).feed (sourceStatements path source).nodes = (s, some e) := by
  rw [compile, Session.run_javaScript] at h
  generalize ({} : Script).feed (sourceStatements path source).nodes = fed at h ⊢
  generalize (sourceStatements path source).error? = stop at h
  obtain ⟨s, rejected⟩ := fed
  cases rejected with
  | some e' =>
    obtain rfl : e' = e := CompileError.emit.inj (Except.error.inj h)
    exact ⟨s, rfl⟩
  | none => cases stop <;> cases h

/-- **Compiling agrees with reading.** From whatever position of a source text a statement is read,
it has the right form; the path of an import is made of words with colons between them. So, even if
the text cannot be read to its end, compiling is never left with a tree that it cannot deal with: it
does not fail with a defensive cause, nothing but an import of another library is not implemented,
and no warning is about a token outside all functions or about an expression. -/
theorem read_statements_fit (path source : String) :
    (∀ (r : Reader) node r', r.pending <:+ sourceLexemes path source →
      r.next = .ok (node, r') → node.isEndOfFile = true ∨ node.IsReturned) ∧
    (∀ e, compile path source .javaScript = .error (.emit e) →
      e.cause.isDefensive = false ∧
      (e.cause.isUnimplemented = true →
        ∃ nodes stop name newName isLocal, (Reader.ofSource path source).Parses nodes stop ∧
          .importDecl name newName isLocal e.location ∈ nodes ∧ name ≠ coreIo.name)) ∧
    ∀ d ∈ (Session.run { path := path, source := source } .javaScript).1.warnings,
      (∀ kind, d.message ≠ (Warning.danglingToken kind).message) ∧
        d.message ≠ Warning.danglingExpression.message := by
  have hparses := Reader.parses_remaining (.ofSource path source)
  rw [Reader.remaining_ofSource] at hparses
  have hreturned := hparses.isReturned (Reader.pending_ofSource_suffix path source)
  have hform : ∀ node ∈ (sourceStatements path source).nodes, node.IsTopLevel :=
    fun node hnode => (hreturned node hnode).isTopLevel
  refine ⟨?_, ?_, ?_⟩
  · intro r node r' hr hnext
    cases hnode : node.isEndOfFile with
    | true => exact .inl rfl
    | false => exact .inr (Reader.isReturned_of_next hr hnext hnode).1
  · intro e he
    obtain ⟨s, hfeed⟩ := exists_feed_of_compile_error he
    obtain ⟨node, hnode, earlier, o, ho, hcause, hlocation⟩ :=
      exists_offence_of_feed Context.Tracks.initial hform hfeed
    obtain ⟨hdefensive, himport⟩ := cause_of_mem_offences ho
    rw [hcause, hlocation]
    refine ⟨hdefensive, fun hunimplemented => ?_⟩
    obtain ⟨name, newName, isLocal, rfl, hname⟩ := himport hunimplemented
    exact ⟨_, _, name, newName, isLocal, hparses, hnode, hname⟩
  · intro d hd
    rw [Session.run_javaScript] at hd
    obtain ⟨l, w, hw, rfl⟩ := isExpected_of_mem_feed (fun d hd => by cases hd) hform d hd
    exact Warning.message_ne_of_isExpected hw

/-- A function with a token that stands alone, and an import of another library. -/
theorem read_statements_fit_import :
    let source := "fn f() \x7b 1; \x7d use a:b;"
    let reader := Reader.ofSource "m" source
    (∃ node r', reader.pending <:+ sourceLexemes "m" source ∧ reader.next = .ok (node, r') ∧
      (node.isEndOfFile = true ∨ node.IsReturned)) ∧
    (∃ e, compile "m" source .javaScript = .error (.emit e) ∧ e.cause.isDefensive = false ∧
      e.cause.isUnimplemented = true ∧
      ∃ nodes stop name newName isLocal, reader.Parses nodes stop ∧
        .importDecl name newName isLocal e.location ∈ nodes ∧ name ≠ coreIo.name) ∧
    ∃ d ∈ (Session.run { path := "m", source := source } .javaScript).1.warnings,
      (∀ kind, d.message ≠ (Warning.danglingToken kind).message) ∧
        d.message ≠ Warning.danglingExpression.message := by
  intro source reader
  let number : Token := ⟨.integer, "1", 1, ⟨"m", 1, 9⟩⟩
  let function : Node := .fnDecl "f" [] [.token number] ⟨"m", 1, 3⟩
  let library : Node := .importDecl "a:b" none false ⟨"m", 1, 14⟩
  have hread : sourceStatements "m" source =
      [function, library].foldr Statements.next (.closed ((closing source).location "m")) := by
    rw [sourceStatements_eq]
    cbv
  let error : EmitError :=
    ⟨.unimplemented "imports other than `core:io` (`a:b`)", ⟨"m", 1, 14⟩, []⟩
  have hrun : Session.run { path := "m", source := source } .javaScript =
      (⟨"m", source, [.warning number.location (Warning.danglingStatement .integer).message]⟩,
        .error (.emit error)) := by
    rw [Session.run_javaScript_eq, hread]
    rfl
  obtain ⟨hnext, herror, hwarning⟩ := read_statements_fit "m" source
  have hall : reader.ReadsAll [function, library] _ := readsAll_ofSource_iff.mpr ⟨hread, rfl⟩
  have hcall : ∃ r', reader.next = .ok (function, r') := by
    obtain ⟨_, _, hreads, _⟩ := hall
    cases hreads with
    | cons hnext _ _ => exact ⟨_, hnext⟩
  obtain ⟨r', hcall⟩ := hcall
  have hcompile : compile "m" source .javaScript = .error (.emit error) := congrArg Prod.snd hrun
  obtain ⟨hdefensive, himport⟩ := herror _ hcompile
  have hsuffix := Reader.pending_ofSource_suffix "m" source
  refine ⟨⟨function, r', hsuffix, hcall, hnext _ _ _ hsuffix hcall⟩,
    ⟨_, hcompile, hdefensive, rfl, himport rfl⟩, ?_⟩
  have hmem : Diagnostic.warning number.location (Warning.danglingStatement .integer).message ∈
      (Session.run { path := "m", source := source } .javaScript).1.warnings := by
    rw [hrun]
    exact List.mem_cons_self
  exact ⟨_, hmem, hwarning _ hmem⟩

end Dwo
