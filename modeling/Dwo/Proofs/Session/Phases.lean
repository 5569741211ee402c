import Dwo.Proofs.Session.Streaming

/-!
# Runs in two phases

A run for JavaScript reads a statement, adds it to the script, takes over the warnings about it, and
goes on to the next one (`Session.emitFrom`). It ends as if the whole text were read first and the
statements that were read were added to one script afterwards, with the warnings left in it: a
statement that is rejected counts before a failure to read on, even though the second phase would
never have begun. A run for the syntax tree ends as the first phase does. This holds for any run of
a session, whatever it was run for before. The main result is `run_eq_phases`.

The first phase is given by the calls of a reader (`Reader.Parses`), the second by adding
statements to a script (`Script.feed`). What connects them to a run are the statements that a
reader has still to return (`Reader.remaining`): one call takes off the first of them. That a run,
which does both in turn and keeps no warnings in its script, comes to the same is
`Session.emitFrom_eq`.

* `Reader.Parses`: the calls of a reader up to the end of the text, or up to an error;
* `Script.feed`: statements are added to a script until one of them is rejected;
* `conclude`: what the outcomes of the two phases come to.
-/

namespace Dwo

/-! ### The first phase -/

namespace Statements

/-- The statements in front of the end of the text, or in front of an error. -/
def nodes : Statements → List Node
  | closed _ | failed _ => []
  | next node rest => node :: rest.nodes

/-- The error behind the last statement, if there is one. -/
def error? : Statements → Option ParseError
  | closed _ => none
  | failed error => some error
  | next _ rest => rest.error?

end Statements

namespace Reader

/-- Successive calls return the statements `nodes`, and then the end of the text or an error. -/
inductive Parses : Reader → List Node → Option ParseError → Prop where
  | closed {r r' : Reader} {node : Node} :
      r.next = .ok (node, r') → node.isEndOfFile = true → Parses r [] none
  | failed {r : Reader} {e : ParseError} : r.next = .error e → Parses r [] (some e)
  | next {r r' : Reader} {node : Node} {nodes : List Node} {stop : Option ParseError} :
      r.next = .ok (node, r') → node.isEndOfFile = false → Parses r' nodes stop →
        Parses r (node :: nodes) stop

/-- The first phase comes to an end. -/
theorem parses_remaining (r : Reader) : r.Parses r.remaining.nodes r.remaining.error? := by
  -- Every call that returns a statement leaves fewer lexemes.
  induction hn : r.pending.length using Nat.strong_induction_on generalizing r with
  | _ n ih =>
    cases hnext : r.next with
    | error e =>
      rw [remaining_of_error hnext]
      exact .failed hnext
    | ok a =>
      obtain ⟨node, r'⟩ := a
      cases hnode : node.isEndOfFile with
      | true =>
        rw [remaining_of_end hnext hnode]
        exact .closed hnext hnode
      | false =>
        have hlength : r'.pending.length < n :=
          hn ▸ length_pending_lt hnext (Bool.eq_false_iff.mp hnode)
        rw [remaining_of_next hnext hnode]
        exact .next hnext hnode (ih _ hlength r' rfl)

/-- **The first phase** comes to one end: the statements that a reader has still to return, and the
error behind them. -/
theorem parses_iff {r : Reader} {nodes : List Node} {stop : Option ParseError} :
    r.Parses nodes stop ↔ nodes = r.remaining.nodes ∧ stop = r.remaining.error? := by
  constructor
  · intro h
    induction h with
    | closed hnext hnode =>
      rw [remaining_of_end hnext hnode]
      exact ⟨rfl, rfl⟩
    | failed hnext =>
      rw [remaining_of_error hnext]
      exact ⟨rfl, rfl⟩
    | next hnext hnode _ ih =>
      rw [remaining_of_next hnext hnode]
      exact ⟨congrArg _ ih.1, ih.2⟩
  · rintro ⟨rfl, rfl⟩
    exact parses_remaining r

end Reader

/-! ### The second phase -/

namespace Script

/-- Adds statements in order, up to the first that is rejected. -/
def feed (s : Script) : List Node → Script × Option EmitError
  | [] => (s, none)
  | node :: nodes =>
    match s.add node with
    | (s', some e) => (s', some e)
    | (s', none) => s'.feed nodes

/-- Nodes are all accepted if the first is, and the others are in the script it leads to. -/
theorem feed_cons_eq_none_iff {s s' : Script} {node : Node} {nodes : List Node} :
    s.feed (node :: nodes) = (s', none) ↔
      ∃ s₁, s.add node = (s₁, none) ∧ s₁.feed nodes = (s', none) := by
  rw [feed]
  generalize s.add node = added
  obtain ⟨s₁, rejected⟩ := added
  cases rejected <;> simp

/-- The first node that is rejected ends the feeding, and nothing behind it is looked at. -/
theorem feed_cons_eq_some_iff {s s' : Script} {node : Node} {nodes : List Node} {e : EmitError} :
    s.feed (node :: nodes) = (s', some e) ↔
      s.add node = (s', some e) ∨
        ∃ s₁, s.add node = (s₁, none) ∧ s₁.feed nodes = (s', some e) := by
  rw [feed]
  generalize s.add node = added
  obtain ⟨s₁, rejected⟩ := added
  cases rejected <;> simp

/-- The end of the second phase. A rejected statement counts before a failure of the first
phase. -/
def conclude (s : Script) : (rejected : Option EmitError) → (stop : Option ParseError) →
    Except CompileError String
  | some e, _ => .error (.emit e)
  | none, some e => .error (.parse e)
  | none, none => .ok s.finish

end Script

namespace Statements

/-- Compiling the statements of a text is feeding them to a script, and then the end of the first
phase counts. -/
theorem compile_eq_feed (statements : Statements) (s : Script) :
    statements.compile s =
      ((s.feed statements.nodes).1.warnings,
        (s.feed statements.nodes).1.conclude (s.feed statements.nodes).2 statements.error?) := by
  induction statements generalizing s with
  | closed l => rfl
  | failed e => rfl
  | next node rest ih =>
    rw [compile, nodes, error?, Script.feed]
    generalize s.add node = added
    obtain ⟨s', rejected⟩ := added
    cases rejected with
    | some e => rfl
    | none => exact ih s'

theorem nodes_foldr_next (nodes : List Node) (rest : Statements) :
    (nodes.foldr next rest).nodes = nodes ++ rest.nodes := by
  induction nodes with
  | nil => rfl
  | cons node nodes ih => exact congrArg (node :: ·) ih

theorem error?_foldr_next (nodes : List Node) (rest : Statements) :
    (nodes.foldr next rest).error? = rest.error? := by
  induction nodes with
  | nil => rfl
  | cons node nodes ih => exact ih

/-- Statements without an error are their nodes and the place where they end. -/
theorem eq_foldr_of_error?_eq_none {statements : Statements} (h : statements.error? = none) :
    ∃ l, statements = statements.nodes.foldr next (.closed l) := by
  induction statements with
  | closed l => exact ⟨l, rfl⟩
  | failed e => cases h
  | next node rest ih =>
    obtain ⟨l, hrest⟩ := ih h
    exact ⟨l, congrArg (next node) hrest⟩

/-- A listing is complete, or there is none. -/
theorem listing_eq (statements : Statements) :
    statements.listing =
      match statements.error? with
      | some e => .error (.parse e)
      | none => .ok <|
        statements.nodes.foldr (fun node text => node.dump ++ "\n" ++ text)
          "Node::EndOfFile\n" := by
  induction statements with
  | closed l => rfl
  | failed e => rfl
  | next node rest ih =>
    rw [listing, ih, error?]
    cases rest.error? <;> rfl

end Statements

/-! ### Sessions -/

namespace Session

/-- A session after some runs, whether they failed or not. -/
def after (s : Session) (targets : List Target) : Session :=
  targets.foldl (fun s target => (s.run target).1) s

/-- A run for JavaScript, from any session. -/
theorem run_javaScript (s : Session) :
    s.run .javaScript =
      let fed := ({} : Script).feed (sourceStatements s.path s.source).nodes
      ({ s with warnings := s.warnings ++ fed.1.warnings },
        fed.1.conclude fed.2 (sourceStatements s.path s.source).error?) := by
  rw [run_javaScript_eq, Statements.compile_eq_feed]

/-- Runs add the same warnings over and over, and keep those that are there. -/
theorem after_eq (s : Session) (targets : List Target) :
    s.after targets =
      let fed := ({} : Script).feed (sourceStatements s.path s.source).nodes
      { s with
        warnings := s.warnings ++
          (targets.filter (· = .javaScript)).flatMap fun _ => fed.1.warnings } := by
  induction targets generalizing s with
  | nil => simp [after]
  | cons target targets ih =>
    have hcons : s.after (target :: targets) = (s.run target).1.after targets := rfl
    rw [hcons, ih]
    cases target with
    | javaScript => simp [run_javaScript]
    | tree => simp [run_tree_eq]
    | tokens => simp [run]

end Session

/-- **A run ends as reading and then compiling would.** The first phase has exactly one end: some
statements, and possibly an error. Whatever the session was run for before, a run for JavaScript
returns the error of the first of these statements that an empty script rejects, or else the error
of the first phase, or else the finished script, and adds the warnings of that script behind those
of the earlier runs. A run for the tree fails exactly if the first phase does, a run for the tokens
never, and neither adds a warning. -/
theorem run_eq_phases (path source : String) (earlier : List Target) :
    ∃ nodes stop script rejected,
      (∀ nodes' stop', (Reader.ofSource path source).Parses nodes' stop' ↔
        nodes' = nodes ∧ stop' = stop) ∧
      ({} : Script).feed nodes = (script, rejected) ∧
      let session := Session.after { path := path, source := source } earlier
      session.warnings = (earlier.filter (· = .javaScript)).flatMap (fun _ => script.warnings) ∧
      session.run .javaScript =
        ({ session with warnings := session.warnings ++ script.warnings },
          script.conclude rejected stop) ∧
      session.run .tree = (session,
        match stop with
        | some e => .error (.parse e)
        | none => .ok <|
          nodes.foldr (fun node text => node.dump ++ "\n" ++ text) "Node::EndOfFile\n") ∧
      session.run .tokens = (session, .ok (tokenListing path source)) := by
  refine ⟨(sourceStatements path source).nodes, (sourceStatements path source).error?, _, _,
    fun nodes' stop' => ?_, rfl, ?_⟩
  · rw [Reader.parses_iff, Reader.remaining_ofSource]
  · rw [Session.after_eq]
    refine ⟨rfl, Session.run_javaScript _, ?_, Session.run_tokens_eq _⟩
    rw [Session.run_tree_eq, Statements.listing_eq]

end Dwo
