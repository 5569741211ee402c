import Dwo.Proofs.Statement.Step
import Dwo.Proofs.Statement.Whole

/-!
# Runs of reading

`Open.Run` strings steps together, starting over whenever a top-level statement is complete, and
collects the statements that were completed.

Readers and `statements` are two ways to make such a run. The calls of a reader that return the
statements `nodes` are a run over the lexemes that the reader passes
(`Reader.Reads.exists_run`), coming to the end of the text is a run that leaves nothing open
(`Reader.readsAll_iff`), and so is a list of statements without an error
(`statements_eq_closed_iff`).

`Open.Placed` is the first invariant: some constructs are read only inside a function, and imports
only outside all functions.

* `Open.Run.append` and `Open.Run.of_append`: runs are put together and cut at any token;
* `Open.Run.unique`: the tokens determine the statements and the last state;
* `Open.Run.exists_complete`: a run that returns a statement has a first part that returns just
  that one;
* `Reader.resume_of_run` and `Reader.exists_run_of_resume`: a call of a reader is such a first
  part, and back.

The other modules prove what one step preserves and derive what a run preserves by induction on
it.
-/

namespace Dwo

namespace Progress

/-- The state behind a token: a complete statement leaves nothing open. -/
def state : Progress → Open
  | reading s => s
  | complete _ => {}

/-- The statement that a token completed, if it did. -/
def finished : Progress → List Node
  | reading _ => []
  | complete node => [node]

end Progress

namespace Open

/-- Reading `tokens` from one state to another, where the statements `nodes` are completed. -/
inductive Run : Open → List Token → List Node → Open → Prop where
  | nil (s : Open) : Run s [] [] s
  | cons {s s' : Open} {t : Token} {p : Progress} {ts : List Token} {ns : List Node} :
      Step s t p → Run p.state ts ns s' → Run s (t :: ts) (p.finished ++ ns) s'

namespace Run

/-- Runs compose, and the nodes of the first come before those of the second. -/
theorem append {s s' s'' : Open} {ts us : List Token} {ns ms : List Node}
    (h : Run s ts ns s') (h' : Run s' us ms s'') : Run s (ts ++ us) (ns ++ ms) s'' := by
  induction h with
  | nil s => exact h'
  | cons hstep _ ih =>
    rw [List.append_assoc]
    exact .cons hstep (ih h')

/-- A run over two lists of tokens stops in between. -/
theorem of_append {s s'' : Open} {ts us : List Token} {ns : List Node}
    (h : Run s (ts ++ us) ns s'') :
    ∃ ns₁ s' ns₂, ns = ns₁ ++ ns₂ ∧ Run s ts ns₁ s' ∧ Run s' us ns₂ s'' := by
  induction ts generalizing s ns with
  | nil => exact ⟨[], s, ns, rfl, .nil s, h⟩
  | cons t ts ih =>
    obtain _ | ⟨hstep, hrest⟩ := h
    obtain ⟨ns₁, s', ns₂, rfl, h₁, h₂⟩ := ih hrest
    exact ⟨_, s', ns₂, (List.append_assoc ..).symm, .cons hstep h₁, h₂⟩

/-- The last step of a run. -/
theorem of_concat {s s'' : Open} {ts : List Token} {t : Token} {ns : List Node}
    (h : Run s (ts ++ [t]) ns s'') :
    ∃ ns₁ s' p, Run s ts ns₁ s' ∧ Step s' t p ∧ ns = ns₁ ++ p.finished ∧ s'' = p.state := by
  obtain ⟨ns₁, s', ns₂, rfl, hfront, hlast⟩ := h.of_append
  obtain _ | ⟨hstep, hnil⟩ := hlast
  cases hnil
  exact ⟨ns₁, s', _, hfront, hstep, by rw [List.append_nil], rfl⟩

/-- A state and a list of tokens leave no choice. -/
theorem unique {s s₁ s₂ : Open} {ts : List Token} {ns₁ ns₂ : List Node}
    (h₁ : Run s ts ns₁ s₁) (h₂ : Run s ts ns₂ s₂) : ns₁ = ns₂ ∧ s₁ = s₂ := by
  induction h₁ generalizing ns₂ with
  | nil s =>
    cases h₂
    exact ⟨rfl, rfl⟩
  | cons hstep _ ih =>
    obtain _ | ⟨hstep', hrest⟩ := h₂
    obtain rfl := hstep.unique hstep'
    obtain ⟨rfl, rfl⟩ := ih hrest
    exact ⟨rfl, rfl⟩

/-- A run that completes a statement has a token that completes the first one. -/
theorem exists_complete {s s' : Open} {ts : List Token} {n : Node} {ns : List Node}
    (h : Run s ts (n :: ns) s') :
    ∃ us t vs s₁, ts = us ++ t :: vs ∧ Run s us [] s₁ ∧ Step s₁ t (.complete n) ∧
      Run {} vs ns s' := by
  induction ts generalizing s with
  | nil => cases h
  | cons t ts ih =>
    -- What a step finishes is not known before its progress is, so the list is named first.
    generalize hnodes : n :: ns = nodes at h
    obtain _ | @⟨_, _, _, p, _, _, hstep, hrest⟩ := h
    cases p with
    | complete m =>
      obtain ⟨rfl, rfl⟩ := List.cons.inj hnodes
      exact ⟨[], t, ts, s, rfl, .nil s, hstep, hrest⟩
    | reading s₂ =>
      obtain rfl := hnodes
      obtain ⟨us, u, vs, s₁, rfl, hus, hu, hvs⟩ := ih hrest
      exact ⟨t :: us, u, vs, s₁, rfl, .cons hstep hus, hu, hvs⟩

end Run

end Open

/-! ### Where constructs stand -/

/-- Expressions that are read only inside a function. -/
def Purpose.IsInner : Purpose → Prop
  | initializer .. => False
  | rvalue _ | argument .. => True

/-- Constructs that are read only inside a function. -/
def Phase.IsInner : Phase → Prop
  | word _ | literal _ | callOpen _ | callClosed .. => True
  | operand purpose | sign purpose _ | value purpose _ => purpose.IsInner
  | _ => False

namespace Open

/-- Constructs stand where they belong. -/
structure Placed (s : Open) : Prop where
  inner : s.phase.IsInner → s.functions ≠ []
  outer : ∀ k text last, s.phase = .importPath k text last → s.functions = []

theorem placed_idle (fs : List OpenFn) : Placed ⟨fs, .idle⟩ :=
  ⟨False.elim, fun _ _ _ h => by cases h⟩

private theorem placed_close (fs : List OpenFn) (node : Node) :
    (Progress.close fs node).state.Placed := by
  cases fs <;> exact placed_idle _

/-- Step lemma: after each token the reader is in a placed state again. -/
theorem Placed.step {s : Open} {t : Token} {p : Progress} (h : s.Placed) (hstep : Step s t p) :
    p.state.Placed := by
  cases hstep with
  | bodyEnd | straySymbol | stray | letEnd | pathEnd | wordEnd | literalEnd | initializerEnd
  | rvalueEnd | callEnd => exact placed_close _ _
  | emptyStatement | fnBody => exact placed_idle _
  | word | literal => exact ⟨fun _ => List.cons_ne_nil _ _, fun _ _ _ h => by cases h⟩
  | useKeyword => exact ⟨False.elim, fun _ _ _ _ => rfl⟩
  | pathColon | pathName => exact ⟨False.elim, fun _ _ _ _ => h.outer _ _ _ rfl⟩
  | wordAssign | wordCall | callEmpty | callOperand | argumentComma | argumentEnd | operand
  | signOperand | valueSign => exact ⟨fun hinner => h.inner hinner, fun _ _ _ h => by cases h⟩
  | fnKeyword | letKeyword | fnName | fnParams | fnHead | letName | letColon | letMutable
  | letImmutable | letOperand => exact ⟨False.elim, fun _ _ _ h => by cases h⟩

/-- Run lemma: no sequence of tokens leads out of the placed states. -/
theorem Placed.run {s s' : Open} {ts : List Token} {ns : List Node} (h : s.Placed)
    (hrun : Run s ts ns s') : s'.Placed := by
  induction hrun with
  | nil s => exact h
  | cons hstep _ ih => exact ih (h.step hstep)

end Open

/-! ### Readers -/

namespace Reader

/-- Successive calls return the statements `nodes`, none of them the end of the text. -/
inductive Reads : Reader → List Node → Reader → Prop where
  | nil (r : Reader) : Reads r [] r
  | cons {r r₁ r₂ : Reader} {node : Node} {nodes : List Node} :
      r.next = .ok (node, r₁) → node.isEndOfFile = false → Reads r₁ nodes r₂ →
        Reads r (node :: nodes) r₂

/-- Successive calls return the statements `nodes` and then the end of the text. -/
def ReadsAll (r : Reader) (nodes : List Node) (r₂ : Reader) : Prop :=
  ∃ r₁ location, r.Reads nodes r₁ ∧ r₁.next = .ok (.endOfFile location, r₂)

open Open (Run Step)

/-- Lexemes that complete no statement only change the state. -/
theorem resume_of_run {r : Reader} {s s' : Open} {ls rest : List Lexeme}
    (h : Run s (ls.map Lexeme.token) [] s') : r.resume s (ls ++ rest) = r.resume s' rest := by
  induction ls generalizing s with
  | nil =>
    cases h
    rfl
  | cons l ls ih =>
    rw [List.map_cons] at h
    generalize hnodes : ([] : List Node) = nodes at h
    obtain _ | @⟨_, _, _, p, _, _, hstep, hrest⟩ := h
    cases p with
    | complete m => cases hnodes
    | reading s₁ =>
      obtain rfl := hnodes
      rw [List.cons_append, resume, hstep.step_eq]
      exact ih hrest

private theorem eq_of_isInitial {s : Open} (h : s.isInitial = true) : s = {} := by
  obtain ⟨fs, phase⟩ := s
  cases fs with
  | cons f outer => cases h
  | nil =>
    cases phase with
    | idle => rfl
    | _ => cases h

/-- A call goes on to the lexeme that completes the statement it returns, or to the end of the
text with no statement begun. -/
theorem exists_run_of_resume {r r' : Reader} {s : Open} {ls : List Lexeme} {node : Node}
    (h : r.resume s ls = .ok (node, r')) :
    (∃ block last rest s', ls = block ++ last :: rest ∧ Run s (block.map Lexeme.token) [] s' ∧
        Step s' last.token (.complete node) ∧
        r' = { r with cursor := last.stop, pending := rest }) ∨
      (Run s (ls.map Lexeme.token) [] {} ∧ node = .endOfFile (r.closing.location r.path) ∧
        r' = { r with cursor := r.closing, pending := [] }) := by
  induction ls generalizing s with
  | nil =>
    rw [resume] at h
    split at h
    · next hinitial =>
      obtain rfl := eq_of_isInitial hinitial
      obtain ⟨rfl, rfl⟩ := Prod.mk.inj (Except.ok.inj h)
      exact .inr ⟨.nil _, rfl, rfl⟩
    · cases h
  | cons l ls ih =>
    rw [resume] at h
    split at h
    · cases h
    · next s₁ hstep =>
      have hstep := Step.of_step_eq hstep
      rcases ih h with ⟨block, last, rest, s', rfl, hrun, hlast, hr⟩ | ⟨hrun, hnode, hr⟩
      · exact .inl ⟨l :: block, last, rest, s', rfl, .cons hstep hrun, hlast, hr⟩
      · exact .inr ⟨.cons hstep hrun, hnode, hr⟩
    · next n hstep =>
      obtain ⟨rfl, rfl⟩ := Prod.mk.inj (Except.ok.inj h)
      exact .inl ⟨[], l, ls, s, rfl, .nil s, Step.of_step_eq hstep, rfl⟩

/-- A call that returns a statement reads exactly the lexemes of that statement. -/
theorem exists_block_of_next {r r' : Reader} {node : Node} (h : r.next = .ok (node, r'))
    (hnode : node.isEndOfFile = false) :
    ∃ block last, r.pending = block ++ last :: r'.pending ∧
      Run {} ((block ++ [last]).map Lexeme.token) [node] {} ∧
      r' = { r with cursor := last.stop, pending := r'.pending } := by
  rcases exists_run_of_resume h with ⟨block, last, rest, s', hls, hrun, hlast, rfl⟩ | ⟨-, rfl, -⟩
  · refine ⟨block, last, hls, ?_, rfl⟩
    rw [List.map_append]
    exact hrun.append (.cons hlast (.nil _))
  · cases hnode

/-- The statements that a reader returns are a run over the lexemes it passes. -/
theorem Reads.exists_run {r r' : Reader} {nodes : List Node} (h : r.Reads nodes r') :
    ∃ ls, r.pending = ls ++ r'.pending ∧ Run {} (ls.map Lexeme.token) nodes {} ∧
      r'.path = r.path ∧ r'.closing = r.closing := by
  induction h with
  | nil r => exact ⟨[], rfl, .nil _, rfl, rfl⟩
  | @cons r r₁ r₂ node nodes hnext hnode _ ih =>
    obtain ⟨block, last, hpending, hrun, hr₁⟩ := exists_block_of_next hnext hnode
    obtain ⟨ls, hls, hrest, hpath, hclosing⟩ := ih
    refine ⟨block ++ last :: ls, ?_, ?_, ?_, ?_⟩
    · rw [hpending, hls, List.append_assoc, List.cons_append]
    · rw [List.append_cons, List.map_append]
      exact hrun.append hrest
    · rw [hpath, hr₁]
    · rw [hclosing, hr₁]

/-- A run that leaves nothing open can be made by calls of a reader, up to the end of the
text. -/
theorem readsAll_of_run {r : Reader} {nodes : List Node}
    (h : Run {} (r.pending.map Lexeme.token) nodes {}) :
    r.ReadsAll nodes { r with cursor := r.closing, pending := [] } := by
  induction nodes generalizing r with
  | nil =>
    have hend : r.resume {} (r.pending ++ []) = r.resume {} [] := resume_of_run h
    rw [List.append_nil] at hend
    exact ⟨r, _, .nil r, hend⟩
  | cons n ns ih =>
    obtain ⟨us, t, vs, s₁, hts, hus, ht, hvs⟩ := h.exists_complete
    obtain ⟨block, tail, hpending, rfl, htail⟩ := List.map_eq_append_iff.mp hts
    obtain ⟨last, rest, rfl, rfl, rfl⟩ := List.map_eq_cons_iff.mp htail
    have hnext : r.next = .ok (n, { r with cursor := last.stop, pending := rest }) := by
      rw [next, hpending, resume_of_run hus, resume, ht.step_eq]
    obtain ⟨r₁, location, hreads, hend⟩ :=
      ih (r := { r with cursor := last.stop, pending := rest }) hvs
    exact ⟨r₁, location, .cons hnext ht.isEndOfFile_eq_false hreads, hend⟩

/-- **Reading to the end is a run that leaves nothing open.** -/
theorem readsAll_iff {r r' : Reader} {nodes : List Node} :
    r.ReadsAll nodes r' ↔ Run {} (r.pending.map Lexeme.token) nodes {} ∧
      r' = { r with cursor := r.closing, pending := [] } := by
  constructor
  · rintro ⟨r₁, location, hreads, hend⟩
    obtain ⟨ls, hpending, hrun, hpath, hclosing⟩ := hreads.exists_run
    rcases exists_run_of_resume hend with ⟨_, _, _, _, _, _, hlast, _⟩ | ⟨hrest, -, rfl⟩
    · exact absurd hlast.isEndOfFile_eq_false (by simp [Node.isEndOfFile])
    · refine ⟨?_, ?_⟩
      · rw [hpending, List.map_append, ← List.append_nil nodes]
        exact hrun.append hrest
      · rw [hpath, hclosing]
  · rintro ⟨hrun, rfl⟩
    exact readsAll_of_run hrun

end Reader

/-! ### Lists of statements -/

open Open (Run Step)

/-- Behind a run, the statements that it completed are followed by those of the other tokens. -/
theorem statementsFrom_append {closing : Location} {s s' : Open} {ts : List Token}
    {nodes : List Node} (h : Run s ts nodes s') (us : List Token) :
    statementsFrom closing s (ts ++ us) =
      nodes.foldr Statements.next (statementsFrom closing s' us) := by
  induction h with
  | nil s => rfl
  | @cons s s' t p ts ns hstep _ ih =>
    conv =>
      lhs
      rw [List.cons_append, statementsFrom, hstep.step_eq]
    cases p with
    | reading s₁ => exact ih
    | complete n => exact congrArg (Statements.next n) ih

/-- Statements that are read without an error come from a run. -/
private theorem run_of_statementsFrom {closing location : Location} {s : Open} {ts : List Token}
    {nodes : List Node}
    (h : statementsFrom closing s ts = nodes.foldr Statements.next (.closed location)) :
    Run s ts nodes {} ∧ location = closing := by
  induction ts generalizing s nodes with
  | nil =>
    rw [statementsFrom] at h
    split at h
    · next hinitial =>
      obtain rfl := Reader.eq_of_isInitial hinitial
      cases nodes with
      | nil => exact ⟨.nil _, (Statements.closed.inj h).symm⟩
      | cons n ns => cases h
    · cases nodes <;> cases h
  | cons t ts ih =>
    rw [statementsFrom] at h
    split at h
    · cases nodes <;> cases h
    · next s₁ hstep =>
      obtain ⟨hrun, rfl⟩ := ih h
      exact ⟨.cons (Step.of_step_eq hstep) hrun, rfl⟩
    · next n hstep =>
      cases nodes with
      | nil => cases h
      | cons m ms =>
        obtain ⟨rfl, hrest⟩ := Statements.next.inj h
        obtain ⟨hrun, rfl⟩ := ih hrest
        exact ⟨.cons (Step.of_step_eq hstep) hrun, rfl⟩

/-- **A list of statements without an error is a run that leaves nothing open.** -/
theorem statements_eq_closed_iff {closing location : Location} {ts : List Token}
    {nodes : List Node} :
    statements closing ts = nodes.foldr Statements.next (.closed location) ↔
      Run {} ts nodes {} ∧ location = closing := by
  constructor
  · exact run_of_statementsFrom
  · rintro ⟨hrun, rfl⟩
    rw [statements, ← List.append_nil ts, statementsFrom_append hrun]
    rfl

/-- The two ways to read a source text to its end agree. -/
theorem readsAll_ofSource_iff {path source : String} {nodes : List Node} {r : Reader} :
    (Reader.ofSource path source).ReadsAll nodes r ↔
      sourceStatements path source =
          nodes.foldr Statements.next (.closed ((closing source).location path)) ∧
        r = ⟨path, closing source, [], closing source⟩ := by
  rw [Reader.readsAll_iff, Reader.ofSource_eq, sourceStatements_eq, statements_eq_closed_iff]
  constructor
  · rintro ⟨hrun, hr⟩
    exact ⟨⟨hrun, rfl⟩, hr⟩
  · rintro ⟨⟨hrun, -⟩, hr⟩
    exact ⟨hrun, hr⟩

end Dwo
