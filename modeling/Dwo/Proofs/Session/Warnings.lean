import Dwo.Proofs.Session.Agreement

/-!
# Warnings

A run for JavaScript warns about two things: a token that stands alone as a statement of a function,
and an import of `core:io` behind the first one. `programWarnings` lists these warnings for a
program in source order. A run that fails on a statement adds them for the statements in front of
it, and for a function also those about the tokens in front of the statement of its body that is at
fault (`RejectedAt`). The main result is `warnings_of_run`.

What is at fault is said by the rules of `Dwo.Proofs.Script.Rules`, which do not mention warnings. A
warning is drawn while a statement is looked at, so following the warnings means following the
verdicts: `emitBody_cases` for a body, `emit_cases` for a statement, `feed_cases` for a program.

* `danglingAtoms`: the warnings about the statements of a function that are single tokens;
* `repeatedImport`: the warning about an import behind the first one;
* `RejectedAt`: the first offence of a statement, with the warnings about the statement up to
  there.

The warnings of an earlier run of the session stay in front of the new ones, so the result is
about what a run adds. A failure to read on adds nothing: all statements in front of it have
drawn their warnings by then.
-/

namespace Dwo

/-! ### What is warned about -/

/-- The warning about a token that stands alone in a function. -/
def danglingAtom (t : Token) : Diagnostic where
  severity := .warning
  location := t.location
  message := "dangling atom " ++ t.kind.name ++ " with no operation or usage found"
  notes := []

/-- The warning about an import of `core:io` that is not the first. -/
def repeatedImport (l : Location) : Diagnostic where
  severity := .warning
  location := l
  message := "`core:io` is already imported"
  notes := []

namespace Node

/-- The token that a statement consists of, if it is no more than a token. -/
def atom? : Node → Option Token
  | token t => some t
  | _ => none

end Node

/-- The warnings about the statements of a function. -/
def danglingAtoms (items : List Node) : List Diagnostic :=
  (items.filterMap Node.atom?).map danglingAtom

namespace Node

/-- The warnings about a top-level statement behind the statements `before`, if nothing is wrong
with it. -/
def warnings (before : List Node) : Node → List Diagnostic
  | fnDecl _ _ body _ => danglingAtoms body
  | importDecl path _ _ l =>
    if path = coreIo.name ∧ before.any isIoImport then [repeatedImport l] else []
  | _ => []

end Node

/-- The warnings about the statements of a program, from some statement on, in source order. -/
def programWarnings (before : List Node) : List Node → List Diagnostic
  | [] => []
  | node :: nodes => node.warnings before ++ programWarnings (before ++ [node]) nodes

/-- The first offence of a top-level statement behind the statements `before`, and the warnings
about the statement up to there. -/
inductive RejectedAt (before : List Node) : Node → Offence → List Diagnostic → Prop where
  /-- A function that has the name of another one. Its body is not looked at. -/
  | name {name : String} {params body : List Node} {l : Location} :
      before.any (·.defines name) = true →
        RejectedAt before (.fnDecl name params body l) ⟨.functionRedeclaration name, l⟩ []
  /-- A function with a statement at fault, behind those in `front`. -/
  | item {name : String} {params front rest : List Node} {item : Node} {l : Location}
      {o : Offence} :
      before.any (·.defines name) = false → Node.bodyOffences before [] front = [] →
        (item.itemOffences before front).head? = some o →
          RejectedAt before (.fnDecl name params (front ++ item :: rest) l) o (danglingAtoms front)
  /-- A variable. -/
  | varDecl {name : String} {isMutable : Bool} {initializer : List Node} {l : Location}
      {o : Offence} :
      ((Node.varDecl name isMutable initializer l).offences before).head? = some o →
        RejectedAt before (.varDecl name isMutable initializer l) o []
  /-- An import. -/
  | importDecl {path : String} {newName : Option String} {isLocal : Bool} {l : Location}
      {o : Offence} :
      ((Node.importDecl path newName isLocal l).offences before).head? = some o →
        RejectedAt before (.importDecl path newName isLocal l) o []

/-! ### Bodies -/

/-- The warnings about two rows of items are those about the first and then those about the
second. -/
@[simp]
theorem danglingAtoms_append (xs ys : List Node) :
    danglingAtoms (xs ++ ys) = danglingAtoms xs ++ danglingAtoms ys := by
  rw [danglingAtoms, List.filterMap_append, List.map_append]
  rfl

/-- A last step without warnings. -/
theorem Emission.warnings_bind_pure {α β : Type} (e : Emission α) (f : α → β) :
    (e >>= fun a => (pure (f a) : Emission β)).warnings = e.warnings := by
  rw [warnings_bind]
  split <;> exact List.append_nil e.warnings

/-- Only a token draws a warning. -/
theorem warnings_emitBodyItem {outer inner : Table Variable} {item : Node} (h : item.IsBodyItem) :
    (emitBodyItem outer inner item).warnings = danglingAtoms [item] := by
  cases h with
  | token t => rfl
  | varDecl | assignment | fnCall => exact Emission.warnings_bind_pure _ _
  | fnDecl => rfl

/-- A token breaks no rule. -/
theorem danglingAtoms_of_offence {before earlier : List Node} {item : Node} {o : Offence}
    (h : (item.itemOffences before earlier).head? = some o) : danglingAtoms [item] = [] := by
  cases item with
  | token t => cases h
  | _ => rfl

/-- An error that reports an offence. -/
def EmitError.Reports (e : EmitError) (o : Offence) : Prop :=
  e.cause = o.cause ∧ e.location = o.location

/-- A verdict is an error on the first offence. -/
theorem Judges.exists_reports {α : Type} {e : EmitError} {os : List Offence} {Q : α → Prop}
    (h : Judges (.error e) os Q) : ∃ o, os.head? = some o ∧ EmitError.Reports e o := by
  obtain ⟨o, rest, rfl, he⟩ := Judges.error_iff.mp h
  exact ⟨o, rfl, he⟩

section Body

variable {outer inner : Table Variable} {item : Node} {r : String × Table Variable}

/-- The text of a body is that of its first item and then that of the others. -/
private theorem result_emitBody_cons (h : (emitBodyItem outer inner item).result = .ok r)
    (items : List Node) :
    (emitBody outer inner (item :: items)).result =
      (emitBody outer r.2 items).result.map (r.1 ++ ·) := by
  rw [emitBody, Emission.result_bind, h]
  exact Emission.result_bind _ _

private theorem warnings_emitBody_cons (h : (emitBodyItem outer inner item).result = .ok r)
    (hitem : item.IsBodyItem) (items : List Node) :
    (emitBody outer inner (item :: items)).warnings =
      danglingAtoms [item] ++ (emitBody outer r.2 items).warnings := by
  rw [emitBody, Emission.warnings_bind, h, warnings_emitBodyItem hitem]
  exact congrArg _ (Emission.warnings_bind_pure _ _)

end Body

/-- **A body draws the warnings about its tokens**, up to the first statement at fault. -/
theorem emitBody_cases {outer inner : Table Variable} {before earlier items : List Node}
    (houter : outer.Tracks before) (hinner : inner.Tracks earlier)
    (h : ∀ item ∈ items, item.IsBodyItem) :
    (∃ text, (emitBody outer inner items).result = .ok text ∧
        (emitBody outer inner items).warnings = danglingAtoms items) ∨
      ∃ front item rest o e, items = front ++ item :: rest ∧
        Node.bodyOffences before earlier front = [] ∧
        (item.itemOffences before (earlier ++ front)).head? = some o ∧
        (emitBody outer inner items).result = .error e ∧ e.Reports o ∧
        (emitBody outer inner items).warnings = danglingAtoms front := by
  induction items generalizing inner earlier with
  | nil => exact .inl ⟨"", rfl, rfl⟩
  | cons item items ih =>
    have hitem : item.IsBodyItem := h item List.mem_cons_self
    have hjudges := judges_emitBodyItem houter hinner hitem
    cases hresult : (emitBodyItem outer inner item).result with
    | error e =>
      rw [hresult] at hjudges
      obtain ⟨o, ho, he⟩ := hjudges.exists_reports
      refine .inr ⟨[], item, items, o, e, rfl, rfl, ?_, ?_, he, ?_⟩
      · rw [List.append_nil]
        exact ho
      · rw [emitBody, Emission.result_bind, hresult]
        rfl
      -- A statement at fault is not a token, so there is no warning about itself.
      · rw [emitBody, Emission.warnings_bind, hresult, warnings_emitBodyItem hitem,
          danglingAtoms_of_offence ho]
        rfl
    | ok r =>
      rw [hresult] at hjudges
      obtain ⟨hnone, htracks⟩ := Judges.ok_iff.mp hjudges
      have hcons (xs : List Node) : danglingAtoms [item] ++ danglingAtoms xs =
          danglingAtoms (item :: xs) := (danglingAtoms_append [item] xs).symm
      rw [result_emitBody_cons hresult, warnings_emitBody_cons hresult hitem]
      rcases ih htracks fun i hi => h i (List.mem_cons_of_mem item hi) with
        ⟨text, hok, htokens⟩ | ⟨front, wrong, rest, o, e, rfl, hfront, ho, herror, he, htokens⟩
      · rw [hok, htokens]
        exact .inl ⟨r.1 ++ text, rfl, hcons items⟩
      · rw [herror, htokens]
        refine .inr ⟨item :: front, wrong, rest, o, e, rfl, ?_, ?_, rfl, he, hcons front⟩
        · rw [Node.bodyOffences, hnone, hfront]
          rfl
        · rw [List.append_cons]
          exact ho

/-! ### Top-level statements -/

/-- An import draws the warning about it, whether it is accepted or not. -/
theorem warnings_emitImport {c : Context} {before : List Node} (hc : c.Tracks before)
    (path : String) (newName : Option String) (isLocal : Bool) (l : Location) :
    (emitImport c path l).warnings =
      (Node.importDecl path newName isLocal l).warnings before := by
  rw [emitImport, Node.warnings, hc.imported]
  by_cases hpath : path = coreIo.name
  · rw [if_neg (not_not_intro hpath)]
    by_cases himported : before.any Node.isIoImport = true
    · rw [if_pos himported, if_pos ⟨hpath, himported⟩]
      rfl
    · rw [if_neg himported, if_neg fun hand => himported hand.2]
      split <;> rfl
  · rw [if_pos hpath, if_neg fun hand => hpath hand.1]
    rfl

/-- An import that is repeated breaks no rule. -/
theorem Node.warnings_importDecl_of_offence {before : List Node} {path : String}
    {newName : Option String} {isLocal : Bool} {l : Location} {o : Offence}
    (h : ((importDecl path newName isLocal l).offences before).head? = some o) :
    (importDecl path newName isLocal l).warnings before = [] := by
  rw [warnings, if_neg]
  rintro ⟨rfl, himported⟩
  rw [offences, if_neg (not_not_intro rfl), if_pos himported] at h
  cases h

/-- **A top-level statement draws its warnings**, up to its first offence. -/
theorem emit_cases {c : Context} {before : List Node} {node : Node} (hc : c.Tracks before)
    (h : node.IsTopLevel) :
    (∃ r, (emit c node).result = .ok r ∧ (emit c node).warnings = node.warnings before) ∨
      ∃ o e, (emit c node).result = .error e ∧ e.Reports o ∧
        RejectedAt before node o (emit c node).warnings := by
  have hjudges := judges_emit hc h
  cases h with
  | @importDecl path l =>
    have hwarnings := warnings_emitImport hc path none false l
    cases hresult : (emit c (.importDecl path none false l)).result with
    | ok r => exact .inl ⟨r, rfl, hwarnings⟩
    | error e =>
      rw [hresult] at hjudges
      obtain ⟨o, ho, he⟩ := hjudges.exists_reports
      refine .inr ⟨o, e, rfl, he, ?_⟩
      rw [emit, hwarnings, Node.warnings_importDecl_of_offence ho]
      exact .importDecl ho
  | @varDecl name isMutable initializer l hvalue =>
    have hwarnings : (emit c (.varDecl name isMutable initializer l)).warnings = [] :=
      Emission.warnings_bind_pure _ _
    cases hresult : (emit c (.varDecl name isMutable initializer l)).result with
    | ok r => exact .inl ⟨r, rfl, hwarnings⟩
    | error e =>
      rw [hresult] at hjudges
      obtain ⟨o, ho, he⟩ := hjudges.exists_reports
      refine .inr ⟨o, e, rfl, he, ?_⟩
      rw [hwarnings]
      exact .varDecl ho
  | @fnDecl name body l hbody =>
    have hname := hc.functions name
    cases hfind : c.functions.find? name with
    | some taken =>
      rw [hfind] at hname
      simp only [emit, emitFn, hfind]
      exact .inr ⟨_, _, rfl, ⟨rfl, rfl⟩, .name hname.symm⟩
    | none =>
      rw [hfind] at hname
      have hempty : ({} : Table Variable).Tracks [] := fun _ => rfl
      simp only [emit, emitFn, hfind, Emission.result_bind, Emission.warnings_bind_pure]
      -- The body starts with no variables of its own.
      rcases emitBody_cases hc.declared hempty hbody with
        ⟨text, hok, hwarnings⟩ | ⟨front, item, rest, o, e, rfl, hfront, ho, herror, he, hwarnings⟩
      · rw [hok, hwarnings]
        exact .inl ⟨_, rfl, rfl⟩
      · rw [herror, hwarnings]
        exact .inr ⟨o, e, rfl, he, .item hname.symm hfront ho⟩

/-! ### Programs -/

/-- **A program draws the warnings about its statements**, up to the first offence. -/
theorem Script.feed_cases {s : Script} {before nodes : List Node} (hs : s.context.Tracks before)
    (h : ∀ node ∈ nodes, node.IsTopLevel) :
    ((s.feed nodes).2 = none ∧ programOffences before nodes = [] ∧
        (s.feed nodes).1.warnings = s.warnings ++ programWarnings before nodes) ∨
      ∃ accepted node later o ds e, nodes = accepted ++ node :: later ∧
        programOffences before accepted = [] ∧ RejectedAt (before ++ accepted) node o ds ∧
        (s.feed nodes).2 = some e ∧ e.Reports o ∧
        (s.feed nodes).1.warnings = s.warnings ++ (programWarnings before accepted ++ ds) := by
  induction nodes generalizing s before with
  | nil => exact .inl ⟨rfl, rfl, (List.append_nil s.warnings).symm⟩
  | cons node nodes ih =>
    -- An accepted statement joins those in front, with its warnings; a rejected one is the last.
    have hnode : node.IsTopLevel := h node List.mem_cons_self
    have hwarnings := s.warnings_add node
    rcases emit_cases hs hnode with ⟨⟨text, c⟩, hok, hdrawn⟩ | ⟨o, e, herror, he, hrejected⟩
    · have hjudges := judges_emit hs hnode
      rw [hok] at hjudges
      obtain ⟨hnone, htracks⟩ := Judges.ok_iff.mp hjudges
      obtain ⟨hadd, hcontext, -⟩ := add_of_ok hok
      have hpair : s.add node = ((s.add node).1, none) := Prod.ext rfl hadd
      have hfeed : s.feed (node :: nodes) = (s.add node).1.feed nodes := by rw [feed, hpair]
      have hcons (ds : List Diagnostic) : (s.add node).1.warnings ++ ds =
          s.warnings ++ (node.warnings before ++ ds) := by
        rw [hwarnings, hdrawn, List.append_assoc]
      rw [← hcontext] at htracks
      rw [hfeed, programOffences, hnone, List.nil_append, programWarnings, ← hcons]
      rcases ih htracks fun n hn => h n (List.mem_cons_of_mem node hn) with
        hall | ⟨accepted, wrong, later, o, ds, e, rfl, hfront, hrejected, herror, he, hds⟩
      · exact .inl hall
      · refine .inr ⟨node :: accepted, wrong, later, o, ds, e, rfl, ?_, ?_, herror, he, ?_⟩
        · rw [programOffences, hnone]
          exact hfront
        · rw [List.append_cons]
          exact hrejected
        · rw [hds, hcons, programWarnings, List.append_assoc]
    · obtain ⟨hadd, -⟩ := add_of_error herror
      have hpair : s.add node = ((s.add node).1, some e) := Prod.ext rfl hadd
      have hfeed : s.feed (node :: nodes) = ((s.add node).1, some e) := by rw [feed, hpair]
      rw [hfeed]
      refine .inr ⟨[], node, nodes, o, _, e, rfl, rfl, ?_, rfl, he, hwarnings⟩
      rw [List.append_nil]
      exact hrejected

/-- **The warnings of a run are the tokens that stand alone and the repeated imports.** If nothing
is wrong with the statements that can be read, a run for JavaScript adds the warnings about all of
them, in source order. Otherwise it fails with the first offence and adds the warnings about the
statements in front of the one at fault, then those about the tokens in front of the offence, and no
more. All warnings are without notes. -/
theorem warnings_of_run (s : Session) {nodes : List Node} {stop : Option ParseError}
    (h : (Reader.ofSource s.path s.source).Parses nodes stop) :
    ∃ added, (s.run .javaScript).1.warnings = s.warnings ++ added ∧
      (∀ d ∈ added, d.severity = .warning ∧ d.notes = []) ∧
      ((programOffences [] nodes = [] ∧ added = programWarnings [] nodes ∧
          ∀ e, (s.run .javaScript).2 ≠ .error (.emit e)) ∨
        ∃ accepted node later o ds e, nodes = accepted ++ node :: later ∧
          programOffences [] accepted = [] ∧ RejectedAt accepted node o ds ∧
          added = programWarnings [] accepted ++ ds ∧
          (s.run .javaScript).2 = .error (.emit e) ∧ e.cause = o.cause ∧
          e.location = o.location) := by
  have hform : ∀ node ∈ nodes, node.IsTopLevel := fun node hnode =>
    (h.isReturned (Reader.pending_ofSource_suffix s.path s.source) node hnode).isTopLevel
  have hexpected := isExpected_of_mem_feed (s := {}) (fun d hd => by cases hd) hform
  have hcases := Script.feed_cases (s := {}) Context.Tracks.initial hform
  obtain ⟨rfl, rfl⟩ := Reader.parses_iff.mp h
  rw [Reader.remaining_ofSource] at hexpected hcases ⊢
  rw [Session.run_javaScript]
  generalize ({} : Script).feed (sourceStatements s.path s.source).nodes = fed
    at hexpected hcases ⊢
  obtain ⟨script, rejected⟩ := fed
  refine ⟨script.warnings, rfl, fun d hd => ?_, ?_⟩
  · obtain ⟨l, w, -, rfl⟩ := hexpected d hd
    exact ⟨rfl, rfl⟩
  rcases hcases with ⟨hnone, hrules, hwarnings⟩ |
    ⟨accepted, node, later, o, ds, e, hsplit, hrules, hrejected, hsome, he, hwarnings⟩
  · refine .inl ⟨hrules, hwarnings, fun e herror => ?_⟩
    obtain rfl : rejected = none := hnone
    generalize (sourceStatements s.path s.source).error? = stop at herror
    cases stop <;> cases herror
  · obtain rfl : rejected = some e := hsome
    exact .inr ⟨accepted, node, later, o, ds, e, hsplit, hrules, hrejected, hwarnings, rfl, he⟩

/-- An import that is repeated, and a function in a function, which hides the second token. -/
theorem warnings_of_run_nested :
    let source := "use core:io; use core:io; fn f() \x7b 1; fn g() \x7b \x7d 2; \x7d"
    let s : Session := { path := "m", source := source }
    ∃ nodes added, (Reader.ofSource "m" source).Parses nodes none ∧
      (s.run .javaScript).1.warnings = added ∧
      added = [repeatedImport ⟨"m", 1, 13⟩, danglingAtom ⟨.integer, "1", 1, ⟨"m", 1, 35⟩⟩] ∧
      (∀ d ∈ added, d.severity = .warning ∧ d.notes = []) ∧
      ∃ accepted node later o ds e, nodes = accepted ++ node :: later ∧
        programOffences [] accepted = [] ∧ RejectedAt accepted node o ds ∧
        added = programWarnings [] accepted ++ ds ∧
        (s.run .javaScript).2 = .error (.emit e) ∧ e.cause = o.cause ∧
        e.location = o.location := by
  intro source s
  let one : Token := ⟨.integer, "1", 1, ⟨"m", 1, 35⟩⟩
  let two : Token := ⟨.integer, "2", 2, ⟨"m", 1, 49⟩⟩
  let nodes : List Node :=
    [.importDecl "core:io" none false ⟨"m", 1, 0⟩,
      .importDecl "core:io" none false ⟨"m", 1, 13⟩,
      .fnDecl "f" [] [.token one, .fnDecl "g" [] [] ⟨"m", 1, 41⟩, .token two] ⟨"m", 1, 29⟩]
  have hread : sourceStatements "m" source =
      nodes.foldr Statements.next (.closed ((closing source).location "m")) := by
    rw [sourceStatements_eq]
    cbv
  have hrun : (s.run .javaScript).1.warnings =
      [repeatedImport ⟨"m", 1, 13⟩, danglingAtom one] := by
    rw [Session.run_javaScript_eq, hread]
    rfl
  have hparses : (Reader.ofSource "m" source).Parses nodes none := by
    refine Reader.parses_iff.mpr ?_
    rw [Reader.remaining_ofSource, hread]
    exact ⟨rfl, rfl⟩
  obtain ⟨added, hadded, hplain, hcases⟩ := warnings_of_run s hparses
  refine ⟨nodes, added, hparses, hadded, ?_, hplain, ?_⟩
  · exact hadded.symm.trans hrun
  · exact hcases.resolve_left fun hall => absurd hall.1 (by decide)

end Dwo
