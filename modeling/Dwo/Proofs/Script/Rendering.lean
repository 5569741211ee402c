import Dwo.Proofs.Session.Streaming

/-!
# The text of a script

The text that a statement adds to a script is `Node.render` of the statement. The names that are
taken decide whether a statement is accepted, and never what is written for it; of everything in
front of a statement only one thing shows in the text, namely whether `coreIo` has been imported
before. The main result, `output_eq_renderings`, says so for every script that can be built and
derives what a whole program is compiled to.

`Yields` composes what the steps write, whenever they succeed.

* `Node.render`: the text of a statement at the top level, and `Node.renderItem` that of a
  statement of a function;
* `Node.isSilent`: the statements that add nothing, which are the imports behind the first one;
* `Node.contribution` and `renderings`: what a statement, and a list of them, add to the text of
  a script;
* `Script.Built`: the scripts that come from an empty one by adding statements that are
  accepted.

`Node.render` is a function of the statement alone. The step lemma is `yields_emit`, the run
lemma `Built.output_add`, and `compile_eq_renderings` puts prologue and epilogue around what a
program has added.
-/

namespace Dwo

/-! ### Renderings -/

namespace Node

/-- A part of an expression: an operand, or a sign between spaces. -/
def renderPart : Node → String
  | token t => if t.isOperand then t.operandText else " " ++ t.text ++ " "
  | _ => ""

/-- An expression: its parts, one behind the other. -/
def renderExpr (items : List Node) : String :=
  String.join (items.map renderPart)

/-- An argument of a call. -/
def renderArg : Node → String
  | expr items _ => renderExpr items
  | token t => t.operandText
  | _ => ""

def renderCall (name : String) (args : List Node) : String :=
  name ++ "(" ++ ", ".intercalate (args.map renderArg) ++ ");"

def renderVar (name : String) (isMutable : Bool) (initializer : List Node) : String :=
  (if isMutable then "let " else "const ") ++ name ++
    (if initializer.isEmpty then "" else " = " ++ renderExpr initializer) ++ ";"

def renderAssign (name : String) (items : List Node) : String :=
  name ++ " = " ++ renderExpr items ++ ";"

/-- A statement of a function, on a line of its own. -/
def renderItem : Node → String
  | token t => if t.isOperand then bodyLine (t.operandText ++ ";") else ""
  | expr items _ => bodyLine (renderExpr items ++ ";")
  | varDecl name isMutable initializer _ => bodyLine (renderVar name isMutable initializer)
  | assignment name items _ => bodyLine (renderAssign name items)
  | fnCall name args _ => bodyLine (renderCall name args)
  | _ => ""

/-- A top-level statement. -/
def render : Node → String
  | importDecl .. => coreIo.text
  | expr items _ => renderExpr items ++ ";"
  | varDecl name isMutable initializer _ => renderVar name isMutable initializer
  | assignment name items _ => renderAssign name items
  | fnDecl name _ body _ =>
    "function " ++ name ++ "() \x7b\n" ++ String.join (body.map renderItem) ++ "\x7d"
  | fnCall name args _ => renderCall name args
  | _ => ""

/-- Whether nothing is written for a statement that is accepted: it is the end of the text, a
token, a reserved operation, or an import of what has been imported. -/
def isSilent (imported : Bool) : Node → Bool
  | endOfFile _ | token _ | unaryOp _ | binaryOp _ => true
  | importDecl path _ _ _ => path = coreIo.name && imported
  | _ => false

/-- Whether a statement declares the function that a program starts with. -/
def isMain : Node → Bool
  | fnDecl name _ _ _ => name = "main"
  | _ => false

/-- What a statement adds to a script behind the statements `before`. -/
def contribution (before : List Node) (node : Node) : String :=
  if node.isSilent (before.any isIoImport) then "" else node.render ++ "\n"

end Node

/-- What statements add to a script behind the statements `before`. -/
def renderings (before : List Node) : List Node → String
  | [] => ""
  | node :: nodes => node.contribution before ++ renderings (before ++ [node]) nodes

/-- The end of a program with these statements. -/
def ending (nodes : List Node) : String :=
  if nodes.any Node.isMain then Script.epilogue (nodes.any Node.isIoImport) else ""

/-! ### What a result yields -/

/-- A result has a value in `Q`, if it has a value. -/
def Yields {α : Type} (result : Except EmitError α) (Q : α → Prop) : Prop :=
  ∀ a, result = .ok a → Q a

namespace Yields

variable {α β : Type} {P : α → Prop} {Q : β → Prop}

theorem ok {a : α} (h : P a) : Yields (.ok a) P := by
  intro b hb
  rw [← Except.ok.inj hb]
  exact h

theorem error {e : EmitError} : Yields (.error e) P := by
  intro a ha
  cases ha

/-- If the first part yields what the second expects, the sequence yields what the second
does. -/
theorem bind {x : Except EmitError α} {f : α → Except EmitError β} (hx : Yields x P)
    (hf : ∀ a, P a → Yields (f a) Q) : Yields (x >>= f) Q := by
  intro b hb
  cases x with
  | ok a => exact hf a (hx a rfl) b hb
  | error e => cases hb

theorem map {x : Except EmitError α} {f : α → β} (hx : Yields x P) (hf : ∀ a, P a → Q (f a)) :
    Yields (x >>= fun a => .ok (f a)) Q :=
  hx.bind fun a ha => ok (hf a ha)

end Yields

/-! ### Expressions, calls and variables -/

private theorem yields_exprItem (start : Location) (item : Node) :
    Yields (exprItem start item) (· = item.renderPart) := by
  cases item with
  | token t =>
    simp only [exprItem, Node.renderPart]
    by_cases hoperand : t.isOperand = true
    · rw [if_pos hoperand, if_pos hoperand]
      exact .ok rfl
    · rw [if_neg hoperand, if_neg hoperand]
      split
      · exact .ok rfl
      · exact .error
  | _ => exact .error

private theorem yields_exprItems (start : Location) (items : List Node) :
    Yields (exprItems start items) (· = Node.renderExpr items) := by
  induction items with
  | nil => exact .ok rfl
  | cons item items ih =>
    have hjoin : Node.renderExpr (item :: items) = item.renderPart ++ Node.renderExpr items := by
      rw [Node.renderExpr, List.map_cons, String.join_cons]
      rfl
    rw [exprItems, hjoin]
    refine (yields_exprItem start item).bind fun head hhead => ih.map fun tail htail => ?_
    rw [hhead, htail]

/-- The text of an expression is its rendering. -/
theorem yields_exprText (items : List Node) :
    Yields (exprText items) (· = Node.renderExpr items) := by
  cases items with
  | nil => exact .ok rfl
  | cons first rest =>
    rw [exprText_cons]
    exact yields_exprItems first.location (first :: rest)

private theorem yields_argText (call : Location) (arg : Node) :
    Yields (argText call arg) (· = arg.renderArg) := by
  cases arg with
  | expr items => exact yields_exprText items
  | token t =>
    rw [argText]
    split
    · exact .ok rfl
    · exact .error
  | _ => exact .error

private theorem yields_argsText (call : Location) (args : List Node) :
    Yields (argsText call args) (· = ", ".intercalate (args.map Node.renderArg)) := by
  induction args with
  | nil => exact .ok rfl
  | cons arg args ih =>
    cases args with
    | nil => exact yields_argText call arg
    | cons next args =>
      rw [argsText, List.map_cons, List.map_cons, String.intercalate_cons_cons]
      · refine (yields_argText call arg).bind fun head hhead => ih.map fun tail htail => ?_
        rw [hhead, htail, List.map_cons]
      · exact List.cons_ne_nil next args

/-- The text of a call is its rendering. -/
theorem yields_callText (name : String) (args : List Node) (l : Location) :
    Yields (callText name args l) (· = Node.renderCall name args) := by
  refine (yields_argsText l args).map fun text htext => ?_
  rw [htext, Node.renderCall]

/-- The text of an initializer is empty, or an equals sign and the rendering of its
expression. -/
theorem yields_initializerText (initializer : List Node) :
    Yields (initializerText initializer)
      (· = if initializer.isEmpty then "" else " = " ++ Node.renderExpr initializer) := by
  rw [initializerText]
  by_cases hempty : initializer.isEmpty = true
  · rw [if_pos hempty, if_pos hempty]
    exact .ok rfl
  · rw [if_neg hempty, if_neg hempty]
    refine (yields_exprText initializer).map fun text htext => ?_
    rw [htext]

private theorem yields_declareText (t : Table Variable) (name : String) (isMutable : Bool)
    (initializer : List Node) (l : Location) :
    Yields (declareText t name isMutable initializer l)
      fun r => r.1 = Node.renderVar name isMutable initializer := by
  rw [declareText]
  cases t.find? name with
  | some taken => exact .error
  | none =>
    by_cases hconstant : (!isMutable && initializer.isEmpty) = true
    · simp only [if_pos hconstant]
      exact .error
    · simp only [if_neg hconstant]
      refine (yields_initializerText initializer).map fun value hvalue => ?_
      rw [hvalue, Node.renderVar]

/-- The text of an assignment is its rendering. -/
theorem yields_assignText (scope : Scope) (name : String) (items : List Node) (l : Location) :
    Yields (assignText scope name items l) (· = Node.renderAssign name items) := by
  rw [assignText]
  cases (scope.lookup? name).filter (·.immutable) with
  | some constant => exact .error
  | none =>
    refine (yields_exprText items).map fun value hvalue => ?_
    rw [hvalue, Node.renderAssign]

/-! ### Functions -/

/-- Whatever is known about names, a statement of a function is written in one way. -/
theorem yields_emitBodyItem (outer inner : Table Variable) (item : Node) :
    Yields (emitBodyItem outer inner item).result fun r => r.1 = item.renderItem := by
  cases item with
  | token t => exact .ok rfl
  | expr items l =>
    rw [emitBodyItem, Emission.result_bind]
    refine (Yields.ok (P := fun _ => True) True.intro).bind fun _ _ => ?_
    rw [Emission.result_bind, Emission.result_lift]
    refine (yields_exprText items).map fun text htext => ?_
    rw [htext, Node.renderItem]
  | varDecl name isMutable initializer l =>
    rw [emitBodyItem, Emission.result_bind, Emission.result_lift]
    refine (yields_declareText inner name isMutable initializer l).map fun r hr => ?_
    rw [hr, Node.renderItem]
  | assignment name items l =>
    rw [emitBodyItem, Emission.result_bind, Emission.result_lift]
    refine (yields_assignText ⟨some inner, outer⟩ name items l).map fun text htext => ?_
    rw [htext, Node.renderItem]
  | fnCall name args l =>
    rw [emitBodyItem, Emission.result_bind, Emission.result_lift]
    refine (yields_callText name args l).map fun text htext => ?_
    rw [htext, Node.renderItem]
  | _ => exact .error

/-- The text of a body is the rendering of its items, one after the other. -/
theorem yields_emitBody (outer inner : Table Variable) (items : List Node) :
    Yields (emitBody outer inner items).result (· = String.join (items.map Node.renderItem)) := by
  induction items generalizing inner with
  | nil => exact .ok rfl
  | cons item items ih =>
    rw [emitBody, Emission.result_bind, List.map_cons, String.join_cons]
    refine (yields_emitBodyItem outer inner item).bind fun r hr => ?_
    rw [Emission.result_bind]
    refine (ih r.2).map fun tail htail => ?_
    rw [hr, htail]

/-! ### Top-level statements -/

/-- What is written for an accepted statement, and the two facts about it that show in the text
later. -/
structure Emitted (c : Context) (node : Node) (r : Option String × Context) : Prop where
  text : r.1 = if node.isSilent (c.hasImported coreIo.name) then none else some node.render
  imported : r.2.hasImported coreIo.name = (c.hasImported coreIo.name || node.isIoImport)
  hasMain : r.2.hasMain = (c.hasMain || node.isMain)

/-- A statement that leaves the context alone, but for its names. -/
private theorem emitted_of_eq {c c' : Context} {node : Node} {text : Option String}
    (htext : text = if node.isSilent (c.hasImported coreIo.name) then none else some node.render)
    (hlibraries : c'.libraries = c.libraries) (hmain : c'.hasMain = c.hasMain)
    (hio : node.isIoImport = false) (hisMain : node.isMain = false) :
    Emitted c node (text, c') := by
  refine ⟨htext, ?_, ?_⟩
  · rw [hio, Bool.or_false, Context.hasImported, Context.hasImported, hlibraries]
  · rw [hisMain, Bool.or_false, hmain]

private theorem yields_emitImport (c : Context) (path : String) (newName : Option String)
    (isLocal : Bool)
    (l : Location) :
    Yields (emitImport c path l).result (Emitted c (.importDecl path newName isLocal l)) := by
  rw [emitImport]
  by_cases hpath : path = coreIo.name
  · rw [if_neg (not_not_intro hpath)]
    by_cases himported : c.hasImported coreIo.name = true
    · rw [if_pos himported]
      refine .ok ⟨?_, ?_, ?_⟩
      · simp [Node.isSilent, hpath, himported]
      · rw [himported, Bool.true_or]
      · exact (Bool.or_false _).symm
    · rw [if_neg himported]
      cases c.clash? coreIo with
      | some clash => exact .error
      | none =>
        refine .ok ⟨?_, ?_, ?_⟩
        · simp [Node.isSilent, Node.render, himported]
        · simp [Context.hasImported, Context.withLibrary, Node.isIoImport, hpath]
        · exact (Bool.or_false _).symm
  · rw [if_pos hpath]
    exact .error

/-- A function that is accepted is emitted as its rendering. -/
private theorem yields_emitFn (c : Context) (name : String) (params body : List Node)
    (l : Location) :
    Yields (emitFn c name params body l).result (Emitted c (.fnDecl name params body l)) := by
  cases hfind : c.functions.find? name with
  | some taken =>
    simp only [emitFn, hfind]
    exact .error
  | none =>
    cases params with
    | cons param params =>
      simp only [emitFn, hfind]
      exact .error
    | nil =>
      simp only [emitFn, hfind, Emission.result_bind]
      -- The body is looked at with no variables of its own, whatever is known outside.
      refine (yields_emitBody c.variables {} body).map fun text htext => ?_
      refine ⟨?_, ?_, rfl⟩
      · rw [htext]
        rfl
      · exact (Bool.or_false _).symm

/-- **The text of a statement does not depend on the names that are taken.** -/
theorem yields_emit (c : Context) (node : Node) :
    Yields (emit c node).result (Emitted c node) := by
  cases node with
  | endOfFile | token | unaryOp | binaryOp => exact .ok (emitted_of_eq rfl rfl rfl rfl rfl)
  | fnParams => exact .error
  | importDecl path newName isLocal l => exact yields_emitImport c path newName isLocal l
  | fnDecl name params body l => exact yields_emitFn c name params body l
  | expr items l =>
    rw [emit, Emission.result_bind]
    refine (Yields.ok (P := fun _ => True) True.intro).bind fun _ _ => ?_
    rw [Emission.result_bind, Emission.result_lift]
    refine (yields_exprText items).map fun text htext => ?_
    exact emitted_of_eq (by rw [htext]; rfl) rfl rfl rfl rfl
  | varDecl name isMutable initializer l =>
    rw [emit, Emission.result_bind, Emission.result_lift]
    refine (yields_declareText c.variables name isMutable initializer l).map fun r hr => ?_
    exact emitted_of_eq (by rw [hr]; rfl) rfl rfl rfl rfl
  | assignment name items l =>
    rw [emit, Emission.result_bind, Emission.result_lift]
    refine (yields_assignText ⟨none, c.variables⟩ name items l).map fun text htext => ?_
    exact emitted_of_eq (by rw [htext]; rfl) rfl rfl rfl rfl
  | fnCall name args l =>
    rw [emit, Emission.result_bind, Emission.result_lift]
    refine (yields_callText name args l).map fun text htext => ?_
    exact emitted_of_eq (by rw [htext]; rfl) rfl rfl rfl rfl

/-! ### Whole scripts -/

namespace Script

/-- The scripts that can be built, with the statements that they have accepted: statements of any
form are added, some of them are rejected, and warnings are taken out in between. -/
inductive Built : List Node → Script → Prop where
  | start : Built [] {}
  | accepted {before : List Node} {s s' : Script} {node : Node} :
      Built before s → s.add node = (s', none) → Built (before ++ [node]) s'
  | rejected {before : List Node} {s s' : Script} {node : Node} {e : EmitError} :
      Built before s → s.add node = (s', some e) → Built before s'
  | drained {before : List Node} {s : Script} : Built before s → Built before s.takeWarnings.2

variable {before : List Node} {s s' : Script} {node : Node}

/-- An accepted statement has been emitted. -/
theorem exists_emitted (h : s.add node = (s', none)) :
    ∃ text, Emitted s.context node (text, s'.context) ∧
      s'.output = s.output ++ text.elim "" (· ++ "\n") := by
  obtain ⟨text, hresult, houtput⟩ := of_add_eq_none h
  exact ⟨text, yields_emit s.context node _ hresult, houtput⟩

/-- A script knows whether it has imported `coreIo` and whether it has a function `main`. -/
theorem Built.context_eq (h : Built before s) :
    s.context.hasImported coreIo.name = before.any Node.isIoImport ∧
      s.context.hasMain = before.any Node.isMain := by
  induction h with
  | start => exact ⟨rfl, rfl⟩
  | accepted _ hadd ih =>
    obtain ⟨_, hemitted, -⟩ := exists_emitted hadd
    have himported := hemitted.imported
    have hmain := hemitted.hasMain
    rw [ih.1] at himported
    rw [ih.2] at hmain
    simp only [List.any_append, List.any_cons, List.any_nil, Bool.or_false]
    exact ⟨himported, hmain⟩
  | rejected _ hadd ih =>
    rw [(of_add_eq_some hadd).1]
    exact ih
  | drained _ ih => exact ih

/-- **An accepted statement adds its contribution to the text.** -/
theorem Built.output_add (h : Built before s) (hadd : s.add node = (s', none)) :
    s'.output = s.output ++ node.contribution before := by
  obtain ⟨text, hemitted, houtput⟩ := exists_emitted hadd
  have htext : text = _ := hemitted.text
  rw [h.context_eq.1] at htext
  rw [houtput, htext, Node.contribution]
  by_cases hsilent : node.isSilent (before.any Node.isIoImport) = true
  · rw [if_pos hsilent, if_pos hsilent]
    rfl
  · rw [if_neg hsilent, if_neg hsilent]
    rfl

/-- The epilogue of a script is decided by its statements. -/
theorem Built.finish_eq (h : Built before s) : s.finish = s.output ++ ending before := by
  obtain ⟨himported, hmain⟩ := h.context_eq
  rw [finish, ending, himported, hmain]
  split
  · rfl
  · rw [String.append_empty]

end Script

/-- **A program is compiled to its renderings**, one statement after the other. -/
theorem compile_eq_renderings {statements : Statements} {before : List Node} {script : Script}
    {text : String} (hscript : Script.Built before script)
    (h : (statements.compile script).2 = .ok text) :
    ∃ nodes location, statements = nodes.foldr Statements.next (.closed location) ∧
      text = script.output ++ renderings before nodes ++ ending (before ++ nodes) := by
  induction statements generalizing before script with
  | closed location =>
    have hfinish : script.finish = text := Except.ok.inj h
    refine ⟨[], location, rfl, ?_⟩
    rw [← hfinish, hscript.finish_eq, renderings, List.append_nil, String.append_empty]
  | failed error => cases h
  | next node rest ih =>
    cases hadd : script.add node with
    | mk script' error =>
      cases error with
      | some e =>
        have hsome : (script.add node).2 = some e := by rw [hadd]
        rw [Statements.compile_next_of_some hsome] at h
        cases h
      | none =>
        have hnone : (script.add node).2 = none := by rw [hadd]
        rw [Statements.compile_next_of_none hnone, hadd] at h
        obtain ⟨nodes, location, rfl, htext⟩ := ih (hscript.accepted hadd) h
        refine ⟨node :: nodes, location, rfl, ?_⟩
        rw [htext, hscript.output_add hadd, renderings, ← List.append_cons, String.append_assoc,
          String.append_assoc, String.append_assoc, String.append_assoc]

/-- The epilogue calls `main`, and `flush` behind it exactly if it should. -/
theorem infix_epilogue (flushes : Bool) :
    "main(); ".toList <:+: (Script.epilogue flushes).toList ∧
      ("flush();".toList <:+: (Script.epilogue flushes).toList ↔ flushes = true) ∧
      (flushes = true → "main(); flush();".toList <:+: (Script.epilogue flushes).toList) := by
  cases flushes <;> decide +kernel

/-- **The text of a script is a rendering of its statements.** Whatever has been added before, an
accepted statement adds its own rendering and a newline, or nothing if it is silent. So a source
text is compiled to the prologue, the renderings of its statements in order, and, exactly if one
of them is a function `main`, the epilogue. The epilogue calls `main`, and exactly if `coreIo` has
been imported it calls `flush`, right behind `main`. -/
theorem output_eq_renderings :
    (∀ before s node s', Script.Built before s → s.add node = (s', none) →
      s'.output = s.output ++
        if node.isSilent (before.any Node.isIoImport) then "" else node.render ++ "\n") ∧
    (∀ path source text, compile path source .javaScript = .ok text →
      ∃ nodes r, (Reader.ofSource path source).ReadsAll nodes r ∧
        text = prologue ++ renderings [] nodes ++
          if nodes.any Node.isMain then Script.epilogue (nodes.any Node.isIoImport) else "") ∧
    ∀ flushes, "main(); ".toList <:+: (Script.epilogue flushes).toList ∧
      ("flush();".toList <:+: (Script.epilogue flushes).toList ↔ flushes = true) ∧
      (flushes = true → "main(); flush();".toList <:+: (Script.epilogue flushes).toList) := by
  refine ⟨fun before s node s' hs hadd => hs.output_add hadd, ?_, infix_epilogue⟩
  intro path source text h
  rw [compile_javaScript_eq] at h
  obtain ⟨nodes, location, hstatements, htext⟩ := compile_eq_renderings .start h
  have hclosing := (statements_eq_closed_iff.mp hstatements).2
  rw [hclosing] at hstatements
  exact ⟨nodes, _, readsAll_ofSource_iff.mpr ⟨hstatements, rfl⟩, htext⟩

theorem output_eq_renderings_main :
    (∃ s', Script.Built [] {} ∧
      Script.add {} (.assignment "a" [] ⟨"m", 1, 0⟩) = (s', none) ∧ s'.output = prologue ++
        if (Node.assignment "a" [] ⟨"m", 1, 0⟩).isSilent false then ""
        else (Node.assignment "a" [] ⟨"m", 1, 0⟩).render ++ "\n") ∧
    ∃ text, compile "m" "let a := 1; fn main() \x7b a = 02; \x7d" .javaScript = .ok text ∧
      ∃ nodes r, (Reader.ofSource "m" "let a := 1; fn main() \x7b a = 02; \x7d").ReadsAll
          nodes r ∧
        text = prologue ++ renderings [] nodes ++
          if nodes.any Node.isMain then Script.epilogue (nodes.any Node.isIoImport) else "" := by
  have hadd : Script.add {} (.assignment "a" [] ⟨"m", 1, 0⟩) =
      (⟨prologue ++ "a = ;" ++ "\n", {}, []⟩, none) := by decide
  let declaration : Node := .varDecl "a" true [.token ⟨.integer, "1", 1, ⟨"m", 1, 9⟩⟩] ⟨"m", 1, 4⟩
  let change : Node := .assignment "a" [.token ⟨.integer, "02", 2, ⟨"m", 1, 28⟩⟩] ⟨"m", 1, 24⟩
  let function : Node := .fnDecl "main" [] [change] ⟨"m", 1, 15⟩
  have hread : sourceStatements "m" "let a := 1; fn main() \x7b a = 02; \x7d" =
      .next declaration (.next function (.closed ⟨"m", 1, 33⟩)) := by
    rw [sourceStatements_eq]
    cbv
  have hcompile : compile "m" "let a := 1; fn main() \x7b a = 02; \x7d" .javaScript =
      .ok (prologue ++ "let a = 1;\nfunction main() \x7b\n  a = 2;\n\x7d\n" ++
        Script.epilogue false) := by
    rw [compile, Session.run_javaScript_eq, hread]
    rfl
  exact ⟨⟨_, .start, hadd, output_eq_renderings.1 _ _ _ _ .start hadd⟩,
    _, hcompile, output_eq_renderings.2.1 _ _ _ hcompile⟩

end Dwo
