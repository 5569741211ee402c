import Dwo.Proofs.Script.Writing
import Dwo.Proofs.Statement.WellFormed
import Dwo.Script.Basic

/-!
# Statements as values

What becomes of a statement, as a value of the context in which it stands: the warnings about it,
and its text with the context behind it, or an error (`emit`). Nothing is changed on the way, so
such values can be compared, moved and taken apart. That adding a statement to a script comes to
the same is shown in `Dwo.Proofs.Script.Addition`.

The results of emissions are computed in `Except` alone (`Emission.result_bind`), so what becomes
of a statement can be followed without its warnings.

Expressions of the right form always have a text (`exists_exprText` and its companions): no
statement that has been read is rejected on their account.

* `emitBodyItem` and `emitBody`: the statements of a function, with the variables outside and
  inside of it;
* `emitImport`: an import, which clashes with names that are taken, is repeated, or provides its
  names;
* `emitFn`: a function, whose name must be free among functions;
* `emit`: any statement at the top level.

An emission is a list of warnings with a result, and warnings that were given before an error
stay. What `coreIo` provides is stated once, name by name (`mem_constants_coreIo_iff`,
`mem_functions_coreIo_iff`), and the results that are about its names use these statements.
-/

namespace Dwo

/-! ### Emissions -/

/-- The outcome of looking at a statement or a part of one: warnings, and a value or an error. -/
structure Emission (α : Type) where
  warnings : List Diagnostic := []
  result : Except EmitError α

namespace Emission

/-- An outcome without warnings. -/
def lift {α : Type} (result : Except EmitError α) : Emission α := ⟨[], result⟩

/-- A warning. -/
def warn (location : Location) (warning : Warning) : Emission Unit :=
  ⟨[.warning location warning.message], .ok ()⟩

/-- An error. -/
def fail {α : Type} (cause : EmitCause) (location : Location) (notes : List Note := []) :
    Emission α :=
  ⟨[], .error ⟨cause, location, notes⟩⟩

/-- One step after another. The second sees the value of the first, and is left out if there is
none; warnings stay in order. -/
def andThen {α β : Type} (e : Emission α) (f : α → Emission β) : Emission β :=
  match e.result with
  | .error error => ⟨e.warnings, .error error⟩
  | .ok a =>
    let next := f a
    ⟨e.warnings ++ next.warnings, next.result⟩

instance : Monad Emission where
  pure a := ⟨[], .ok a⟩
  bind := andThen

end Emission

namespace Emission

variable {α β : Type}

/-- The results of two emissions compose whatever they warn of. -/
@[simp]
theorem result_bind (e : Emission α) (f : α → Emission β) :
    (e >>= f).result = e.result >>= fun a => (f a).result := by
  have hbind : e >>= f = e.andThen f := rfl
  rw [hbind, andThen]
  cases e.result with
  | error error => rfl
  | ok a => rfl

/-- Behind a step that has a value. -/
theorem mk_ok_bind (warnings : List Diagnostic) (a : α) (f : α → Emission β) :
    (⟨warnings, .ok a⟩ : Emission α) >>= f = ⟨warnings ++ (f a).warnings, (f a).result⟩ := rfl

@[simp]
theorem result_lift (result : Except EmitError α) : (lift result).result = result := rfl

/-- The second of two steps is heard only if the first has a value. -/
theorem warnings_bind (e : Emission α) (f : α → Emission β) :
    (e >>= f).warnings = e.warnings ++
      match e.result with
      | .ok a => (f a).warnings
      | .error _ => [] := by
  have hbind : e >>= f = e.andThen f := rfl
  rw [hbind, andThen]
  cases e.result with
  | error error => exact (List.append_nil e.warnings).symm
  | ok a => rfl

/-- Each warning of a sequence comes from one of its two parts. -/
theorem of_mem_warnings_bind {e : Emission α} {f : α → Emission β} {d : Diagnostic}
    (h : d ∈ (e >>= f).warnings) : d ∈ e.warnings ∨ ∃ a, d ∈ (f a).warnings := by
  rw [warnings_bind] at h
  rcases List.mem_append.mp h with h | h
  · exact .inl h
  · cases hresult : e.result with
    | error error =>
      rw [hresult] at h
      cases h
    | ok a =>
      rw [hresult] at h
      exact .inr ⟨a, h⟩

end Emission

/-! ### Statements of a function -/

/-- A line of a function body. -/
def bodyLine (text : String) : String :=
  "  " ++ text ++ "\n"

/-- A statement of a function, and the variables of the function behind it. `outer` are the
variables outside. -/
def emitBodyItem (outer inner : Table Variable) :
    Node → Emission (String × Table Variable)
  | .token t => do
    Emission.warn t.location (.danglingStatement t.kind)
    return (if t.isOperand then bodyLine (t.operandText ++ ";") else "", inner)
  | .unaryOp l =>
    .fail (.unimplemented ("compilation of " ++ (Node.unaryOp l).kindName ++ " molecules")) l
  | .binaryOp l =>
    .fail (.unimplemented ("compilation of " ++ (Node.binaryOp l).kindName ++ " molecules")) l
  | .fnParams l => .fail (.misplaced "a function parameter declaration") l
  | .endOfFile l => .fail (.misplaced "end of file") l
  | .importDecl _ _ _ l => .fail (.misplaced "an import") l
  | .expr items l => do
    Emission.warn l .danglingExpression
    let text ← Emission.lift (exprText items)
    return (bodyLine (text ++ ";"), inner)
  | .varDecl name isMutable initializer l => do
    let (text, inner) ← Emission.lift (declareText inner name isMutable initializer l)
    return (bodyLine text, inner)
  | .assignment name initializer l => do
    let text ← Emission.lift (assignText ⟨some inner, outer⟩ name initializer l)
    return (bodyLine text, inner)
  | .fnDecl name _ _ l =>
    .fail (.nestedFunction name) l
      [⟨l, "function `" ++ name ++ "` should be moved to the top level"⟩]
  | .fnCall name args l => do
    let text ← Emission.lift (callText name args l)
    return (bodyLine text, inner)

/-- The statements of a function, in order. -/
def emitBody (outer : Table Variable) : (inner : Table Variable) → List Node → Emission String
  | _, [] => return ""
  | inner, item :: items => do
    let (head, inner) ← emitBodyItem outer inner item
    let tail ← emitBody outer inner items
    return head ++ tail

/-! ### Top-level statements -/

/-- The context with the names of a library. -/
def Context.withLibrary (c : Context) (l : Library) : Context :=
  { c with
    «variables» := c.variables.declareAll <| l.constants.map fun name =>
      { name := name, library := some l.name, immutable := true }
    functions := c.functions.declareAll <| l.functions.map fun name =>
      { name := name, library := some l.name }
    libraries := c.libraries ++ [l.name] }

/-- An import: the text of the library and the context with its names. A second import does
nothing. -/
def emitImport (c : Context) (name : String) (location : Location) :
    Emission (Option String × Context) :=
  if name ≠ coreIo.name then
    .fail (.unimplemented
      ("imports other than `" ++ coreIo.name ++ "` (`" ++ name ++ "`)")) location
  else if c.hasImported coreIo.name then do
    Emission.warn location (.alreadyImported coreIo.name)
    return (none, c)
  else
    match c.clash? coreIo with
    | some (taken, declared) =>
      .fail (.importConflict coreIo.name taken) location (declared.toList.map declaredNote)
    | none => return (some coreIo.text, c.withLibrary coreIo)

/-- A function and the context with its name. -/
def emitFn (c : Context) (name : String) (params body : List Node) (location : Location) :
    Emission (Option String × Context) :=
  match c.functions.find? name, params with
  | some taken, _ =>
    .fail (.functionRedeclaration name) location [taken.toBinding.note location]
  | none, param :: _ => .fail (.unimplemented "function parameters") param.location
  | none, [] => do
    let body ← emitBody c.variables {} body
    return (some ("function " ++ name ++ "() \x7b\n" ++ body ++ "\x7d"),
      { c with
        functions := c.functions.declare { name := name, location := some location }
        hasMain := c.hasMain || decide (name = "main") })

/-- The JavaScript of a top-level statement, if it has any, and the context behind it. -/
def emit (c : Context) : Node → Emission (Option String × Context)
  | .endOfFile _ => return (none, c)
  | .token t => do
    Emission.warn t.location (.danglingToken t.kind)
    return (none, c)
  | .unaryOp l => do
    Emission.warn l (.danglingOperation (Node.unaryOp l).kindName)
    return (none, c)
  | .binaryOp l => do
    Emission.warn l (.danglingOperation (Node.binaryOp l).kindName)
    return (none, c)
  | .fnParams l => .fail (.unimplemented "dangling function parameter declaration") l
  | .importDecl name _ _ l => emitImport c name l
  | .expr items l => do
    Emission.warn l .danglingExpression
    let text ← Emission.lift (exprText items)
    return (some (text ++ ";"), c)
  | .varDecl name isMutable initializer l => do
    let (text, table) ←
      Emission.lift (declareText c.variables name isMutable initializer l)
    return (some text, { c with «variables» := table })
  | .assignment name initializer l => do
    let text ← Emission.lift (assignText ⟨none, c.variables⟩ name initializer l)
    return (some text, c)
  | .fnDecl name params body l => emitFn c name params body l
  | .fnCall name args l => do
    let text ← Emission.lift (callText name args l)
    return (some text, c)

/-- Whether a statement imports `coreIo`. -/
def Node.isIoImport : Node → Bool
  | importDecl path _ _ _ => path = coreIo.name
  | _ => false

/-- The constants of `coreIo`. -/
theorem mem_constants_coreIo_iff {name : String} :
    name ∈ coreIo.constants ↔
      name = "stdin" ∨ name = "stdout" ∨ name = "stderr" ∨ name = "stdwarn" := by
  simp [coreIo]

/-- The functions of `coreIo`. -/
theorem mem_functions_coreIo_iff {name : String} :
    name ∈ coreIo.functions ↔
      name = "print" ∨ name = "println" ∨ name = "putchar" ∨ name = "flush" := by
  simp [coreIo]

/-! ### Expressions of the right form -/

private theorem exists_exprItems {start : Location} {ts : List Token}
    (h : ∀ t ∈ ts, t.isOperand = true ∨ t.isSign = true) :
    ∃ text, exprItems start (ts.map Node.token) = .ok text := by
  induction ts with
  | nil => exact ⟨"", rfl⟩
  | cons t ts ih =>
    obtain ⟨tail, htail⟩ := ih fun u hu => h u (List.mem_cons_of_mem t hu)
    have hhead : ∃ head, exprItem start (.token t) = .ok head := by
      rw [exprItem]
      by_cases hoperand : t.isOperand = true
      · exact ⟨_, if_pos hoperand⟩
      · have hsign := (h t List.mem_cons_self).resolve_left hoperand
        exact ⟨_, by rw [if_neg hoperand, if_pos hsign]⟩
    obtain ⟨head, hhead⟩ := hhead
    refine ⟨head ++ tail, ?_⟩
    rw [List.map_cons, exprItems, hhead, htail]
    rfl

/-- Every expression has a text. -/
theorem exists_exprText {items : List Node} (h : IsExpression items) :
    ∃ text, exprText items = .ok text := by
  obtain ⟨ts, hts, rfl⟩ := h
  have hitems := hts.isOperand_or_isSign
  cases ts with
  | nil => exact ⟨"", rfl⟩
  | cons t ts =>
    rw [List.map_cons, exprText_cons]
    exact exists_exprItems hitems

/-- Every initializer has a text. -/
theorem exists_initializerText {isMutable : Bool} {items : List Node}
    (h : IsInitializer isMutable items) : ∃ text, initializerText items = .ok text := by
  rw [initializerText]
  rcases h with ⟨-, rfl⟩ | h
  · exact ⟨"", rfl⟩
  · obtain ⟨text, htext⟩ := exists_exprText h
    rw [htext]
    split
    · exact ⟨"", rfl⟩
    · exact ⟨" = " ++ text, rfl⟩

private theorem exists_argText {call : Location} {arg : Node} (h : arg.IsArgument) :
    ∃ text, argText call arg = .ok text := by
  cases h with
  | operand ht => exact ⟨_, if_pos ht⟩
  | expr hts => exact exists_exprText ⟨_, hts, rfl⟩

private theorem exists_argsText {call : Location} {args : List Node}
    (h : ∀ arg ∈ args, arg.IsArgument) : ∃ text, argsText call args = .ok text := by
  induction args with
  | nil => exact ⟨"", rfl⟩
  | cons arg args ih =>
    obtain ⟨head, hhead⟩ : ∃ head, argText call arg = .ok head :=
      exists_argText (h arg List.mem_cons_self)
    obtain ⟨tail, htail⟩ := ih fun a ha => h a (List.mem_cons_of_mem arg ha)
    cases args with
    | nil => exact ⟨head, hhead⟩
    | cons next args =>
      refine ⟨head ++ ", " ++ tail, ?_⟩
      rw [argsText, hhead, htail]
      · rfl
      · exact List.cons_ne_nil next args

/-- Every call has a text. -/
theorem exists_callText {name : String} {args : List Node} {location : Location}
    (h : ∀ arg ∈ args, arg.IsArgument) : ∃ text, callText name args location = .ok text := by
  obtain ⟨text, htext⟩ := exists_argsText h
  refine ⟨name ++ "(" ++ text ++ ");", ?_⟩
  rw [callText, htext]
  rfl

end Dwo
