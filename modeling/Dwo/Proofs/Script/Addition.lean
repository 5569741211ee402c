import Dwo.Proofs.Script.Emission

/-!
# Adding a statement

A statement is added to a script step by step, and a step that fails undoes nothing. Here every
step is compared with what the statement comes to as a value (`emit`):

* while a statement is worked on, only its text, the variables of its function and the warnings
  change (`Work.touched`); all of these but the warnings are dropped when the statement is done;
* a step that fails is found in such a state, however much of the statement has been written by
  then (`Carries` for the statements of a function, `Performs` for those at the top level);
* names and the text of the statement are entered behind the last step that can fail.

So adding a statement comes to the same as its emission (`Script.add_eq`).

A script changes in three places only: its text, its context and its warnings. The first two are
changed together at the end of a statement, so `add_of_error` and `add_of_ok` say all there is
to say about a call: an error leaves both as they were, and without one both are those of the
emission. The later modules use these two and `Script.of_add_eq_some`, `Script.of_add_eq_none`,
and never look at how a statement is worked on.
-/

namespace Dwo

/-! ### What does not last -/

/-- The work with new warnings, and with another text and other variables of the function. The
text and the context of the script are the same. -/
def Work.touched (w : Work) (new : List Diagnostic) (text : String) (inner : Table Variable) :
    Work where
  script := { w.script with warnings := w.script.warnings ++ new }
  text := text
  inner := inner

namespace Work

variable (w : Work)

@[simp]
theorem touched_self : w.touched [] w.text w.inner = w := by
  rw [touched, List.append_nil]

/-- Two changes are one: the warnings add up, and the later text and variables stay. -/
@[simp]
theorem touched_touched (new new' : List Diagnostic) (text text' : String)
    (inner inner' : Table Variable) :
    (w.touched new text inner).touched new' text' inner' =
      w.touched (new ++ new') text' inner' := by
  simp only [touched, List.append_assoc]

end Work

private theorem warn_apply (l : Location) (warning : Warning) (w : Work) :
    warn l warning w =
      (.ok (), w.touched [.warning l warning.message] w.text w.inner) := rfl

/-- What is written goes behind the text of the function. -/
private theorem inText_of_ok {m : Attempt String Unit} {text : String} (h : Writes m (.ok text))
    (w : Work) : inText m w = (.ok (), w.touched [] (w.text ++ text) w.inner) := by
  rw [inText, Attempt.on_apply, h.of_ok rfl, Work.touched, List.append_nil]

/-- A write that fails leaves a torn text, and nothing else. -/
private theorem inText_of_error {m : Attempt String Unit} {e : EmitError} (h : Writes m (.error e))
    (w : Work) : ∃ torn, inText m w = (.error e, w.touched [] torn w.inner) := by
  obtain ⟨torn, htorn⟩ := h.of_error rfl w.text
  refine ⟨torn, ?_⟩
  rw [inText, Attempt.on_apply, htorn, Work.touched, List.append_nil]

/-! ### Statements of a function -/

/-- `m` does with a statement of a function what the emission says. If the emission has a text, it
is written and the variables behind it are entered. If it has an error, `m` fails with it, and has
touched nothing that lasts. The warnings are given in both cases. -/
def Carries (m : Attempt Work Unit) (w : Work) (e : Emission (String × Table Variable)) : Prop :=
  match e.result with
  | .ok (text, inner) => m w = (.ok (), w.touched e.warnings (w.text ++ text) inner)
  | .error error => ∃ text inner, m w = (.error error, w.touched e.warnings text inner)

private theorem carries_fail (cause : EmitCause) (l : Location) (notes : List Note) (w : Work) :
    Carries (.fail ⟨cause, l, notes⟩) w (.fail cause l notes) :=
  ⟨w.text, w.inner, by rw [Attempt.fail_apply]; exact congrArg _ w.touched_self.symm⟩

private theorem carries_inText {m : Attempt String Unit} {r : Except EmitError String}
    {f : String → String} (h : Writes m (r.map f)) (w : Work) :
    Carries (inText m) w (do
      let text ← Emission.lift r
      return (f text, w.inner)) := by
  cases r with
  | error e =>
    obtain ⟨torn, htorn⟩ := inText_of_error h w
    exact ⟨torn, w.inner, htorn⟩
  | ok text => exact inText_of_ok h w

/-- A warning in front of a step is a warning in front of its emission. -/
theorem Carries.warn {m : Attempt Work Unit} {w : Work} {e : Emission (String × Table Variable)}
    {l : Location} {warning : Warning}
    (h : Carries m (w.touched [.warning l warning.message] w.text w.inner) e) :
    Carries (do Dwo.warn l warning; m) w (do Emission.warn l warning; e) := by
  have hm : (do Dwo.warn l warning; m) w =
      m (w.touched [.warning l warning.message] w.text w.inner) :=
    Attempt.bind_of_ok (warn_apply l warning w)
  obtain ⟨warnings, result⟩ := e
  cases result with
  | error error =>
    obtain ⟨text, inner, h⟩ := h
    exact ⟨text, inner, by rw [hm, h, Work.touched_touched]; rfl⟩
  | ok r =>
    obtain ⟨text, inner⟩ := r
    exact (hm.trans h).trans (congrArg (Prod.mk _) (Work.touched_touched ..))

/-- A line of a function: what is written between the indentation and the end of the line. -/
theorem Writes.line {m : Attempt String Unit} {r : Except EmitError String} (h : Writes m r) :
    Writes (do write "  "; m; write "\n") (r.map bodyLine) := by
  have hline := (h.then_text "\n").after_text "  "
  cases r with
  | error e => exact hline
  | ok text =>
    simp only [Except.map, ← String.append_assoc] at hline
    exact hline

/-- A line of a function that is an expression. -/
theorem Writes.exprLine {m : Attempt String Unit} {r : Except EmitError String}
    (h : Writes m r) :
    Writes (do write "  "; m; write ";\n") (r.map fun text => bodyLine (text ++ ";")) := by
  have hline := (h.then_text ";\n").after_text "  "
  cases r with
  | error e => exact hline
  | ok text =>
    have hend : text ++ ";\n" = text ++ ";" ++ "\n" := by
      rw [String.append_assoc]
      rfl
    simp only [Except.map, hend, ← String.append_assoc] at hline
    exact hline

private theorem carries_declaration (name : String) (isMutable : Bool) (initializer : List Node)
    (l : Location) (w : Work) :
    Carries (do
        inText (write "  ")
        inFunction (writeDeclaration name isMutable initializer l)
        inText (write "\n")) w (do
      let (text, inner) ← Emission.lift (declareText w.inner name isMutable initializer l)
      return (bodyLine text, inner)) := by
  have hindent := inText_of_ok (writes_write "  ") w
  have hwrite := writeDeclaration_apply w.inner name isMutable initializer l (w.text ++ "  ")
  generalize declareText w.inner name isMutable initializer l = declared at hwrite ⊢
  cases declared with
  | error e =>
    obtain ⟨torn, htorn⟩ := hwrite
    -- The page is torn, but the name has not been entered.
    have hin : inFunction (writeDeclaration name isMutable initializer l)
        (w.touched [] (w.text ++ "  ") w.inner) = (.error e, w.touched [] torn w.inner) := by
      rw [inFunction, Attempt.on_apply, Work.touched, htorn, Work.touched]
    refine ⟨torn, w.inner, ?_⟩
    rw [Attempt.bind_of_ok hindent]
    exact Attempt.bind_of_error hin
  | ok r =>
    obtain ⟨text, inner⟩ := r
    have hin : inFunction (writeDeclaration name isMutable initializer l)
        (w.touched [] (w.text ++ "  ") w.inner) =
          (.ok (), w.touched [] (w.text ++ "  " ++ text) inner) := by
      rw [inFunction, Attempt.on_apply, Work.touched, hwrite, Work.touched]
    have hend := inText_of_ok (writes_write "\n") (w.touched [] (w.text ++ "  " ++ text) inner)
    rw [Work.touched_touched] at hend
    have hline : w.text ++ bodyLine text = w.text ++ "  " ++ text ++ "\n" := by
      rw [bodyLine, ← String.append_assoc, ← String.append_assoc]
    change _ = (_, w.touched [] (w.text ++ bodyLine text) inner)
    rw [Attempt.bind_of_ok hindent, Attempt.bind_of_ok hin, hend, hline]
    rfl

/-- Each kind of statement of a function does what its emission says. -/
private theorem carries_addBodyItem (w : Work) (item : Node) :
    Carries (addBodyItem item) w
      (emitBodyItem w.script.context.variables w.inner item) := by
  cases item with
  | token t =>
    refine Carries.warn ?_
    by_cases hoperand : t.isOperand = true
    · rw [if_pos hoperand, if_pos hoperand]
      exact inText_of_ok (writes_write t.operandText).exprLine _
    -- A token that is no operand is only warned about.
    · rw [if_neg hoperand, if_neg hoperand]
      exact congrArg (Prod.mk _) (by rw [String.append_empty]; exact (Work.touched_self _).symm)
  | expr items l => exact (carries_inText (writes_writeExpr items).exprLine _).warn
  | varDecl name isMutable initializer l => exact carries_declaration ..
  | assignment name initializer l =>
    exact carries_inText (writes_writeAssignment _ name initializer l).line w
  | fnCall name args l => exact carries_inText (writes_writeCall name args l).line w
  | unaryOp | binaryOp | fnParams | endOfFile | importDecl | fnDecl => exact carries_fail ..

/-- `m` does with the whole of a function what the emission says. Its variables are dropped with
it, so nothing is said about them. -/
def CarriesBody (m : Attempt Work Unit) (w : Work) (e : Emission String) : Prop :=
  match e.result with
  | .ok text => ∃ inner, m w = (.ok (), w.touched e.warnings (w.text ++ text) inner)
  | .error error => ∃ text inner, m w = (.error error, w.touched e.warnings text inner)

/-- **The statements of a function are carried out one after the other.** Those before a failure
have touched nothing that lasts either. -/
theorem carriesBody_addBody (w : Work) (items : List Node) :
    CarriesBody (addBody items) w (emitBody w.script.context.variables w.inner items) := by
  induction items generalizing w with
  | nil =>
    refine ⟨w.inner, ?_⟩
    exact congrArg (Prod.mk _) (by rw [String.append_empty]; exact w.touched_self.symm)
  | cons item items ih =>
    have hitem := carries_addBodyItem w item
    rw [emitBody, addBody]
    generalize emitBodyItem w.script.context.variables w.inner item = e at hitem ⊢
    obtain ⟨warnings, result⟩ := e
    cases result with
    | error error =>
      obtain ⟨text, inner, hitem⟩ := hitem
      exact ⟨text, inner, Attempt.bind_of_error hitem⟩
    | ok r =>
      obtain ⟨head, inner⟩ := r
      have hbind : (do addBodyItem item; addBody items) w =
          addBody items (w.touched warnings (w.text ++ head) inner) :=
        Attempt.bind_of_ok hitem
      -- The rest of the body starts in the context of before, with the new variables.
      have hrest : CarriesBody (addBody items) (w.touched warnings (w.text ++ head) inner)
          (emitBody w.script.context.variables inner items) := ih _
      rw [Emission.mk_ok_bind]
      dsimp only
      generalize emitBody w.script.context.variables inner items = rest at hrest ⊢
      obtain ⟨warnings', result⟩ := rest
      cases result with
      | error error =>
        obtain ⟨text, inner', hrest⟩ := hrest
        rw [Work.touched_touched] at hrest
        exact ⟨text, inner', hbind.trans hrest⟩
      | ok tail =>
        obtain ⟨inner', hrest⟩ := hrest
        rw [Work.touched_touched] at hrest
        refine ⟨inner', hbind.trans (hrest.trans ?_)⟩
        change _ = (_, w.touched (warnings ++ (warnings' ++ [])) (w.text ++ (head ++ tail)) inner')
        rw [List.append_nil, ← String.append_assoc]
        rfl

/-! ### Top-level statements -/

/-- `m` does with a top-level statement what the emission says. If the emission has an error, `m`
fails with it and has touched nothing that lasts; otherwise the text of the statement, if any, and
the context behind it are in the script. The warnings are given in both cases. -/
def Performs (m : Attempt Work Unit) (s : Script) (e : Emission (Option String × Context)) : Prop :=
  match e.result with
  | .ok (text, c) => ∃ w, m { script := s } = (.ok (), w) ∧
      w.script = ⟨s.output ++ text.elim "" (· ++ "\n"), c, s.warnings ++ e.warnings⟩
  | .error error =>
    ∃ text inner, m { script := s } = (.error error, Work.touched ⟨s, "", {}⟩ e.warnings text inner)

private theorem performs_fail (cause : EmitCause) (l : Location) (notes : List Note) (s : Script) :
    Performs (.fail ⟨cause, l, notes⟩) s (.fail cause l notes) :=
  ⟨"", {}, by rw [Attempt.fail_apply]; exact congrArg _ (Work.touched_self _).symm⟩

/-- A check that fails before anything is touched decides the statement. -/
private theorem performs_of_error {α : Type} {m : Attempt Work α} {s : Script} {e : EmitError}
    (h : m { script := s } = (.error e, { script := s })) (rest : α → Attempt Work Unit) :
    Performs (m >>= rest) s (.fail e.cause e.location e.notes) := by
  refine ⟨"", {}, Attempt.bind_of_error (h.trans ?_)⟩
  exact congrArg (Prod.mk _) (Work.touched_self ⟨s, "", {}⟩).symm

private theorem performs_warn (l : Location) (warning : Warning) (s : Script) :
    Performs (warn l warning) s (do
      Emission.warn l warning
      return (none, s.context)) :=
  ⟨_, warn_apply l warning _, by rw [Option.elim_none, String.append_empty]; rfl⟩

/-- The text of a statement goes into the script on lines of its own. -/
theorem commit_apply (s : Script) (text : String) (inner : Table Variable) :
    commit ⟨s, text, inner⟩ =
      (.ok (), ⟨{ s with output := s.output ++ (text ++ "\n") }, text, inner⟩) := by
  rw [← String.append_assoc]
  rfl

/-- A statement that is only written. -/
theorem performs_inText {m : Attempt String Unit} {r : Except EmitError String}
    {f : String → String} (h : Writes m (r.map f)) (s : Script) :
    Performs (do inText m; commit) s (do
      let text ← Emission.lift r
      return (some (f text), s.context)) := by
  cases r with
  | error e =>
    obtain ⟨torn, htorn⟩ := inText_of_error h { script := s }
    exact ⟨torn, {}, Attempt.bind_of_error htorn⟩
  | ok text =>
    have htext := inText_of_ok h { script := s }
    rw [String.empty_append] at htext
    exact ⟨_, (Attempt.bind_of_ok htext).trans (commit_apply ..), rfl⟩

/-- A warning before the rest of a statement. -/
theorem Performs.warn {m : Attempt Work Unit} {s : Script} {e : Emission (Option String × Context)}
    {l : Location} {warning : Warning}
    (h : Performs m { s with warnings := s.warnings ++ [.warning l warning.message] } e) :
    Performs (do Dwo.warn l warning; m) s (do Emission.warn l warning; e) := by
  have hm : (do Dwo.warn l warning; m) { script := s } =
      m { script := { s with warnings := s.warnings ++ [.warning l warning.message] } } :=
    Attempt.bind_of_ok (warn_apply l warning _)
  obtain ⟨warnings, result⟩ := e
  cases result with
  | error error =>
    obtain ⟨text, inner, h⟩ := h
    have htouched := Work.touched_touched ⟨s, "", {}⟩ [.warning l warning.message] warnings
      "" text {} inner
    exact ⟨text, inner, (hm.trans h).trans (congrArg (Prod.mk _) htouched)⟩
  | ok r =>
    obtain ⟨w, h, hw⟩ := h
    rw [List.append_assoc] at hw
    exact ⟨w, hm.trans h, hw⟩

private theorem performs_declaration (name : String) (isMutable : Bool) (initializer : List Node)
    (l : Location) (s : Script) :
    Performs (do atTopLevel (writeDeclaration name isMutable initializer l); commit) s (do
      let (text, table) ←
        Emission.lift (declareText s.context.variables name isMutable initializer l)
      return (some text, { s.context with «variables» := table })) := by
  have hwrite := writeDeclaration_apply s.context.variables name isMutable initializer l ""
  generalize declareText s.context.variables name isMutable initializer l = declared at hwrite ⊢
  cases declared with
  | error e =>
    obtain ⟨torn, htorn⟩ := hwrite
    refine ⟨torn, {}, Attempt.bind_of_error ?_⟩
    rw [atTopLevel, Attempt.on_apply, htorn]
    exact congrArg (Prod.mk _) (Work.touched_self ⟨s, torn, {}⟩).symm
  | ok r =>
    obtain ⟨text, table⟩ := r
    have hat : atTopLevel (writeDeclaration name isMutable initializer l) { script := s } =
        (.ok (), ⟨{ s with context.variables := table }, text, {}⟩) := by
      rw [atTopLevel, Attempt.on_apply, hwrite, String.empty_append]
    refine ⟨_, (Attempt.bind_of_ok hat).trans (commit_apply ..), ?_⟩
    change _ = (⟨_, _, s.warnings ++ []⟩ : Script)
    rw [List.append_nil]
    rfl

/-- A name that is taken is found before the body of the function is looked at. -/
theorem addFn_of_taken {s : Script} {name : String} {taken : Function} (params body : List Node)
    (l : Location) (h : s.context.functions.find? name = some taken) :
    addFn name params body l { script := s } =
      (.error ⟨.functionRedeclaration name, l, [taken.toBinding.note l]⟩, { script := s }) := by
  rw [addFn, Attempt.bind_of_ok (Attempt.look_apply _ _)]
  dsimp only
  rw [h]
  rfl

/-- Parameters are refused before the body of the function is looked at. -/
theorem addFn_of_params {s : Script} {name : String} (param : Node) (params body : List Node)
    (l : Location) (h : s.context.functions.find? name = none) :
    addFn name (param :: params) body l { script := s } =
      (.error ⟨.unimplemented "function parameters", param.location, []⟩, { script := s }) := by
  rw [addFn, Attempt.bind_of_ok (Attempt.look_apply _ _)]
  dsimp only
  rw [h]
  rfl

/-- The name of a function is entered behind its text. -/
theorem addFn_of_free {s : Script} {name : String} (l : Location) (body : List Node)
    (h : s.context.functions.find? name = none) :
    addFn name [] body l { script := s } = (do
      addBody body
      inText (write "\x7d")
      Attempt.change fun w =>
        { w with script.context.functions :=
            w.script.context.functions.declare { name := name, location := some l } }
      if name = "main" then
        Attempt.change fun w => { w with script.context.hasMain := true }
      else pure () : Attempt Work Unit) ⟨s, "function " ++ name ++ "() \x7b\n", {}⟩ := by
  rw [addFn, Attempt.bind_of_ok (Attempt.look_apply _ _)]
  dsimp only
  rw [h]
  dsimp only
  rw [Attempt.bind_of_ok (Attempt.change_apply _ _)]
  have hopen := inText_of_ok (writes_write ("function " ++ name ++ "() \x7b\n"))
    { script := s }
  rw [String.empty_append] at hopen
  rw [Attempt.bind_of_ok hopen, Work.touched, List.append_nil]

/-- Behind the text of a function, its name is entered, and that it is `main`. -/
theorem enterFn_apply (name : String) (l : Location) (s : Script) (text : String)
    (inner : Table Variable) :
    (do
      Attempt.change fun w =>
        { w with script.context.functions :=
            w.script.context.functions.declare { name := name, location := some l } }
      if name = "main" then
        Attempt.change fun w => { w with script.context.hasMain := true }
      else pure () : Attempt Work Unit) ⟨s, text, inner⟩ =
    (.ok (), ⟨{ s with context :=
      { s.context with
        functions := s.context.functions.declare { name := name, location := some l }
        hasMain := s.context.hasMain || decide (name = "main") } }, text, inner⟩) := by
  rw [Attempt.bind_of_ok (Attempt.change_apply _ _)]
  by_cases hmain : name = "main"
  · rw [if_pos hmain, decide_eq_true hmain, Bool.or_true]
    rfl
  · rw [if_neg hmain, decide_eq_false hmain, Bool.or_false]
    rfl

/-- A function is entered as a whole or not at all. -/
private theorem performs_addFn (name : String) (params body : List Node) (l : Location)
    (s : Script) :
    Performs (do addFn name params body l; commit) s (emitFn s.context name params body l) := by
  unfold emitFn
  cases htaken : s.context.functions.find? name with
  | some taken => exact performs_of_error (addFn_of_taken params body l htaken) _
  | none =>
    cases params with
    | cons param params => exact performs_of_error (addFn_of_params param params body l htaken) _
    | nil =>
      have hadd := addFn_of_free l body htaken
      have hbody : CarriesBody (addBody body) ⟨s, "function " ++ name ++ "() \x7b\n", {}⟩
          (emitBody s.context.variables {} body) := carriesBody_addBody _ body
      dsimp only
      generalize emitBody s.context.variables {} body = e at hbody ⊢
      obtain ⟨warnings, result⟩ := e
      cases result with
      | error error =>
        obtain ⟨text, inner, hbody⟩ := hbody
        exact ⟨text, inner, Attempt.bind_of_error (hadd.trans (Attempt.bind_of_error hbody))⟩
      | ok text =>
        obtain ⟨inner, hbody⟩ := hbody
        -- Behind the body nothing can fail: the brace is written, and then the name is entered.
        have hclose := inText_of_ok (writes_write "\x7d") (Work.touched
          ⟨s, "function " ++ name ++ "() \x7b\n", {}⟩ warnings
          ("function " ++ name ++ "() \x7b\n" ++ text) inner)
        rw [Work.touched_touched] at hclose
        rw [Attempt.bind_of_ok hbody, Attempt.bind_of_ok hclose] at hadd
        have hadd := hadd.trans (enterFn_apply name l _ _ _)
        exact ⟨_, (Attempt.bind_of_ok hadd).trans (commit_apply ..), rfl⟩

section Import

variable {s : Script} (l : Location)

/-- A second import draws a warning. -/
theorem addImport_of_imported (h : s.context.hasImported coreIo.name = true) :
    addImport coreIo.name l { script := s } =
      (.ok false, Work.touched ⟨s, "", {}⟩
        [.warning l (Warning.alreadyImported coreIo.name).message] "" {}) := by
  rw [addImport, if_neg (not_not_intro rfl), Attempt.bind_of_ok (Attempt.look_apply _ _)]
  dsimp only
  rw [h]
  rfl

/-- A name that is taken is found before any name is entered. -/
theorem addImport_of_clash {clash : String × Option Location}
    (himported : s.context.hasImported coreIo.name = false)
    (hclash : s.context.clash? coreIo = some clash) :
    addImport coreIo.name l { script := s } =
      (.error ⟨.importConflict coreIo.name clash.1, l, clash.2.toList.map declaredNote⟩,
        { script := s }) := by
  rw [addImport, if_neg (not_not_intro rfl), Attempt.bind_of_ok (Attempt.look_apply _ _)]
  dsimp only
  rw [himported, hclash]
  rfl

/-- The names of a library and its text are entered with no check in between. -/
theorem addImport_of_free (himported : s.context.hasImported coreIo.name = false)
    (hclash : s.context.clash? coreIo = none) :
    addImport coreIo.name l { script := s } =
      (.ok true, ⟨{ s with context := s.context.withLibrary coreIo }, coreIo.text, {}⟩) := by
  rw [addImport, if_neg (not_not_intro rfl), Attempt.bind_of_ok (Attempt.look_apply _ _)]
  dsimp only
  rw [himported, hclash]
  have hpage : coreIo.text = "" ++ coreIo.text := String.empty_append.symm
  rw [hpage]
  rfl

end Import

/-- An inclusion is entered only if it is new. -/
private theorem performs_addImport (name : String) (l : Location) (s : Script) :
    Performs (do
        let isNew ← addImport name l
        if isNew then commit else pure ()) s
      (emitImport s.context name l) := by
  rw [emitImport]
  by_cases hname : name ≠ coreIo.name
  · rw [if_pos hname, addImport, if_pos hname]
    exact performs_fail ..
  · obtain rfl : name = coreIo.name := not_not.mp hname
    rw [if_neg hname]
    cases himported : s.context.hasImported coreIo.name with
    | true =>
      rw [if_pos rfl]
      refine ⟨_, Attempt.bind_of_ok (addImport_of_imported l himported), ?_⟩
      rw [Option.elim_none, String.append_empty]
      rfl
    | false =>
      rw [if_neg Bool.false_ne_true]
      cases hclash : s.context.clash? coreIo with
      | some clash => exact performs_of_error (addImport_of_clash l himported hclash) _
      | none =>
        have hadd := addImport_of_free l himported hclash
        refine ⟨_, (Attempt.bind_of_ok hadd).trans (commit_apply ..), ?_⟩
        change _ = (⟨_, _, s.warnings ++ []⟩ : Script)
        rw [List.append_nil]
        rfl

/-- **Adding a statement comes to its emission**, whatever its form. -/
theorem performs_addNode (node : Node) (s : Script) :
    Performs (addNode node) s (emit s.context node) := by
  cases node with
  | endOfFile l =>
    refine ⟨_, rfl, ?_⟩
    change s = ⟨s.output ++ "", s.context, s.warnings ++ []⟩
    rw [String.append_empty, List.append_nil]
  | token | unaryOp | binaryOp => exact performs_warn ..
  | fnParams l => exact performs_fail ..
  | importDecl path newName isLocal l => exact performs_addImport path l s
  | expr items l => exact (performs_inText ((writes_writeExpr items).then_text ";") _).warn
  | varDecl name isMutable initializer l => exact performs_declaration ..
  | assignment name initializer l =>
    exact performs_inText
      (writes_writeAssignment ⟨none, s.context.variables⟩ name initializer l).map_id s
  | fnDecl name params body l => exact performs_addFn name params body l s
  | fnCall name args l => exact performs_inText (writes_writeCall name args l).map_id s

/-! ### What a script comes to -/

namespace Script

variable {s : Script} {node : Node}

/-- **Adding a statement, as a value.** A statement that is rejected leaves the text and the context
alone; one that is accepted adds its text, if it has any, and a newline. The warnings about it are
added in both cases. -/
theorem add_eq (s : Script) (node : Node) :
    s.add node =
      let warnings := s.warnings ++ (emit s.context node).warnings
      match (emit s.context node).result with
      | .error e => ({ s with warnings := warnings }, some e)
      | .ok (text, context) =>
        (⟨s.output ++ text.elim "" (· ++ "\n"), context, warnings⟩, none) := by
  have hperforms := performs_addNode node s
  rw [Performs] at hperforms
  rw [add]
  cases hresult : (emit s.context node).result with
  | error e =>
    rw [hresult] at hperforms
    obtain ⟨text, inner, hperforms⟩ := hperforms
    rw [hperforms]
    rfl
  | ok r =>
    rw [hresult] at hperforms
    obtain ⟨w, hperforms, hw⟩ := hperforms
    rw [hperforms]
    exact congrArg (fun script => (script, none)) hw

/-- A rejected node leaves the context and the output as they were. -/
theorem add_of_error {e : EmitError} (h : (emit s.context node).result = .error e) :
    (s.add node).2 = some e ∧ (s.add node).1.context = s.context ∧
      (s.add node).1.output = s.output := by
  rw [add_eq, h]
  exact ⟨rfl, rfl, rfl⟩

/-- The text of an accepted node is appended with a line feed behind it. -/
theorem add_of_ok {text : Option String} {c : Context}
    (h : (emit s.context node).result = .ok (text, c)) :
    (s.add node).2 = none ∧ (s.add node).1.context = c ∧
      (s.add node).1.output = s.output ++ text.elim "" (· ++ "\n") := by
  rw [add_eq, h]
  exact ⟨rfl, rfl, rfl⟩

/-- Adding a statement adds the warnings about it behind those that are there. -/
theorem warnings_add (s : Script) (node : Node) :
    (s.add node).1.warnings = s.warnings ++ (emit s.context node).warnings := by
  rw [add_eq]
  cases (emit s.context node).result with
  | error e => rfl
  | ok r => rfl

/-- A call that reports an error has changed neither the context nor the output. -/
theorem of_add_eq_some {s' : Script} {e : EmitError} (h : s.add node = (s', some e)) :
    s'.context = s.context ∧ s'.output = s.output := by
  cases hresult : (emit s.context node).result with
  | error e' =>
    have hadd := add_of_error hresult
    rw [h] at hadd
    exact hadd.2
  | ok r =>
    have hadd := add_of_ok hresult
    rw [h] at hadd
    cases hadd.1

/-- What is returned for a rejected statement is its error. -/
theorem result_of_add_eq_some {s' : Script} {e : EmitError} (h : s.add node = (s', some e)) :
    (emit s.context node).result = .error e := by
  cases hresult : (emit s.context node).result with
  | error e' =>
    have hadd := add_of_error hresult
    rw [h] at hadd
    rw [Option.some.inj hadd.1]
  | ok r =>
    have hadd := add_of_ok hresult
    rw [h] at hadd
    cases hadd.1

/-- A call without an error has appended the text of the node. -/
theorem of_add_eq_none {s' : Script} (h : s.add node = (s', none)) :
    ∃ text, (emit s.context node).result = .ok (text, s'.context) ∧
      s'.output = s.output ++ text.elim "" (· ++ "\n") := by
  cases hresult : (emit s.context node).result with
  | error e =>
    have hadd := add_of_error hresult
    rw [h] at hadd
    cases hadd.1
  | ok r =>
    have hadd := add_of_ok hresult
    rw [h] at hadd
    exact ⟨r.1, by rw [hadd.2.1], hadd.2.2⟩

end Script

end Dwo
