import Dwo.Script.Render

/-!
# What the writers write

The writers of `Dwo.Script.Render` put a statement down part by part, at the end of a page. Here
their texts are given as values (`exprItems`, `callText`, `declareText` and so on), which do not
depend on the page, and each writer is shown to write its text (`Writes`): it adds the text if
there is one, and fails with the same error otherwise. A writer that fails may leave a torn page
behind, and nothing is said about that page; but a declaration that fails leaves the table of
variables as it was (`writeDeclaration_of_error`).

Writers are composed in the order in which they write, and their texts by `Except`: two writers
in turn write their texts one behind the other, or fail with the first error (`Writes.seq`).
What an expression looks like does not depend on what is on the page already. So the texts of
whole statements are computed without a page, and the modules behind this one never mention a
writer again.
-/

namespace Dwo

/-! ### Texts as values -/

/-- A part of an expression that starts at `start`: an operand, or a sign between spaces. -/
def exprItem (start : Location) (item : Node) : Except EmitError String :=
  match item with
  | .token t =>
    if t.isOperand then .ok t.operandText
    else if t.isSign then .ok (" " ++ t.text ++ " ")
    else .error (unsupported item (exprNote start))
  | _ => .error (unsupported item (exprNote start))

/-- Parts of an expression that starts at `start`, one behind the other. -/
def exprItems (start : Location) : List Node → Except EmitError String
  | [] => .ok ""
  | item :: items => do
    let head ← exprItem start item
    let tail ← exprItems start items
    return head ++ tail

/-- An argument of the call at `call`: an expression or a single operand. -/
def argText (call : Location) (arg : Node) : Except EmitError String :=
  match arg with
  | .expr items _ => exprText items
  | .token t =>
    if t.isOperand then .ok t.operandText
    else .error (unsupported arg ⟨call, "function call starts here"⟩)
  | _ => .error (unsupported arg ⟨call, "function call starts here"⟩)

/-- The arguments of the call at `call`, separated by commas. -/
def argsText (call : Location) : List Node → Except EmitError String
  | [] => .ok ""
  | [arg] => argText call arg
  | arg :: args => do
    let head ← argText call arg
    let tail ← argsText call args
    return head ++ ", " ++ tail

/-- A call in JavaScript. -/
def callText (name : String) (args : List Node) (location : Location) :
    Except EmitError String := do
  let args ← argsText location args
  return name ++ "(" ++ args ++ ");"

/-- The value of a variable in its declaration, which may be left out. -/
def initializerText (initializer : List Node) : Except EmitError String :=
  if initializer.isEmpty then .ok ""
  else do
    let value ← exprText initializer
    return " = " ++ value

/-- A declaration in JavaScript, and the table with the new variable. The name has to be free in
the table, and a constant needs a value. -/
def declareText (table : Table Variable) (name : String) (isMutable : Bool)
    (initializer : List Node) (location : Location) :
    Except EmitError (String × Table Variable) :=
  match table.find? name with
  | some taken => .error ⟨.redeclaration name, location, [taken.toBinding.note location]⟩
  | none =>
    if !isMutable && initializer.isEmpty then
      .error ⟨.constantWithoutInitializer name, location, []⟩
    else do
      let value ← initializerText initializer
      let entry : Variable :=
        { name := name, location := some location, immutable := !isMutable }
      return ((if isMutable then "let " else "const ") ++ name ++ value ++ ";",
        table.declare entry)

/-- An assignment in JavaScript. A name that is known must not be a constant; a name that is not
known is let through. -/
def assignText (scope : Scope) (name : String) (initializer : List Node) (location : Location) :
    Except EmitError String :=
  match (scope.lookup? name).filter (·.immutable) with
  | some constant =>
    .error ⟨.assignToConstant name, location, [constant.toBinding.note location]⟩
  | none => do
    let value ← exprText initializer
    return name ++ " = " ++ value ++ ";"

/-! ### Writers and texts -/

/-- `m` writes the text `result` at the end of any page; if `result` is an error, `m` fails with
that error. -/
structure Writes (m : Attempt String Unit) (result : Except EmitError String) : Prop where
  of_ok : ∀ {text : String}, result = .ok text → ∀ page, m page = (.ok (), page ++ text)
  of_error : ∀ {e : EmitError}, result = .error e → ∀ page, ∃ torn, m page = (.error e, torn)

private theorem writes_ok {m : Attempt String Unit} {text : String}
    (h : ∀ page, m page = (.ok (), page ++ text)) : Writes m (.ok text) where
  of_ok htext page := by rw [h, Except.ok.inj htext]
  of_error he := by cases he

private theorem writes_error {m : Attempt String Unit} {e : EmitError}
    (h : ∀ page, ∃ torn, m page = (.error e, torn)) : Writes m (.error e) where
  of_ok htext := by cases htext
  of_error he := Except.error.inj he ▸ h

private theorem writes_pure : Writes (pure ()) (.ok "") :=
  writes_ok fun page => by rw [String.append_empty, Attempt.pure_apply]

/-- Writing a text appends just that text. -/
theorem writes_write (text : String) : Writes (write text) (.ok text) :=
  writes_ok fun _ => rfl

private theorem writes_fail (e : EmitError) : Writes (.fail e) (.error e) :=
  writes_error fun page => ⟨page, rfl⟩

namespace Writes

variable {m n : Attempt String Unit} {r q : Except EmitError String}

/-- **Two writers in turn write their texts one behind the other**, and the first failure is the
failure of both. -/
theorem seq (hm : Writes m r) (hn : Writes n q) :
    Writes (do m; n) (do
      let head ← r
      let tail ← q
      return head ++ tail) := by
  cases r with
  | error e =>
    refine writes_error fun page => ?_
    obtain ⟨torn, htorn⟩ := hm.of_error rfl page
    exact ⟨torn, Attempt.bind_of_error htorn⟩
  | ok head =>
    have hbind (page : String) : (do m; n) page = n (page ++ head) :=
      Attempt.bind_of_ok (hm.of_ok rfl page)
    cases q with
    | error e =>
      refine writes_error fun page => ?_
      rw [hbind]
      exact hn.of_error rfl _
    | ok tail =>
      refine writes_ok fun page => ?_
      rw [hbind, hn.of_ok rfl, String.append_assoc]

/-- A text in front of what a writer writes. -/
theorem after_text (text : String) (hn : Writes n q) :
    Writes (do write text; n) (q.map (text ++ ·)) := by
  have h := (writes_write text).seq hn
  cases q with
  | error e => exact h
  | ok tail => exact h

/-- A text behind what a writer writes. -/
theorem then_text (text : String) (hm : Writes m r) :
    Writes (do m; write text) (r.map (· ++ text)) := by
  have h := hm.seq (writes_write text)
  cases r with
  | error e => exact h
  | ok head => exact h

/-- The text as it is. -/
theorem map_id (hm : Writes m r) : Writes m (r.map id) := by
  cases r with
  | error e => exact hm
  | ok text => exact hm

end Writes

/-! ### Expressions and calls -/

private theorem writes_writeItem (start : Location) (item : Node) :
    Writes (writeItem start item) (exprItem start item) := by
  cases item with
  | token t =>
    rw [writeItem, exprItem]
    split
    · exact writes_write _
    · split
      · exact ((writes_write " ").after_text t.text).after_text " "
      · exact writes_fail _
  | _ => exact writes_fail _

private theorem writes_writeItems (start : Location) (items : List Node) :
    Writes (writeItems start items) (exprItems start items) := by
  induction items with
  | nil => exact writes_pure
  | cons item items ih => exact (writes_writeItem start item).seq ih

@[simp]
theorem exprText_nil : exprText [] = .ok "" := rfl

/-- An expression is its parts one behind the other. -/
theorem exprText_cons (first : Node) (rest : List Node) :
    exprText (first :: rest) = exprItems first.location (first :: rest) := by
  have hwrites := writes_writeItems first.location (first :: rest)
  rw [exprText, writeExpr]
  cases hitems : exprItems first.location (first :: rest) with
  | error e =>
    obtain ⟨torn, htorn⟩ := hwrites.of_error hitems ""
    rw [htorn]
  | ok text => rw [hwrites.of_ok hitems, String.empty_append]

/-- **What an expression looks like on an empty page is what it adds to any page.** -/
theorem writes_writeExpr (items : List Node) : Writes (writeExpr items) (exprText items) := by
  cases items with
  | nil => exact writes_pure
  | cons first rest =>
    rw [exprText_cons]
    exact writes_writeItems first.location (first :: rest)

private theorem writes_writeArg (call : Location) (arg : Node) :
    Writes (writeArg call arg) (argText call arg) := by
  cases arg with
  | expr items l => exact writes_writeExpr items
  | token t =>
    rw [writeArg, argText]
    split
    · exact writes_write _
    · exact writes_fail _
  | _ => exact writes_fail _

/-- An argument and those behind it, each of which brings its comma along. -/
theorem writes_writeArgs_cons (call : Location) (arg : Node) (args : List Node) :
    Writes (do writeArg call arg; writeArgs call false args) (argsText call (arg :: args)) := by
  induction args generalizing arg with
  | nil =>
    have h := (writes_writeArg call arg).seq writes_pure
    rw [argsText]
    cases htext : argText call arg with
    | error e =>
      rw [htext] at h
      exact h
    | ok text =>
      rw [htext] at h
      exact String.append_empty (s := text) ▸ h
  | cons next args ih =>
    have h := (writes_writeArg call arg).seq ((ih next).after_text ", ")
    have hargs : argsText call (arg :: next :: args) = (do
        let head ← argText call arg
        let tail ← argsText call (next :: args)
        return head ++ ", " ++ tail) := rfl
    rw [hargs]
    cases hhead : argText call arg with
    | error e =>
      rw [hhead] at h
      exact h
    | ok head =>
      rw [hhead] at h
      cases htail : argsText call (next :: args) with
      | error e =>
        rw [htail] at h
        exact h
      | ok tail =>
        rw [htail] at h
        simp only [Except.map, bind, Except.bind, ← String.append_assoc] at h
        exact h

private theorem writes_writeArgs (call : Location) (args : List Node) :
    Writes (writeArgs call true args) (argsText call args) := by
  cases args with
  | nil => exact writes_pure
  | cons arg args => exact writes_writeArgs_cons call arg args

/-- Writing a call appends its text, and fails where the text does. -/
theorem writes_writeCall (name : String) (args : List Node) (l : Location) :
    Writes (writeCall name args l) (callText name args l) := by
  have h := (((writes_writeArgs l args).then_text ");").after_text "(").after_text name
  rw [callText]
  cases htext : argsText l args with
  | error e =>
    rw [htext] at h
    exact h
  | ok text =>
    rw [htext] at h
    simp only [Except.map, ← String.append_assoc] at h
    exact h

/-! ### Variables -/

private theorem writes_writeInitializer (initializer : List Node) :
    Writes (writeInitializer initializer) (initializerText initializer) := by
  rw [writeInitializer, initializerText]
  split
  · exact writes_pure
  · exact (writes_writeExpr initializer).after_text " = "

/-- Writing an assignment appends its text, and fails where the text does. -/
theorem writes_writeAssignment (scope : Scope) (name : String) (initializer : List Node)
    (l : Location) :
    Writes (writeAssignment scope name initializer l) (assignText scope name initializer l) := by
  rw [writeAssignment, assignText]
  cases (scope.lookup? name).filter (·.immutable) with
  | some constant => exact writes_fail _
  | none =>
    have h := (((writes_writeExpr initializer).then_text ";").after_text " = ").after_text name
    cases htext : exprText initializer with
    | error e =>
      rw [htext] at h
      exact h
    | ok text =>
      rw [htext] at h
      simp only [Except.map, ← String.append_assoc] at h
      exact h

/-- The text of a declaration, before its name is entered. -/
theorem writes_declaration (name : String) (isMutable : Bool) (initializer : List Node) :
    Writes (do
        write (if isMutable then "let " else "const ")
        write name
        writeInitializer initializer
        write ";")
      ((initializerText initializer).map fun value =>
        (if isMutable then "let " else "const ") ++ name ++ value ++ ";") := by
  have h := (((writes_writeInitializer initializer).then_text ";").after_text name).after_text
    (if isMutable then "let " else "const ")
  cases htext : initializerText initializer with
  | error e =>
    rw [htext] at h
    exact h
  | ok text =>
    rw [htext] at h
    simp only [Except.map, ← String.append_assoc] at h
    exact h

/-- **A declaration enters its name with its text; one that fails has not entered it**, whatever
it has written by then. -/
theorem writeDeclaration_apply (table : Table Variable) (name : String) (isMutable : Bool)
    (initializer : List Node) (l : Location) (page : String) :
    match declareText table name isMutable initializer l with
    | .ok (text, table') =>
      writeDeclaration name isMutable initializer l (page, table) = (.ok (), page ++ text, table')
    | .error e =>
      ∃ torn, writeDeclaration name isMutable initializer l (page, table) =
        (.error e, torn, table) := by
  rw [declareText, writeDeclaration, Attempt.bind_of_ok (Attempt.look_apply _ _)]
  cases table.find? name with
  | some taken => exact ⟨page, rfl⟩
  | none =>
    dsimp only
    by_cases hconstant : (!isMutable && initializer.isEmpty) = true
    · rw [if_pos hconstant, if_pos hconstant]
      exact ⟨page, rfl⟩
    · rw [if_neg hconstant, if_neg hconstant]
      have hwrites := writes_declaration name isMutable initializer
      cases htext : initializerText initializer with
      | error e =>
        rw [htext] at hwrites
        obtain ⟨torn, htorn⟩ := hwrites.of_error rfl page
        refine ⟨torn, Attempt.bind_of_error ?_⟩
        rw [Attempt.on_apply, htorn]
      | ok value =>
        rw [htext] at hwrites
        change Attempt.andThen _ _ _ = _
        rw [Attempt.andThen, Attempt.on_apply, hwrites.of_ok rfl page]
        rfl

end Dwo
