import Dwo.Proofs.Script.Origins

/-!
# The names that a script declares

A script keeps variables and functions in two tables, and looks a name up in one of them only. The
records that have no library are exactly the declarations among the statements that have been
accepted, in their order (`Script.Built.ownNames_eq`); so no two variables and no two functions of
a script share a name, while a variable and a function may.

The main result, `import_rejected_iff`, says what this means for an import of `coreIo`: it is
rejected exactly if a constant of the library has the name of a variable, or a function of the
library that of a function. A declaration of the other kind does not count
(`import_accepted_across_kinds`).

`ownNames` are the names in a table that no library has put there. One statement adds its own
name or none (`yields_emit_declared`), and an import adds only names of the library, so the
declarations of a script are found by induction on the statements that built it. `ClashesWithIo`
compares the two kinds separately, as the tables do. The second main result is the counterpart
of the first: a function named as a constant of the library, or a variable named as one of its
functions, does not keep the import from being accepted.
-/

namespace Dwo

/-! ### Names of statements and of records -/

namespace Node

/-- The variable that a statement declares, libraries apart. -/
def variableName? : Node → Option String
  | varDecl name _ _ _ => some name
  | _ => none

/-- The function that a statement declares, libraries apart. -/
def functionName? : Node → Option String
  | fnDecl name _ _ _ => some name
  | _ => none

end Node

/-- The names among some bindings that no library provides. -/
def ownNames (bindings : List Binding) : List String :=
  (bindings.filter (·.library.isNone)).map (·.name)

private theorem ownNames_append (bs bs' : List Binding) :
    ownNames (bs ++ bs') = ownNames bs ++ ownNames bs' := by
  rw [ownNames, List.filter_append, List.map_append, ownNames, ownNames]

/-- What a library provides is not declared. -/
theorem ownNames_eq_nil {bindings : List Binding} (h : ∀ b ∈ bindings, b.library ≠ none) :
    ownNames bindings = [] := by
  rw [ownNames, List.map_eq_nil_iff, List.filter_eq_nil_iff]
  intro b hb hnone
  exact h b hb (Option.isNone_iff_eq_none.mp hnone)

/-- Without libraries, every name is declared. -/
theorem ownNames_eq_map {bindings : List Binding} (h : ∀ b ∈ bindings, b.library = none) :
    ownNames bindings = bindings.map (·.name) := by
  rw [ownNames, List.filter_eq_self.mpr]
  intro b hb
  exact Option.isNone_iff_eq_none.mpr (h b hb)

private theorem ownNames_sublist (bindings : List Binding) :
    (ownNames bindings).Sublist (bindings.map (·.name)) :=
  List.filter_sublist.map _

namespace Context

/-- The variables of a context that no library provides, oldest first. -/
def ownVariables (c : Context) : List String :=
  ownNames (c.variables.entries.map (·.toBinding))

/-- The functions of a context that no library provides, oldest first. -/
def ownFunctions (c : Context) : List String :=
  ownNames (c.functions.entries.map (·.toBinding))

/-- A library adds no declarations. -/
theorem own_withLibrary (c : Context) (l : Library) :
    (c.withLibrary l).ownVariables = c.ownVariables ∧
      (c.withLibrary l).ownFunctions = c.ownFunctions := by
  constructor
  · rw [ownVariables, withLibrary, Table.entries_declareAll, List.map_append, ownNames_append]
    exact List.append_right_eq_self.mpr (ownNames_eq_nil (by simp))
  · rw [ownFunctions, withLibrary, Table.entries_declareAll, List.map_append, ownNames_append]
    exact List.append_right_eq_self.mpr (ownNames_eq_nil (by simp))

end Context

/-! ### What one statement declares -/

/-- The declarations of a context and those of one more statement. -/
structure Declared (c : Context) (node : Node) (c' : Context) : Prop where
  «variables» : c'.ownVariables = c.ownVariables ++ node.variableName?.toList
  functions : c'.ownFunctions = c.ownFunctions ++ node.functionName?.toList

/-- A statement that declares nothing itself and leaves the names of the source alone. -/
theorem declared_of_eq {c c' : Context} {node : Node}
    (hvariables : c'.ownVariables = c.ownVariables) (hfunctions : c'.ownFunctions = c.ownFunctions)
    (hvariable : node.variableName? = none) (hfunction : node.functionName? = none) :
    Declared c node c' := by
  constructor
  · rw [hvariable, Option.toList_none, List.append_nil, hvariables]
  · rw [hfunction, Option.toList_none, List.append_nil, hfunctions]

private theorem yields_declareText_entries (t : Table Variable) (name : String) (isMutable : Bool)
    (initializer : List Node) (l : Location) :
    Yields (declareText t name isMutable initializer l) fun r =>
      r.2 = t.declare { name := name, location := some l, immutable := !isMutable } := by
  rw [declareText]
  cases t.find? name with
  | some taken => exact .error
  | none =>
    by_cases hconstant : (!isMutable && initializer.isEmpty) = true
    · simp only [if_pos hconstant]
      exact .error
    · simp only [if_neg hconstant]
      exact (yields_initializerText initializer).map fun _ _ => rfl

private theorem yields_emitImport_declared (c : Context) (path : String) (newName : Option String)
    (isLocal : Bool) (l : Location) :
    Yields (emitImport c path l).result
      fun r => Declared c (.importDecl path newName isLocal l) r.2 := by
  rw [emitImport]
  split
  · exact .error
  · split
    · exact .ok (declared_of_eq rfl rfl rfl rfl)
    · split
      · exact .error
      · obtain ⟨hvariables, hfunctions⟩ := c.own_withLibrary coreIo
        exact .ok (declared_of_eq hvariables hfunctions rfl rfl)

/-- A function adds one binding, its own name. -/
private theorem yields_emitFn_declared (c : Context) (name : String) (params body : List Node)
    (l : Location) :
    Yields (emitFn c name params body l).result
      fun r => Declared c (.fnDecl name params body l) r.2 := by
  unfold emitFn
  split
  · exact .error
  · exact .error
  · rw [Emission.result_bind]
    refine (yields_emitBody c.variables {} body).map fun _ _ => ⟨?_, ?_⟩
    · exact (List.append_nil _).symm
    · rw [Context.ownFunctions, Table.entries_declare, List.map_append, ownNames_append]
      rfl

/-- **An accepted statement adds its own name to the declarations**, if it has one. -/
theorem yields_emit_declared (c : Context) (node : Node) :
    Yields (emit c node).result fun r => Declared c node r.2 := by
  have hsame (hvariable : node.variableName? = none) (hfunction : node.functionName? = none) :
      Declared c node c := declared_of_eq rfl rfl hvariable hfunction
  cases node with
  | endOfFile | token | unaryOp | binaryOp => exact .ok (hsame rfl rfl)
  | fnParams => exact .error
  | importDecl path newName isLocal l => exact yields_emitImport_declared c path newName isLocal l
  | fnDecl name params body l => exact yields_emitFn_declared c name params body l
  | expr items l =>
    rw [emit, Emission.result_bind]
    refine (Yields.ok (P := fun _ => True) True.intro).bind fun _ _ => ?_
    rw [Emission.result_bind, Emission.result_lift]
    exact (yields_exprText items).map fun _ _ => hsame rfl rfl
  | assignment name items l =>
    rw [emit, Emission.result_bind, Emission.result_lift]
    exact (yields_assignText ⟨none, c.variables⟩ name items l).map fun _ _ => hsame rfl rfl
  | fnCall name args l =>
    rw [emit, Emission.result_bind, Emission.result_lift]
    exact (yields_callText name args l).map fun _ _ => hsame rfl rfl
  | varDecl name isMutable initializer l =>
    rw [emit, Emission.result_bind, Emission.result_lift]
    refine (yields_declareText_entries c.variables name isMutable initializer l).map
      fun r hr => ⟨?_, ?_⟩
    · rw [Context.ownVariables, hr, Table.entries_declare, List.map_append, ownNames_append]
      rfl
    · exact (List.append_nil _).symm

/-! ### Scripts that can be built -/

namespace Script.Built

variable {before : List Node} {s : Script}

/-- **The declarations of a script are those of its statements**, in their order. -/
theorem ownNames_eq (h : Built before s) :
    s.context.ownVariables = before.filterMap Node.variableName? ∧
      s.context.ownFunctions = before.filterMap Node.functionName? := by
  induction h with
  | start => exact ⟨rfl, rfl⟩
  | @accepted before s s' node _ hadd ih =>
    obtain ⟨text, hresult, -⟩ := of_add_eq_none hadd
    have hdeclared : Declared s.context node s'.context := yields_emit_declared _ node _ hresult
    rw [hdeclared.variables, hdeclared.functions, ih.1, ih.2, List.filterMap_append,
      List.filterMap_append]
    exact ⟨rfl, rfl⟩
  | rejected _ hadd ih =>
    rw [(of_add_eq_some hadd).1]
    exact ih
  | drained _ ih => exact ih

/-- No two variables of a script share a name. -/
theorem nodup_variableNames (h : Built before s) :
    (before.filterMap Node.variableName?).Nodup := by
  rw [← h.ownNames_eq.1]
  refine (ownNames_sublist _).nodup ?_
  rw [List.map_map]
  exact h.recorded.variables.distinct

/-- No two functions of a script share a name. -/
theorem nodup_functionNames (h : Built before s) :
    (before.filterMap Node.functionName?).Nodup := by
  rw [← h.ownNames_eq.2]
  refine (ownNames_sublist _).nodup ?_
  rw [List.map_map]
  exact h.recorded.distinct

end Script.Built

/-! ### Imports -/

/-- A name of `coreIo` that is declared among earlier statements, and as what it is in the library:
a constant as a variable, a function as a function. -/
def ClashesWithIo (before : List Node) (name : String) : Prop :=
  (name ∈ coreIo.constants ∧ name ∈ before.filterMap Node.variableName?) ∨
    (name ∈ coreIo.functions ∧ name ∈ before.filterMap Node.functionName?)

section Import

variable {before : List Node} {s : Script}

/-- As long as nothing is imported, the names that are taken are those that are declared. -/
theorem Script.Built.find?_eq_none_iff (h : Script.Built before s)
    (hfresh : before.any Node.isIoImport = false) (name : String) :
    (s.context.variables.find? name = none ↔ name ∉ before.filterMap Node.variableName?) ∧
      (s.context.functions.find? name = none ↔ name ∉ before.filterMap Node.functionName?) := by
  obtain ⟨hvariables, hfunctions⟩ := h.recorded.any_isIoImport_eq_false_iff.mp hfresh
  have hown : s.context.ownVariables = s.context.variables.entries.map Named.name := by
    rw [Context.ownVariables, ownNames_eq_map (by simpa using hvariables), List.map_map]
    rfl
  have hown' : s.context.ownFunctions = s.context.functions.entries.map Named.name := by
    rw [Context.ownFunctions, ownNames_eq_map (by simpa using hfunctions), List.map_map]
    rfl
  rw [← h.ownNames_eq.1, ← h.ownNames_eq.2, hown, hown', Table.find?_eq_none_iff,
    Table.find?_eq_none_iff]
  simp

/-- Exactly if no name clashes, the look-up of clashes finds nothing; else it finds one of them. -/
theorem Script.Built.clash?_cases (h : Script.Built before s)
    (hfresh : before.any Node.isIoImport = false) :
    (s.context.clash? coreIo = none ∧ ∀ name, ¬ ClashesWithIo before name) ∨
      ∃ name declared, s.context.clash? coreIo = some (name, declared) ∧
        ClashesWithIo before name := by
  cases hclash : s.context.clash? coreIo with
  | none =>
    refine .inl ⟨rfl, ?_⟩
    obtain ⟨hconstants, hfunctions⟩ := find?_of_clash?_eq_none hclash
    rintro name (⟨hname, hdeclared⟩ | ⟨hname, hdeclared⟩)
    · exact (h.find?_eq_none_iff hfresh name).1.mp (hconstants name hname) hdeclared
    · exact (h.find?_eq_none_iff hfresh name).2.mp (hfunctions name hname) hdeclared
  | some clash =>
    obtain ⟨name, declared⟩ := clash
    refine .inr ⟨name, declared, rfl, ?_⟩
    obtain ⟨l, -, ⟨hname, _, _, hmem⟩ | ⟨hname, _, _, hmem⟩⟩ :=
      exists_declared_of_clash? h.recorded hfresh hclash
    · exact .inl ⟨hname, List.mem_filterMap.mpr ⟨_, hmem, rfl⟩⟩
    · exact .inr ⟨hname, List.mem_filterMap.mpr ⟨_, hmem, rfl⟩⟩

/-- **A first import of `coreIo` is rejected exactly if one of its names is declared as what it is
in the library**: a constant as a variable, or a function as a function. Then one of these names is
reported, at the import, and the text and the context of the script stay as they were. -/
theorem import_rejected_iff (h : Script.Built before s)
    (hfresh : before.any Node.isIoImport = false) (newName : Option String) (isLocal : Bool)
    (l : Location) :
    ((∃ e, (s.add (.importDecl coreIo.name newName isLocal l)).2 = some e) ↔
      ∃ name, ClashesWithIo before name) ∧
    ∀ s' e, s.add (.importDecl coreIo.name newName isLocal l) = (s', some e) →
      (∃ name, e.cause = .importConflict coreIo.name name ∧ ClashesWithIo before name) ∧
        e.location = l ∧ s'.output = s.output ∧ s'.context = s.context := by
  have himported : s.context.hasImported coreIo.name = false := by
    rw [h.context_eq.1, hfresh]
  rcases h.clash?_cases hfresh with ⟨hclash, hnone⟩ | ⟨name, declared, hclash, hname⟩
  · have hresult : (emit s.context (.importDecl coreIo.name newName isLocal l)).result =
        .ok (some coreIo.text, s.context.withLibrary coreIo) := by
      rw [emit, emitImport, if_neg (not_not_intro rfl), himported, if_neg Bool.false_ne_true,
        hclash]
      rfl
    have hadd := (Script.add_of_ok hresult).1
    refine ⟨⟨?_, ?_⟩, ?_⟩
    · rintro ⟨e, he⟩
      rw [hadd] at he
      cases he
    · rintro ⟨name, hname⟩
      exact absurd hname (hnone name)
    · intro s' e he
      rw [he] at hadd
      cases hadd
  · have hresult : (emit s.context (.importDecl coreIo.name newName isLocal l)).result =
        .error ⟨.importConflict coreIo.name name, l, declared.toList.map declaredNote⟩ := by
      rw [emit, emitImport, if_neg (not_not_intro rfl), himported, if_neg Bool.false_ne_true,
        hclash]
      rfl
    refine ⟨⟨fun _ => ⟨name, hname⟩, fun _ => ⟨_, (Script.add_of_error hresult).1⟩⟩, ?_⟩
    intro s' e hadd
    have he := Script.result_of_add_eq_some hadd
    rw [hresult] at he
    obtain rfl := Except.error.inj he
    obtain ⟨hcontext, houtput⟩ := Script.of_add_eq_some hadd
    exact ⟨⟨name, rfl, hname⟩, rfl, houtput, hcontext⟩

end Import

/-- The function `print` clashes, the variable `flush` in front of it does not. -/
theorem import_rejected_iff_print :
    let before : List Node :=
      [.varDecl "flush" true [] ⟨"m", 1, 4⟩, .fnDecl "print" [] [] ⟨"m", 2, 3⟩]
    let library : Node := .importDecl coreIo.name none false ⟨"m", 3, 0⟩
    ∃ s s' e, Script.Built before s ∧ before.any Node.isIoImport = false ∧
      ClashesWithIo before "print" ∧ s.add library = (s', some e) ∧
      (∃ name, e.cause = .importConflict coreIo.name name ∧ ClashesWithIo before name) ∧
      e.location = ⟨"m", 3, 0⟩ ∧ s'.output = s.output ∧ s'.context = s.context := by
  intro before library
  let s₁ := (Script.add {} (.varDecl "flush" true [] ⟨"m", 1, 4⟩)).1
  let s₂ := (s₁.add (.fnDecl "print" [] [] ⟨"m", 2, 3⟩)).1
  have hbuilt : Script.Built before s₂ :=
    .accepted (.accepted .start (by rfl : Script.add {} _ = (s₁, none)))
      (by rfl : s₁.add _ = (s₂, none))
  have hclash : ClashesWithIo before "print" := .inr ⟨by decide, by decide⟩
  obtain ⟨hiff, hrest⟩ := import_rejected_iff hbuilt rfl none false ⟨"m", 3, 0⟩
  obtain ⟨e, he⟩ := hiff.mpr ⟨_, hclash⟩
  have hadd : s₂.add library = ((s₂.add library).1, some e) := Prod.ext rfl he
  exact ⟨s₂, _, e, hbuilt, rfl, hclash, hadd, hrest _ _ hadd⟩

/-- **Names of the other kind are overlooked**: a function `stdin` and a variable `print` do not
keep `coreIo` from being imported, which provides a constant and a function of these names. -/
theorem import_accepted_across_kinds :
    let before : List Node :=
      [.fnDecl "stdin" [] [] ⟨"m", 1, 3⟩, .varDecl "print" true [] ⟨"m", 2, 4⟩]
    ∃ s, Script.Built before s ∧ before.any Node.isIoImport = false ∧
      "stdin" ∈ coreIo.constants ∧ "stdin" ∈ before.filterMap Node.functionName? ∧
      "print" ∈ coreIo.functions ∧ "print" ∈ before.filterMap Node.variableName? ∧
      (s.add (.importDecl coreIo.name none false ⟨"m", 3, 0⟩)).2 = none := by
  intro before
  let s₁ := (Script.add {} (.fnDecl "stdin" [] [] ⟨"m", 1, 3⟩)).1
  let s₂ := (s₁.add (.varDecl "print" true [] ⟨"m", 2, 4⟩)).1
  have hbuilt : Script.Built before s₂ :=
    .accepted (.accepted .start (by rfl : Script.add {} _ = (s₁, none)))
      (by rfl : s₁.add _ = (s₂, none))
  exact ⟨s₂, hbuilt, rfl, by decide, by decide, by decide, by decide, rfl⟩

end Dwo
