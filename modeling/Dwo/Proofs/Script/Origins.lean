import Dwo.Proofs.Script.Rendering

/-!
# Where names come from

A script records every name that is taken. Each record comes from somewhere: from a declaration
among the statements that have been accepted, which has a place, or from `coreIo`, which one of them
imports. `Binding.From` says which, and `Context.Recorded` says that it holds of a whole context, in
which no name is recorded twice.

An error about a name that is taken has one remark, and the remark says where the name comes from
(`Explained`). The main result, `context_recorded_of_built`, states both for every script that can
be built. They are proved together, since a statement is rejected or recorded after the same
look-up; `Ends` composes what holds of a value and of an error.

* `Variable.HasOrigin`, `Function.HasOrigin`: the record of a name, compared with the statements
  in front of it;
* `Table.Distinct`: no name has two entries;
* `Note.PointsBack`: a remark names the place of the declaration, or the library.

The invariant `Context.Recorded` is kept by every statement that is accepted (`ends_emit`), and
the same look-ups explain the error of one that is not. A body has variables of its own, which
are recorded against the statements in front of them in the body, so `ends_emitBody` is an
induction on the body with both tables at hand.
-/

namespace Dwo

/-! ### Origins -/

/-- A binding comes from a declaration of its name, or from `coreIo`. -/
inductive Binding.From (declared : String → Location → Prop) (provided : String → Prop) :
    Binding → Prop where
  | source {name : String} {l : Location} :
      declared name l → From declared provided { name := name, location := some l }
  | library {name : String} :
      provided name → From declared provided { name := name, library := some coreIo.name }

/-- A remark at `here` on where `name` comes from: it points at a declaration, or names `coreIo`. -/
inductive Note.PointsBack (name : String) (here : Location) (declared : Location → Prop)
    (provided : Prop) : Note → Prop where
  | declared {l : Location} : declared l → PointsBack name here declared provided (declaredNote l)
  | provided : provided → PointsBack name here declared provided
      ⟨here, "`" ++ name ++ "` is provided by `" ++ coreIo.name ++ "`"⟩

/-- A note that points back still does so when more is declared. -/
theorem Note.PointsBack.mono {name : String} {here : Location}
    {declared declared' : Location → Prop} {provided provided' : Prop} {note : Note}
    (h : note.PointsBack name here declared provided)
    (hdeclared : ∀ l, declared l → declared' l) (hprovided : provided → provided') :
    note.PointsBack name here declared' provided' := by
  cases h with
  | declared hl => exact .declared (hdeclared _ hl)
  | provided hp => exact .provided (hprovided hp)

namespace Binding.From

variable {declared declared' : String → Location → Prop} {provided provided' : String → Prop}
  {b : Binding}

theorem mono (h : b.From declared provided)
    (hdeclared : ∀ name l, declared name l → declared' name l)
    (hprovided : ∀ name, provided name → provided' name) : b.From declared' provided' := by
  cases h with
  | source hsource => exact .source (hdeclared _ _ hsource)
  | library hlibrary => exact .library (hprovided _ hlibrary)

/-- Only the bindings of a library have no place. -/
theorem isSome_library_iff (h : b.From declared provided) :
    b.library.isSome = true ↔ b.location = none := by
  cases h <;> simp

private theorem provided_of_library (h : b.From declared provided) (hlibrary : b.library ≠ none) :
    provided b.name := by
  cases h with
  | source => exact absurd rfl hlibrary
  | library hprovided => exact hprovided

/-- A name that no library provides has been declared. -/
theorem exists_declared (h : b.From declared provided) (hnot : ¬ provided b.name) :
    ∃ l, b.location = some l ∧ declared b.name l := by
  cases h with
  | source hsource => exact ⟨_, rfl, hsource⟩
  | library hlibrary => exact absurd hlibrary hnot

/-- The remark on a binding says where it comes from. -/
theorem note_pointsBack (h : b.From declared provided) (here : Location) :
    (b.note here).PointsBack b.name here (declared b.name) (provided b.name) := by
  cases h with
  | source hsource => exact .declared hsource
  | library hlibrary => exact .provided hlibrary

end Binding.From

/-- The record of a variable comes from the statements `earlier`, with the right mutability. -/
def Variable.HasOrigin (earlier : List Node) (v : Variable) : Prop :=
  v.toBinding.From
    (fun name l => ∃ initializer, .varDecl name (!v.immutable) initializer l ∈ earlier)
    fun name => name ∈ coreIo.constants ∧ v.immutable = true ∧ earlier.any Node.isIoImport = true

/-- The record of a function comes from the statements `earlier`. -/
def Function.HasOrigin (earlier : List Node) (f : Function) : Prop :=
  f.toBinding.From (fun name l => ∃ params body, .fnDecl name params body l ∈ earlier)
    fun name => name ∈ coreIo.functions ∧ earlier.any Node.isIoImport = true

private theorem any_concat_of_any {earlier : List Node} {node : Node} {p : Node → Bool}
    (h : earlier.any p = true) : (earlier ++ [node]).any p = true := by
  rw [List.any_append, h, Bool.true_or]

/-- A variable keeps its origin while further nodes are read. -/
theorem Variable.HasOrigin.concat {earlier : List Node} {node : Node} {v : Variable}
    (h : v.HasOrigin earlier) : v.HasOrigin (earlier ++ [node]) := by
  refine h.mono ?_ ?_
  · rintro name l ⟨initializer, hmem⟩
    exact ⟨initializer, List.mem_append_left _ hmem⟩
  · rintro name ⟨hname, himmutable, himported⟩
    exact ⟨hname, himmutable, any_concat_of_any himported⟩

/-- A function keeps its origin while further nodes are read. -/
theorem Function.HasOrigin.concat {earlier : List Node} {node : Node} {f : Function}
    (h : f.HasOrigin earlier) : f.HasOrigin (earlier ++ [node]) := by
  refine h.mono ?_ ?_
  · rintro name l ⟨params, body, hmem⟩
    exact ⟨params, body, List.mem_append_left _ hmem⟩
  · rintro name ⟨hname, himported⟩
    exact ⟨hname, any_concat_of_any himported⟩

/-! ### Tables without repetition -/

namespace Table

variable {α : Type} [Named α] {t : Table α}

/-- No name is recorded twice. -/
def Distinct (t : Table α) : Prop :=
  (t.entries.map Named.name).Nodup

private theorem of_find?_eq_some {name : String} {a : α} (h : t.find? name = some a) :
    a ∈ t.entries ∧ Named.name a = name :=
  ⟨List.mem_of_find?_eq_some h, by simpa using List.find?_some h⟩

/-- A name is free exactly when no entry of the table bears it. -/
theorem find?_eq_none_iff {name : String} :
    t.find? name = none ↔ ∀ a ∈ t.entries, Named.name a ≠ name := by
  simp [find?]

/-- New names can be recorded if they are free and differ from each other. -/
theorem Distinct.declareAll {entries : List α} (h : t.Distinct)
    (hentries : (entries.map Named.name).Nodup)
    (hfree : ∀ a ∈ entries, t.find? (Named.name a) = none) : (t.declareAll entries).Distinct := by
  rw [Distinct, entries_declareAll, List.map_append, List.nodup_append]
  refine ⟨h, hentries, ?_⟩
  intro name hname name' hname' heq
  obtain ⟨a, ha, rfl⟩ := List.mem_map.mp hname
  obtain ⟨b, hb, rfl⟩ := List.mem_map.mp hname'
  exact find?_eq_none_iff.mp (hfree b hb) a ha heq

/-- Declaring a free name keeps the names of the table distinct. -/
theorem Distinct.declare {a : α} (h : t.Distinct) (hfree : t.find? (Named.name a) = none) :
    (t.declare a).Distinct := by
  have hone : (t.declareAll [a]).Distinct := by
    refine h.declareAll (List.nodup_singleton _) fun b hb => ?_
    rw [List.mem_singleton.mp hb]
    exact hfree
  exact hone

end Table

/-- A table of variables records the declarations among the statements `earlier`. -/
structure Table.Records (t : Table Variable) (earlier : List Node) : Prop where
  distinct : t.Distinct
  origin : ∀ v ∈ t.entries, v.HasOrigin earlier
  declared : ∀ name isMutable initializer l, .varDecl name isMutable initializer l ∈ earlier →
    t.find? name ≠ none

namespace Table.Records

variable {t : Table Variable} {earlier : List Node}

theorem initial : ({} : Table Variable).Records [] :=
  ⟨List.nodup_nil, fun _ hv => (by cases hv), fun _ _ _ _ hmem => by cases hmem⟩

/-- A statement that declares no variable changes nothing. -/
theorem concat {node : Node} (h : t.Records earlier)
    (hnode : ∀ name isMutable initializer l, node ≠ .varDecl name isMutable initializer l) :
    t.Records (earlier ++ [node]) := by
  refine ⟨h.distinct, fun v hv => (h.origin v hv).concat, ?_⟩
  intro name isMutable initializer l hmem
  rcases List.mem_append.mp hmem with hmem | hmem
  · exact h.declared _ _ _ _ hmem
  · exact absurd (List.mem_singleton.mp hmem).symm (hnode _ _ _ _)

/-- A declaration of a free name is recorded. -/
theorem declare {name : String} {isMutable : Bool} {initializer : List Node} {l : Location}
    (h : t.Records earlier) (hfree : t.find? name = none) :
    (t.declare { name := name, location := some l, immutable := !isMutable }).Records
      (earlier ++ [.varDecl name isMutable initializer l]) := by
  refine ⟨h.distinct.declare hfree, ?_, ?_⟩
  · intro v hv
    rcases List.mem_append.mp hv with hv | hv
    · exact (h.origin v hv).concat
    · obtain rfl := List.mem_singleton.mp hv
      refine .source ⟨initializer, ?_⟩
      simp
  · intro name' isMutable' initializer' l' hmem
    rw [find?_declare]
    rcases List.mem_append.mp hmem with hmem | hmem
    · rw [ne_eq, Option.or_eq_none_iff]
      exact fun hnone => h.declared _ _ _ _ hmem hnone.1
    · obtain ⟨rfl, -⟩ := Node.varDecl.inj (List.mem_singleton.mp hmem)
      simp [Named.name]

end Table.Records

/-! ### Errors about names -/

/-- Whether a statement is rejected because a name is taken. -/
def EmitCause.isClash : EmitCause → Bool
  | redeclaration _ | functionRedeclaration _ | assignToConstant _ | importConflict .. => true
  | _ => false

/-- An error about a statement, where `scope` are the statements in front of it, those of its
function only if it is inside one, and `before` are the top-level statements in front. If a name is
taken, there is one remark, which says where that name comes from. -/
inductive Explained (scope before : List Node) : Node → EmitError → Prop where
  | redeclaration {name : String} {isMutable : Bool} {initializer : List Node} {l : Location}
      {note : Note} :
      note.PointsBack name l (fun l' => ∃ isMutable' initializer',
          .varDecl name isMutable' initializer' l' ∈ scope)
        (name ∈ coreIo.constants ∧ scope.any Node.isIoImport = true) →
      Explained scope before (.varDecl name isMutable initializer l)
        ⟨.redeclaration name, l, [note]⟩
  | functionRedeclaration {name : String} {params body : List Node} {l : Location} {note : Note} :
      note.PointsBack name l (fun l' => ∃ params' body', .fnDecl name params' body' l' ∈ before)
        (name ∈ coreIo.functions ∧ before.any Node.isIoImport = true) →
      Explained scope before (.fnDecl name params body l) ⟨.functionRedeclaration name, l, [note]⟩
  /-- A declaration in the function hides those outside. -/
  | assignToConstant {name : String} {items : List Node} {l : Location} {note : Note} :
      (note.PointsBack name l (fun l' => ∃ initializer, .varDecl name false initializer l' ∈ scope)
          (name ∈ coreIo.constants ∧ scope.any Node.isIoImport = true) ∨
        (∀ isMutable initializer l', .varDecl name isMutable initializer l' ∉ scope) ∧
          note.PointsBack name l
            (fun l' => ∃ initializer, .varDecl name false initializer l' ∈ before)
            (name ∈ coreIo.constants ∧ before.any Node.isIoImport = true)) →
      Explained scope before (.assignment name items l) ⟨.assignToConstant name, l, [note]⟩
  | importConflict {name : String} {newName : Option String} {isLocal : Bool} {l l' : Location} :
      (name ∈ coreIo.constants ∧
          ∃ isMutable initializer, .varDecl name isMutable initializer l' ∈ before) ∨
        (name ∈ coreIo.functions ∧ ∃ params body, .fnDecl name params body l' ∈ before) →
      Explained scope before (.importDecl coreIo.name newName isLocal l)
        ⟨.importConflict coreIo.name name, l, [declaredNote l']⟩
  | other {node : Node} {e : EmitError} : e.cause.isClash = false → Explained scope before node e

/-- `item` is the statement `node` behind `before`, or a statement of the function `node`; `scope`
are the statements in front of it there. -/
inductive Node.Holds (before : List Node) : Node → (scope : List Node) → (item : Node) → Prop where
  | whole (node : Node) : Holds before node before node
  | item {name : String} {params front rest : List Node} {item : Node} {l : Location} :
      Holds before (.fnDecl name params (front ++ item :: rest) l) front item

/-! ### How a result ends -/

/-- A result is a value in `P` or an error in `E`. -/
def Ends {α : Type} (result : Except EmitError α) (P : α → Prop) (E : EmitError → Prop) : Prop :=
  match result with
  | .ok a => P a
  | .error e => E e

namespace Ends

variable {α β : Type} {P : α → Prop} {Q : β → Prop} {E E' : EmitError → Prop}

/-- A sequence ends with a value of its second part or with an error of one of the two. -/
theorem bind {x : Except EmitError α} {f : α → Except EmitError β} (hx : Ends x P E)
    (hf : ∀ a, P a → Ends (f a) Q E) : Ends (x >>= f) Q E := by
  cases x with
  | ok a => exact hf a hx
  | error e => exact hx

theorem map {x : Except EmitError α} {f : α → β} (hx : Ends x P E) (hf : ∀ a, P a → Q (f a)) :
    Ends (x >>= fun a => .ok (f a)) Q E :=
  hx.bind hf

theorem mono {x : Except EmitError α} {P' : α → Prop} (hx : Ends x P E) (hP : ∀ a, P a → P' a)
    (hE : ∀ e, E e → E' e) : Ends x P' E' := by
  cases x with
  | ok a => exact hP a hx
  | error e => exact hE e hx

end Ends

/-- An error that is not about a name. -/
def NoClash (e : EmitError) : Prop :=
  e.cause.isClash = false

private theorem ends_exprText (items : List Node) :
    Ends (exprText items) (fun _ => True) NoClash := by
  have hitem (start : Location) (item : Node) :
      Ends (exprItem start item) (fun _ => True) NoClash := by
    cases item with
    | token t =>
      rw [exprItem]
      split
      · exact True.intro
      · split
        · exact True.intro
        · rfl
    | _ => rfl
  have hitems (start : Location) (items : List Node) :
      Ends (exprItems start items) (fun _ => True) NoClash := by
    induction items with
    | nil => exact True.intro
    | cons item items ih => exact (hitem start item).bind fun _ _ => ih.map fun _ _ => True.intro
  cases items with
  | nil => exact True.intro
  | cons first rest =>
    rw [exprText_cons]
    exact hitems first.location (first :: rest)

private theorem ends_callText (name : String) (args : List Node) (l : Location) :
    Ends (callText name args l) (fun _ => True) NoClash := by
  have harg (arg : Node) : Ends (argText l arg) (fun _ => True) NoClash := by
    cases arg with
    | expr items => exact ends_exprText items
    | token t =>
      rw [argText]
      split
      · exact True.intro
      · rfl
    | _ => rfl
  have hargs (args : List Node) : Ends (argsText l args) (fun _ => True) NoClash := by
    fun_induction argsText l args with
    | case1 => exact True.intro
    | case2 arg => exact harg arg
    | case3 arg args _ ih => exact (harg arg).bind fun _ _ => ih.map fun _ _ => True.intro
  exact (hargs args).map fun _ _ => True.intro

private theorem ends_initializerText (initializer : List Node) :
    Ends (initializerText initializer) (fun _ => True) NoClash := by
  rw [initializerText]
  split
  · exact True.intro
  · exact (ends_exprText initializer).map fun _ _ => True.intro

/-! ### Statements of a function -/

section Body

variable {outer inner : Table Variable} {before front : List Node}

/-- A declaration is recorded, or its name has been. -/
theorem ends_declareText {name : String} {isMutable : Bool} {initializer : List Node} {l : Location}
    (h : inner.Records front) :
    Ends (declareText inner name isMutable initializer l)
      (fun r => r.2.Records (front ++ [.varDecl name isMutable initializer l]) ∧
        inner.entries ⊆ r.2.entries)
      (Explained front before (.varDecl name isMutable initializer l)) := by
  rw [declareText]
  cases hfind : inner.find? name with
  | some taken =>
    obtain ⟨hmem, rfl⟩ := Table.of_find?_eq_some hfind
    refine .redeclaration (((h.origin taken hmem).note_pointsBack l).mono ?_ ?_)
    · rintro l' ⟨initializer', hdeclared⟩
      exact ⟨_, initializer', hdeclared⟩
    · rintro ⟨hname, -, himported⟩
      exact ⟨hname, himported⟩
  | none =>
    simp only
    split
    · exact .other rfl
    · refine ((ends_initializerText initializer).mono (fun _ h => h) fun _ => .other).map ?_
      exact fun _ _ => ⟨h.declare hfind, List.subset_append_left _ _⟩

/-- The remark on an immutable variable points at an immutable declaration, or names `coreIo`. -/
theorem note_pointsBack_of_immutable {t : Table Variable} {earlier : List Node} {v : Variable}
    (h : t.Records earlier) (hmem : v ∈ t.entries) (himmutable : v.immutable = true)
    (l : Location) :
    (v.note l).PointsBack v.name l
      (fun l' => ∃ initializer, .varDecl v.name false initializer l' ∈ earlier)
      (v.name ∈ coreIo.constants ∧ earlier.any Node.isIoImport = true) := by
  refine ((h.origin v hmem).note_pointsBack l).mono ?_ ?_
  · rintro l' ⟨initializer, hdeclared⟩
    rw [himmutable] at hdeclared
    exact ⟨initializer, hdeclared⟩
  · rintro ⟨hname, -, himported⟩
    exact ⟨hname, himported⟩

private theorem ends_assignText {scope : Scope} {name : String} {items : List Node} {l : Location}
    (h : ∀ v, scope.lookup? name = some v → v.immutable = true →
      Explained front before (.assignment name items l)
        ⟨.assignToConstant name, l, [v.note l]⟩) :
    Ends (assignText scope name items l) (fun _ => True)
      (Explained front before (.assignment name items l)) := by
  rw [assignText]
  cases hfilter : (scope.lookup? name).filter (·.immutable) with
  | some constant =>
    obtain ⟨hlookup, himmutable⟩ := Option.filter_eq_some_iff.mp hfilter
    exact h constant hlookup himmutable
  | none =>
    exact ((ends_exprText items).mono (fun _ h => h) fun _ => .other).map fun _ _ => True.intro

/-- An assignment in a function goes to the variable that is declared there, if there is one. -/
theorem explained_of_lookup? {name : String} {items : List Node} {l : Location} {v : Variable}
    (houter : outer.Records before) (hinner : inner.Records front)
    (hlookup : Scope.lookup? ⟨some inner, outer⟩ name = some v) (himmutable : v.immutable = true) :
    Explained front before (.assignment name items l)
      ⟨.assignToConstant name, l, [v.note l]⟩ := by
  have hor : (inner.find? name).or (outer.find? name) = some v := hlookup
  rcases Option.or_eq_some_iff.mp hor with hfind | ⟨hnone, hfind⟩
  · obtain ⟨hmem, rfl⟩ := Table.of_find?_eq_some hfind
    exact .assignToConstant (.inl (note_pointsBack_of_immutable hinner hmem himmutable l))
  · obtain ⟨hmem, rfl⟩ := Table.of_find?_eq_some hfind
    refine .assignToConstant (.inr ⟨?_, note_pointsBack_of_immutable houter hmem himmutable l⟩)
    exact fun isMutable initializer l' hdeclared => hinner.declared _ _ _ _ hdeclared hnone

/-- **A statement of a function is recorded, or its error is explained.** -/
theorem ends_emitBodyItem (houter : outer.Records before) (hinner : inner.Records front)
    (item : Node) :
    Ends (emitBodyItem outer inner item).result (fun r => r.2.Records (front ++ [item]))
      (Explained front before item) := by
  cases item with
  | token t => exact hinner.concat fun _ _ _ _ h => by cases h
  | expr items l =>
    rw [emitBodyItem, Emission.result_bind]
    refine Ends.bind (P := fun _ => True) True.intro fun _ _ => ?_
    rw [Emission.result_bind, Emission.result_lift]
    refine ((ends_exprText items).mono (fun _ h => h) fun _ => .other).map fun _ _ => ?_
    exact hinner.concat fun _ _ _ _ h => by cases h
  | varDecl name isMutable initializer l =>
    rw [emitBodyItem, Emission.result_bind, Emission.result_lift]
    exact (ends_declareText hinner).map fun _ hr => hr.1
  | assignment name items l =>
    rw [emitBodyItem, Emission.result_bind, Emission.result_lift]
    refine (ends_assignText fun v => explained_of_lookup? houter hinner).map fun _ _ => ?_
    exact hinner.concat fun _ _ _ _ h => by cases h
  | fnCall name args l =>
    rw [emitBodyItem, Emission.result_bind, Emission.result_lift]
    refine ((ends_callText name args l).mono (fun _ h => h) fun _ => .other).map fun _ _ => ?_
    exact hinner.concat fun _ _ _ _ h => by cases h
  | _ => exact .other rfl

/-- **The error of a body is that of one of its statements**, explained by those in front. -/
theorem ends_emitBody (houter : outer.Records before) (hinner : inner.Records front)
    (items : List Node) :
    Ends (emitBody outer inner items).result (fun _ => True) fun e =>
      ∃ passed item rest, items = passed ++ item :: rest ∧
        Explained (front ++ passed) before item e := by
  induction items generalizing inner front with
  | nil => exact True.intro
  | cons item items ih =>
    rw [emitBody, Emission.result_bind]
    refine ((ends_emitBodyItem houter hinner item).mono (fun _ h => h) ?_).bind fun r hr => ?_
    · intro e he
      exact ⟨[], item, items, rfl, (List.append_nil front).symm ▸ he⟩
    · rw [Emission.result_bind]
      refine ((ih hr).mono (fun _ h => h) ?_).map fun _ _ => True.intro
      rintro e ⟨passed, item', rest, rfl, he⟩
      exact ⟨item :: passed, item', rest, rfl, by rwa [List.append_cons]⟩

end Body

/-! ### Contexts -/

/-- A context records what the statements `before` have established. -/
structure Context.Recorded (c : Context) (before : List Node) : Prop where
  «variables» : c.variables.Records before
  distinct : c.functions.Distinct
  origin : ∀ f ∈ c.functions.entries, f.HasOrigin before
  hasMain_iff : c.hasMain = true ↔ ∃ f ∈ c.functions.entries, f.name = "main"
  libraries : c.libraries = if before.any Node.isIoImport then [coreIo.name] else []
  constants_mem : before.any Node.isIoImport = true → ∀ name ∈ coreIo.constants,
    { name := name, library := some coreIo.name, immutable := true } ∈ c.variables.entries
  functions_mem : before.any Node.isIoImport = true → ∀ name ∈ coreIo.functions,
    { name := name, library := some coreIo.name } ∈ c.functions.entries

namespace Context.Recorded

variable {c : Context} {before : List Node}

theorem initial : ({} : Context).Recorded [] where
  «variables» := .initial
  distinct := List.nodup_nil
  origin f hf := by cases hf
  hasMain_iff := by simp
  libraries := rfl
  constants_mem h := by cases h
  functions_mem h := by cases h

/-- The context knows whether the library has been included. -/
private theorem hasImported_eq (h : c.Recorded before) :
    c.hasImported coreIo.name = before.any Node.isIoImport := by
  rw [Context.hasImported, h.libraries]
  cases before.any Node.isIoImport <;> rfl

/-- A statement that is neither an import nor a declaration of a function, with the table of
variables behind it. -/
theorem concat {node : Node} {t : Table Variable} (h : c.Recorded before)
    (hvariables : t.Records (before ++ [node])) (hsub : c.variables.entries ⊆ t.entries)
    (hio : node.isIoImport = false) :
    ({ c with «variables» := t } : Context).Recorded (before ++ [node]) := by
  have hany : (before ++ [node]).any Node.isIoImport = before.any Node.isIoImport := by
    simp [hio]
  refine ⟨hvariables, h.distinct, fun f hf => (h.origin f hf).concat, h.hasMain_iff, ?_, ?_, ?_⟩
  · rw [hany]
    exact h.libraries
  · rw [hany]
    exact fun himported name hname => hsub (h.constants_mem himported name hname)
  · rw [hany]
    exact h.functions_mem

/-- A function of a free name is recorded. -/
theorem define {name : String} {params body : List Node} {l : Location} (h : c.Recorded before)
    (hfree : c.functions.find? name = none) :
    ({ c with
        functions := c.functions.declare { name := name, location := some l }
        hasMain := c.hasMain || decide (name = "main") } : Context).Recorded
      (before ++ [.fnDecl name params body l]) := by
  have hany : (before ++ [Node.fnDecl name params body l]).any Node.isIoImport =
      before.any Node.isIoImport := by
    simp [Node.isIoImport]
  refine ⟨h.variables.concat fun _ _ _ _ h => (by cases h), h.distinct.declare hfree, ?_, ?_, ?_,
    ?_, ?_⟩
  · intro f hf
    rcases List.mem_append.mp hf with hf | hf
    · exact (h.origin f hf).concat
    · obtain rfl := List.mem_singleton.mp hf
      refine .source ⟨params, body, ?_⟩
      simp
  · rw [Bool.or_eq_true, h.hasMain_iff, decide_eq_true_eq]
    simp only [Table.entries_declare, List.mem_append, List.mem_singleton, or_and_right, exists_or,
      exists_eq_left]
  · rw [hany]
    exact h.libraries
  · rw [hany]
    exact h.constants_mem
  · rw [hany]
    exact fun himported n hn => List.mem_append_left _ (h.functions_mem himported n hn)

/-- The constants of the library are recorded, if none of their names is taken. -/
theorem records_withLibrary {newName : Option String} {isLocal : Bool} {l : Location}
    (h : c.variables.Records before)
    (hconstants : ∀ name ∈ coreIo.constants, c.variables.find? name = none) :
    (c.withLibrary coreIo).variables.Records
      (before ++ [.importDecl coreIo.name newName isLocal l]) := by
  refine ⟨?_, ?_, ?_⟩
  · refine h.distinct.declareAll (by decide) fun v hv => ?_
    obtain ⟨name, hname, rfl⟩ := List.mem_map.mp hv
    exact hconstants name hname
  · intro v hv
    rcases List.mem_append.mp hv with hv | hv
    · exact (h.origin v hv).concat
    · obtain ⟨name, hname, rfl⟩ := List.mem_map.mp hv
      exact .library ⟨hname, rfl, by simp [Node.isIoImport]⟩
  · intro name isMutable initializer l' hmem
    have hmem : .varDecl name isMutable initializer l' ∈ before := by simpa using hmem
    rw [Context.withLibrary, Table.find?, Table.entries_declareAll, List.find?_append, ne_eq,
      Option.or_eq_none_iff]
    exact fun hnone => h.declared _ _ _ _ hmem hnone.1

/-- If none of its names is taken, the library can be imported. -/
theorem withLibrary {newName : Option String} {isLocal : Bool} {l : Location}
    (h : c.Recorded before)
    (hfresh : before.any Node.isIoImport = false)
    (hconstants : ∀ name ∈ coreIo.constants, c.variables.find? name = none)
    (hfunctions : ∀ name ∈ coreIo.functions, c.functions.find? name = none) :
    (c.withLibrary coreIo).Recorded (before ++ [.importDecl coreIo.name newName isLocal l]) := by
  have hany : (before ++ [Node.importDecl coreIo.name newName isLocal l]).any
      Node.isIoImport = true := by
    simp [Node.isIoImport]
  refine ⟨records_withLibrary h.variables hconstants, ?_, ?_, ?_, ?_, ?_, ?_⟩
  · refine h.distinct.declareAll (by decide) fun f hf => ?_
    obtain ⟨name, hname, rfl⟩ := List.mem_map.mp hf
    exact hfunctions name hname
  · intro f hf
    rcases List.mem_append.mp hf with hf | hf
    · exact (h.origin f hf).concat
    · obtain ⟨name, hname, rfl⟩ := List.mem_map.mp hf
      exact .library ⟨hname, hany⟩
  · -- No function of the library is called `main`.
    refine h.hasMain_iff.trans ?_
    have hnone : ∀ name ∈ coreIo.functions, name ≠ "main" := by
      intro name hname
      rcases mem_functions_coreIo_iff.mp hname with rfl | rfl | rfl | rfl <;> decide
    simp only [Context.withLibrary, Table.entries_declareAll, List.mem_append, List.mem_map]
    constructor
    · rintro ⟨f, hf, hmain⟩
      exact ⟨f, .inl hf, hmain⟩
    · rintro ⟨f, hf | ⟨name, hname, rfl⟩, hmain⟩
      · exact ⟨f, hf, hmain⟩
      · exact absurd hmain (hnone name hname)
  · rw [hany, Context.withLibrary, h.libraries, hfresh]
    rfl
  · exact fun _ name hname => List.mem_append_right _ (List.mem_map.mpr ⟨name, hname, rfl⟩)
  · exact fun _ name hname => List.mem_append_right _ (List.mem_map.mpr ⟨name, hname, rfl⟩)

/-- The library can be imported again, to no effect. -/
theorem importAgain {newName : Option String} {isLocal : Bool} {l : Location}
    (h : c.Recorded before)
    (himported : before.any Node.isIoImport = true) :
    c.Recorded (before ++ [.importDecl coreIo.name newName isLocal l]) := by
  have hany : (before ++ [Node.importDecl coreIo.name newName isLocal l]).any
      Node.isIoImport = true := any_concat_of_any himported
  refine ⟨h.variables.concat fun _ _ _ _ h => (by cases h), h.distinct,
    fun f hf => (h.origin f hf).concat, h.hasMain_iff, ?_, fun _ => h.constants_mem himported,
    fun _ => h.functions_mem himported⟩
  rw [hany, h.libraries, himported]

end Context.Recorded

/-! ### Top-level statements -/

section Statements

variable {c : Context} {before : List Node}

/-- The name that an import is rejected for has been declared at the place that is returned. -/
theorem exists_declared_of_clash? {taken : String} {declared : Option Location}
    (h : c.Recorded before) (hfresh : before.any Node.isIoImport = false)
    (hclash : c.clash? coreIo = some (taken, declared)) :
    ∃ l, declared = some l ∧
      ((taken ∈ coreIo.constants ∧
          ∃ isMutable initializer, .varDecl taken isMutable initializer l ∈ before) ∨
        (taken ∈ coreIo.functions ∧ ∃ params body, .fnDecl taken params body l ∈ before)) := by
  rcases Option.or_eq_some_iff.mp hclash with hfound | ⟨-, hfound⟩
  · obtain ⟨name, hname, hfound⟩ := List.exists_of_findSome?_eq_some hfound
    obtain ⟨v, hfind, hpair⟩ := Option.map_eq_some_iff.mp hfound
    obtain ⟨rfl, rfl⟩ := Prod.mk.inj hpair
    obtain ⟨hmem, rfl⟩ := Table.of_find?_eq_some hfind
    obtain ⟨l, hlocation, initializer, hdeclared⟩ :=
      (h.variables.origin v hmem).exists_declared fun hprovided => by simp_all
    exact ⟨l, hlocation, .inl ⟨hname, _, initializer, hdeclared⟩⟩
  · obtain ⟨name, hname, hfound⟩ := List.exists_of_findSome?_eq_some hfound
    obtain ⟨f, hfind, hpair⟩ := Option.map_eq_some_iff.mp hfound
    obtain ⟨rfl, rfl⟩ := Prod.mk.inj hpair
    obtain ⟨hmem, rfl⟩ := Table.of_find?_eq_some hfind
    obtain ⟨l, hlocation, params, body, hdeclared⟩ :=
      (h.origin f hmem).exists_declared fun hprovided => by simp_all
    exact ⟨l, hlocation, .inr ⟨hname, params, body, hdeclared⟩⟩

/-- Where an inclusion does not clash, every name it provides is still free. -/
theorem find?_of_clash?_eq_none (h : c.clash? coreIo = none) :
    (∀ name ∈ coreIo.constants, c.variables.find? name = none) ∧
      ∀ name ∈ coreIo.functions, c.functions.find? name = none := by
  obtain ⟨hconstants, hfunctions⟩ := Option.or_eq_none_iff.mp h
  rw [List.findSome?_eq_none_iff] at hconstants hfunctions
  exact ⟨fun name hname => Option.map_eq_none_iff.mp (hconstants name hname),
    fun name hname => Option.map_eq_none_iff.mp (hfunctions name hname)⟩

private theorem ends_emitImport (h : c.Recorded before) (path : String) (newName : Option String)
    (isLocal : Bool) (l : Location) :
    Ends (emitImport c path l).result
      (fun r => r.2.Recorded (before ++ [.importDecl path newName isLocal l]))
      (Explained before before (.importDecl path newName isLocal l)) := by
  rw [emitImport]
  split
  · exact .other rfl
  · have hpath : path = coreIo.name := by simp_all
    subst hpath
    split
    · next himported =>
      rw [h.hasImported_eq] at himported
      exact h.importAgain himported
    · next hnot =>
      rw [h.hasImported_eq, Bool.not_eq_true] at hnot
      split
      · next taken declared hclash =>
        obtain ⟨l', rfl, hdeclared⟩ := exists_declared_of_clash? h hnot hclash
        exact .importConflict hdeclared
      · next hclash =>
        obtain ⟨hconstants, hfunctions⟩ := find?_of_clash?_eq_none hclash
        exact h.withLibrary hnot hconstants hfunctions

/-- A function is recorded, or the error is explained by what stands before it. -/
private theorem ends_emitFn (h : c.Recorded before) (name : String) (params body : List Node)
    (l : Location) :
    Ends (emitFn c name params body l).result
      (fun r => r.2.Recorded (before ++ [.fnDecl name params body l]))
      (fun e => ∃ scope item, (Node.fnDecl name params body l).Holds before scope item ∧
        Explained scope before item e) := by
  unfold emitFn
  split
  · next taken hfind =>
    obtain ⟨hmem, rfl⟩ := Table.of_find?_eq_some hfind
    refine ⟨before, _, .whole _, .functionRedeclaration ?_⟩
    exact (h.origin taken hmem).note_pointsBack l
  · exact ⟨before, _, .whole _, .other rfl⟩
  · next hfree =>
    rw [Emission.result_bind]
    refine ((ends_emitBody h.variables .initial body).mono (fun _ h => h) ?_).map ?_
    · rintro e ⟨passed, item, rest, rfl, he⟩
      exact ⟨passed, item, .item, he⟩
    · exact fun _ _ => h.define hfree

/-- **A statement is recorded, or its error is explained.** -/
theorem ends_emit (h : c.Recorded before) (node : Node) :
    Ends (emit c node).result (fun r => r.2.Recorded (before ++ [node]))
      (fun e => ∃ scope item, node.Holds before scope item ∧ Explained scope before item e) := by
  -- Unless a statement is recorded, it leaves the context alone.
  have hsame (hvar : ∀ name isMutable initializer l, node ≠ .varDecl name isMutable initializer l)
      (hio : node.isIoImport = false) : c.Recorded (before ++ [node]) :=
    h.concat (h.variables.concat hvar) (List.Subset.refl _) hio
  have hwhole (e : EmitError) (he : Explained before before node e) :
      ∃ scope item, node.Holds before scope item ∧ Explained scope before item e :=
    ⟨before, node, .whole node, he⟩
  cases node with
  | endOfFile | token | unaryOp | binaryOp => exact hsame (fun _ _ _ _ h => by cases h) rfl
  | fnParams => exact hwhole _ (.other rfl)
  | importDecl path newName isLocal l =>
    exact (ends_emitImport h path newName isLocal l).mono (fun _ h => h) hwhole
  | fnDecl name params body l => exact ends_emitFn h name params body l
  | expr items l =>
    rw [emit, Emission.result_bind]
    refine Ends.bind (P := fun _ => True) True.intro fun _ _ => ?_
    rw [Emission.result_bind, Emission.result_lift]
    refine ((ends_exprText items).mono (fun _ h => h) fun e he => hwhole e (.other he)).map ?_
    exact fun _ _ => hsame (fun _ _ _ _ h => by cases h) rfl
  | varDecl name isMutable initializer l =>
    rw [emit, Emission.result_bind, Emission.result_lift]
    refine ((ends_declareText h.variables).mono (fun _ h => h) hwhole).map fun r hr => ?_
    exact h.concat hr.1 hr.2 rfl
  | assignment name items l =>
    rw [emit, Emission.result_bind, Emission.result_lift]
    refine (((ends_assignText ?_).mono (fun _ h => h) hwhole)).map ?_
    · intro v hlookup himmutable
      obtain ⟨hmem, rfl⟩ := Table.of_find?_eq_some (t := c.variables) hlookup
      exact .assignToConstant (.inl (note_pointsBack_of_immutable h.variables hmem himmutable l))
    · exact fun _ _ => hsame (fun _ _ _ _ h => by cases h) rfl
  | fnCall name args l =>
    rw [emit, Emission.result_bind, Emission.result_lift]
    refine ((ends_callText name args l).mono (fun _ h => h) fun e he => hwhole e (.other he)).map ?_
    exact fun _ _ => hsame (fun _ _ _ _ h => by cases h) rfl

end Statements

/-! ### Scripts that can be built -/

/-- **A script records the statements that it has accepted**, whatever else was tried. -/
theorem Script.Built.recorded {before : List Node} {s : Script} (h : Script.Built before s) :
    s.context.Recorded before := by
  induction h with
  | start => exact .initial
  | @accepted _ _ _ node _ hadd ih =>
    obtain ⟨text, hresult, -⟩ := Script.of_add_eq_none hadd
    have hends := ends_emit ih node
    rw [hresult] at hends
    exact hends
  | rejected _ hadd ih =>
    rw [(Script.of_add_eq_some hadd).1]
    exact ih
  | drained _ ih => exact ih

namespace Context.Recorded

variable {c : Context} {before : List Node}

/-- The names of `coreIo` are recorded as its own exactly if it has been imported. -/
theorem any_isIoImport_iff (h : c.Recorded before) :
    before.any Node.isIoImport = true ↔
      (∀ name ∈ coreIo.constants, ∃ v ∈ c.variables.entries,
        v.name = name ∧ v.library = some coreIo.name ∧ v.immutable = true) ∧
      ∀ name ∈ coreIo.functions, ∃ f ∈ c.functions.entries,
        f.name = name ∧ f.library = some coreIo.name := by
  constructor
  · intro himported
    exact ⟨fun name hname => ⟨_, h.constants_mem himported name hname, rfl, rfl, rfl⟩,
      fun name hname => ⟨_, h.functions_mem himported name hname, rfl, rfl⟩⟩
  · rintro ⟨hconstants, -⟩
    obtain ⟨v, hmem, -, hlibrary, -⟩ := hconstants "stdin" (mem_constants_coreIo_iff.mpr (.inl rfl))
    have hsome : v.library ≠ none := by simp [hlibrary]
    exact ((h.variables.origin v hmem).provided_of_library hsome).2.2

/-- Only `coreIo` leaves records that have a library. -/
theorem any_isIoImport_eq_false_iff (h : c.Recorded before) :
    before.any Node.isIoImport = false ↔
      (∀ v ∈ c.variables.entries, v.library = none) ∧
        ∀ f ∈ c.functions.entries, f.library = none := by
  constructor
  · intro hfresh
    have hnot : before.any Node.isIoImport ≠ true := by simp [hfresh]
    refine ⟨fun v hv => by_contra fun hlibrary => hnot ?_,
      fun f hf => by_contra fun hlibrary => hnot ?_⟩
    · exact ((h.variables.origin v hv).provided_of_library hlibrary).2.2
    · exact ((h.origin f hf).provided_of_library hlibrary).2
  · rintro ⟨hvariables, -⟩
    rw [← Bool.not_eq_true]
    intro himported
    have hstdin := mem_constants_coreIo_iff.mpr (.inl rfl)
    have hnone := hvariables _ (h.constants_mem himported "stdin" hstdin)
    cases hnone

end Context.Recorded

/-- **What a script has recorded is consistent.** Whatever statements have been added and rejected,
and wherever warnings were taken out: no name is recorded twice, the script knows whether it has a
function `main`, it has imported nothing or `coreIo`, and its records are those of `coreIo`, without
a place, and those of declarations, with one. So an error about a name that is taken has exactly one
remark, which points at the earlier declaration or names `coreIo`. -/
theorem context_recorded_of_built {before : List Node} {s : Script} (h : Script.Built before s) :
    (s.context.variables.entries.map (·.name)).Nodup ∧
    (s.context.functions.entries.map (·.name)).Nodup ∧
    (s.context.hasMain = true ↔ ∃ f ∈ s.context.functions.entries, f.name = "main") ∧
    (s.context.libraries = [] ∨ s.context.libraries = [coreIo.name]) ∧
    (s.context.libraries = [coreIo.name] ↔
      (∀ name ∈ coreIo.constants, ∃ v ∈ s.context.variables.entries,
        v.name = name ∧ v.library = some coreIo.name ∧ v.immutable = true) ∧
      ∀ name ∈ coreIo.functions, ∃ f ∈ s.context.functions.entries,
        f.name = name ∧ f.library = some coreIo.name) ∧
    (s.context.libraries = [] ↔
      (∀ v ∈ s.context.variables.entries, v.library = none) ∧
        ∀ f ∈ s.context.functions.entries, f.library = none) ∧
    (∀ v ∈ s.context.variables.entries, v.library.isSome = true ↔ v.location = none) ∧
    (∀ f ∈ s.context.functions.entries, f.library.isSome = true ↔ f.location = none) ∧
    ∀ node s' e, s.add node = (s', some e) →
      ∃ scope item, node.Holds before scope item ∧ Explained scope before item e := by
  have hrecorded := h.recorded
  have hlibraries := hrecorded.libraries
  refine ⟨hrecorded.variables.distinct, hrecorded.distinct, hrecorded.hasMain_iff, ?_, ?_, ?_,
    fun v hv => (hrecorded.variables.origin v hv).isSome_library_iff,
    fun f hf => (hrecorded.origin f hf).isSome_library_iff, ?_⟩
  · cases himported : before.any Node.isIoImport <;> simp [hlibraries, himported]
  · rw [← hrecorded.any_isIoImport_iff, hlibraries]
    simp
  · rw [← hrecorded.any_isIoImport_eq_false_iff, hlibraries]
    simp
  · intro node s' e hadd
    have hends := ends_emit hrecorded node
    rw [Script.result_of_add_eq_some hadd] at hends
    exact hends

/-- Behind an import of `coreIo`, a function is rejected for a change of `stdin`. -/
theorem context_recorded_of_built_stdin :
    let library : Node := .importDecl "core:io" none false ⟨"m", 1, 7⟩
    let change : Node := .assignment "stdin" [.token ⟨.integer, "1", 1, ⟨"m", 2, 17⟩⟩] ⟨"m", 2, 9⟩
    let s : Script := (Script.add {} library).1
    Script.Built [library] s ∧
    (s.context.variables.entries.map (·.name)).Nodup ∧
    (s.context.libraries = [] ∨ s.context.libraries = [coreIo.name]) ∧
    ∃ s' e, s.add (.fnDecl "f" [] [change] ⟨"m", 2, 3⟩) = (s', some e) ∧
      ∃ scope item, (Node.fnDecl "f" [] [change] ⟨"m", 2, 3⟩).Holds [library] scope item ∧
        Explained scope [library] item e := by
  intro library change s
  have hbuilt : Script.Built [library] s :=
    .accepted .start (by rfl : Script.add {} library = (s, none))
  obtain ⟨hvariables, -, -, hlibraries, -, -, -, -, hexplained⟩ := context_recorded_of_built hbuilt
  have hadd : s.add (.fnDecl "f" [] [change] ⟨"m", 2, 3⟩) =
      (s, some ⟨.assignToConstant "stdin", ⟨"m", 2, 9⟩,
        [⟨⟨"m", 2, 9⟩, "`stdin` is provided by `core:io`"⟩]⟩) := by rfl
  exact ⟨hbuilt, hvariables, hlibraries, _, _, hadd, hexplained _ _ _ hadd⟩

end Dwo
