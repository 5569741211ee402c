import Dwo.Proofs.Session.Streaming

/-!
# The rules of programs

A program that has been read may still break a rule: take a name twice, change a constant, nest
functions, or import what is not there. `programOffences` lists all such places in source order,
each judged by the statements in front of it alone.

The main result is that nothing else keeps a program from being compiled, and that what is
reported is the first offence (`compile_eq_ok_iff_offences_eq_nil`). Compiling does not look back
at earlier statements but keeps tables of them; `Context.Tracks` says what these tables know, and
`Judges` composes the verdicts along the steps.

* `Offence`: what is wrong, and where;
* `Node.offences`: the offences of a statement behind other statements, and `Node.itemOffences`
  those of a statement of a function;
* `nearest?`: the declaration that a name refers to, found by going backwards.

The rules are written without tables. A name in a body refers to the nearest declaration in the
body, and otherwise to the one at the top level; functions have names of their own. Each of
the lemmas `judges_emitBodyItem`, `judges_emitBody`, `judges_emit` and `judges_compile` has two
halves in one statement: the first offence is what is reported, and without an offence the
tables track the statement as well.
-/

namespace Dwo

/-! ### Declarations -/

namespace Node

/-- Whether a statement declares the variable `name` and, if so, whether it is immutable. -/
def declares? (name : String) : Node → Option Bool
  | varDecl n isMutable _ _ => if n = name then some !isMutable else none
  | importDecl path _ _ _ =>
    if path = coreIo.name ∧ name ∈ coreIo.constants then some true else none
  | _ => none

/-- Whether a statement declares the function `name`. -/
def defines (name : String) : Node → Bool
  | fnDecl n _ _ _ => n = name
  | importDecl path _ _ _ => path = coreIo.name ∧ name ∈ coreIo.functions
  | _ => false

end Node

/-- Whether the nearest declaration of a variable among earlier statements is immutable, if there
is one. -/
def nearest? (earlier : List Node) (name : String) : Option Bool :=
  earlier.reverse.findSome? (·.declares? name)

/-! ### Offences -/

/-- What is wrong with a program, and where. -/
structure Offence where
  cause : EmitCause
  location : Location
deriving DecidableEq, Repr

/-- The names of `coreIo` that earlier statements have taken. -/
def takenIoNames (before : List Node) : List String :=
  (coreIo.constants.filter fun name => (nearest? before name).isSome) ++
    coreIo.functions.filter fun name => before.any (·.defines name)

namespace Node

/-- The offences of a statement of a function, behind the statements `earlier` of that function
and the top-level statements `before`: a second declaration of a variable, an assignment to a
constant, which may be declared in the function or outside, and a function. -/
def itemOffences (before earlier : List Node) : Node → List Offence
  | varDecl name _ _ l =>
    if (nearest? earlier name).isSome then [⟨.redeclaration name, l⟩] else []
  | assignment name _ l =>
    if (nearest? earlier name).or (nearest? before name) = some true then
      [⟨.assignToConstant name, l⟩]
    else []
  | fnDecl name _ _ l => [⟨.nestedFunction name, l⟩]
  | _ => []

/-- The offences of the statements of a function, from some statement on. -/
def bodyOffences (before earlier : List Node) : List Node → List Offence
  | [] => []
  | item :: items =>
    itemOffences before earlier item ++ bodyOffences before (earlier ++ [item]) items

/-- The offences of a top-level statement behind the statements `before`: a second declaration of
a variable or a function, those in the body of a function, an import of an unknown library, and a
first import of `coreIo` behind declarations of its names. -/
def offences (before : List Node) : Node → List Offence
  | varDecl name _ _ l =>
    if (nearest? before name).isSome then [⟨.redeclaration name, l⟩] else []
  | fnDecl name _ body l =>
    (if before.any (·.defines name) then [⟨.functionRedeclaration name, l⟩] else []) ++
      bodyOffences before [] body
  | importDecl path _ _ l =>
    if path ≠ coreIo.name then
      [⟨.unimplemented ("imports other than `" ++ coreIo.name ++ "` (`" ++ path ++ "`)"), l⟩]
    else if before.any isIoImport then []
    else (takenIoNames before).map fun name => ⟨.importConflict coreIo.name name, l⟩
  | _ => []

end Node

/-- The offences of a program, from some statement on, in source order. -/
def programOffences (before : List Node) : List Node → List Offence
  | [] => []
  | node :: nodes => node.offences before ++ programOffences (before ++ [node]) nodes

/-! ### Verdicts -/

/-- A result that fails on the first of these offences, and without any succeeds with a value
in `Q`. -/
def Judges {α : Type} (result : Except EmitError α) (os : List Offence) (Q : α → Prop) : Prop :=
  match os, result with
  | [], .ok a => Q a
  | o :: _, .error e => e.cause = o.cause ∧ e.location = o.location
  | _, _ => False

namespace Judges

variable {α β : Type} {os os' : List Offence} {P : α → Prop} {Q : β → Prop}

/-- A success is right exactly when nothing offends. -/
theorem ok_iff {a : α} : Judges (.ok a) os P ↔ os = [] ∧ P a := by
  cases os with
  | nil => exact ⟨fun h => ⟨rfl, h⟩, fun h => h.2⟩
  | cons o os => exact ⟨False.elim, fun h => by cases h.1⟩

/-- A failure is right exactly when it reports the first offence. -/
theorem error_iff {e : EmitError} : Judges (.error e) os P ↔
    ∃ o rest, os = o :: rest ∧ e.cause = o.cause ∧ e.location = o.location := by
  cases os with
  | nil => exact ⟨False.elim, fun ⟨_, _, h, _⟩ => by cases h⟩
  | cons o os =>
    constructor
    · intro h
      exact ⟨o, os, rfl, h⟩
    · rintro ⟨o, rest, hcons, h⟩
      obtain ⟨rfl, rfl⟩ := List.cons.inj hcons
      exact h

/-- Verdicts of steps add up to the verdict of their sequence. -/
theorem bind {x : Except EmitError α} {f : α → Except EmitError β} (hx : Judges x os P)
    (hf : ∀ a, P a → Judges (f a) os' Q) : Judges (x >>= f) (os ++ os') Q := by
  cases x with
  | ok a =>
    obtain ⟨rfl, ha⟩ := ok_iff.mp hx
    exact hf a ha
  | error e =>
    obtain ⟨o, rest, rfl, h⟩ := error_iff.mp hx
    exact error_iff.mpr ⟨o, rest ++ os', rfl, h⟩

theorem map {x : Except EmitError α} {f : α → β} (hx : Judges x os P)
    (hf : ∀ a, P a → Q (f a)) : Judges (x >>= fun a => .ok (f a)) os Q := by
  rw [← List.append_nil os]
  exact hx.bind hf

end Judges

/-! ### What the tables know -/

/-- The node that is last declares a name most nearly. -/
private theorem nearest?_concat (earlier : List Node) (node : Node) (name : String) :
    nearest? (earlier ++ [node]) name = (node.declares? name).or (nearest? earlier name) := by
  rw [nearest?, List.reverse_concat, List.findSome?_cons]
  cases node.declares? name <;> rfl

namespace Table

/-- A table of variables knows the nearest declaration of every name. -/
def Tracks (t : Table Variable) (earlier : List Node) : Prop :=
  ∀ name, (t.find? name).map Variable.immutable = nearest? earlier name

namespace Tracks

variable {t : Table Variable} {earlier : List Node}

private theorem isSome_find? (h : t.Tracks earlier) (name : String) :
    (t.find? name).isSome = (nearest? earlier name).isSome := by
  rw [← h name, Option.isSome_map]

private theorem find?_eq_none {name : String} (h : t.Tracks earlier)
    (hfree : nearest? earlier name = none) : t.find? name = none :=
  Option.map_eq_none_iff.mp ((h name).trans hfree)

/-- A declaration of a new name is recorded. -/
theorem declare {name : String} {isMutable : Bool} {initializer : List Node} {l : Location}
    {entry : Variable} (h : t.Tracks earlier) (hfree : nearest? earlier name = none)
    (hname : Named.name entry = name) (himmutable : entry.immutable = !isMutable) :
    (t.declare entry).Tracks (earlier ++ [.varDecl name isMutable initializer l]) := by
  intro n
  rw [find?_declare, nearest?_concat, Node.declares?, hname]
  by_cases hn : name = n
  · have hnone : t.find? n = none := h.find?_eq_none (hn ▸ hfree)
    rw [if_pos hn, if_pos hn, hnone, Option.none_or, Option.some_or, Option.map_some, himmutable]
  · rw [if_neg hn, if_neg hn, Option.or_none, Option.none_or]
    exact h n

/-- A statement that declares no variable changes nothing. -/
theorem concat {node : Node} (h : t.Tracks earlier) (hnode : ∀ name, node.declares? name = none) :
    t.Tracks (earlier ++ [node]) := by
  intro name
  rw [nearest?_concat, hnode, Option.none_or]
  exact h name

end Tracks

end Table

/-! ### Statements of a function -/

/-- A declaration is rejected exactly if its name is taken. -/
theorem judges_declareText {t : Table Variable} {earlier : List Node} {name : String}
    {isMutable : Bool} {initializer : List Node} {l : Location} (ht : t.Tracks earlier)
    (h : IsInitializer isMutable initializer) :
    Judges (declareText t name isMutable initializer l)
      (if (nearest? earlier name).isSome then [⟨.redeclaration name, l⟩] else [])
      fun r => nearest? earlier name = none ∧
        r.2.Tracks (earlier ++ [.varDecl name isMutable initializer l]) := by
  rw [declareText, ← ht.isSome_find? name]
  cases hfind : t.find? name with
  | some taken => exact ⟨rfl, rfl⟩
  | none =>
    have hfree : nearest? earlier name = none := by
      rw [← ht name, hfind]
      rfl
    have hvalue : (!isMutable && initializer.isEmpty) = false := by
      rcases h with ⟨rfl, -⟩ | ⟨ts, hts, rfl⟩
      · rfl
      · have hpos := hts.length_pos
        cases ts with
        | nil => cases hpos
        | cons u us => simp
    obtain ⟨text, htext⟩ := exists_initializerText h
    simp only [hvalue, htext]
    exact ⟨hfree, ht.declare hfree rfl rfl⟩

/-- An assignment is rejected exactly if the nearest declaration of its target is immutable. -/
theorem judges_assignText {outer inner : Table Variable} {before earlier : List Node}
    {name : String} {items : List Node} {l : Location} (houter : outer.Tracks before)
    (hinner : inner.Tracks earlier) (h : IsExpression items) :
    Judges (assignText ⟨some inner, outer⟩ name items l)
      (if (nearest? earlier name).or (nearest? before name) = some true then
        [⟨.assignToConstant name, l⟩] else []) fun _ => True := by
  have hlookup : (Scope.lookup? ⟨some inner, outer⟩ name).map Variable.immutable =
      (nearest? earlier name).or (nearest? before name) := by
    rw [← hinner name, ← houter name]
    change ((inner.find? name).or (outer.find? name)).map _ = _
    cases inner.find? name <;> rfl
  rw [assignText, ← hlookup]
  obtain ⟨text, htext⟩ := exists_exprText h
  cases Scope.lookup? ⟨some inner, outer⟩ name with
  | none =>
    rw [htext]
    exact True.intro
  | some found =>
    cases himmutable : found.immutable with
    | true =>
      simp only [Option.filter, Option.map_some, himmutable, if_true]
      exact ⟨rfl, rfl⟩
    | false =>
      simp only [Option.filter, Option.map_some, himmutable, htext]
      exact True.intro

/-- **A statement of a function is judged by the rules.** -/
theorem judges_emitBodyItem {outer inner : Table Variable} {before earlier : List Node}
    {item : Node} (houter : outer.Tracks before) (hinner : inner.Tracks earlier)
    (h : item.IsBodyItem) :
    Judges (emitBodyItem outer inner item).result (item.itemOffences before earlier)
      fun r => r.2.Tracks (earlier ++ [item]) := by
  cases h with
  | token t => exact hinner.concat fun _ => rfl
  | varDecl hvalue =>
    rw [emitBodyItem, Emission.result_bind, Emission.result_lift, Node.itemOffences]
    exact (judges_declareText hinner hvalue).map fun _ hr => hr.2
  | assignment hvalue =>
    rw [emitBodyItem, Emission.result_bind, Emission.result_lift, Node.itemOffences]
    exact (judges_assignText houter hinner hvalue).map fun _ _ => hinner.concat fun _ => rfl
  | fnCall hargs =>
    obtain ⟨text, htext⟩ := exists_callText hargs
    rw [emitBodyItem, Emission.result_bind, Emission.result_lift, htext]
    exact hinner.concat fun _ => rfl
  | fnDecl => exact ⟨rfl, rfl⟩

/-- **So are all of them, up to the first offence.** -/
theorem judges_emitBody {outer inner : Table Variable} {before earlier items : List Node}
    (houter : outer.Tracks before) (hinner : inner.Tracks earlier)
    (h : ∀ item ∈ items, item.IsBodyItem) :
    Judges (emitBody outer inner items).result (Node.bodyOffences before earlier items)
      fun _ => True := by
  induction items generalizing inner earlier with
  | nil => exact True.intro
  | cons item items ih =>
    rw [emitBody, Emission.result_bind, Node.bodyOffences]
    refine (judges_emitBodyItem houter hinner (h item List.mem_cons_self)).bind ?_
    intro r hr
    have hrest := ih hr fun i hi => h i (List.mem_cons_of_mem item hi)
    rw [Emission.result_bind]
    exact hrest.map fun _ _ => True.intro

/-! ### Top-level statements -/

private theorem any_concat_of_eq_false {before : List Node} {node : Node} {p : Node → Bool}
    (h : p node = false) : (before ++ [node]).any p = before.any p := by
  rw [List.any_append, List.any_cons, h, List.any_nil, Bool.or_false, Bool.or_false]

/-- What has been established is what the statements so far declare. -/
structure Context.Tracks (c : Context) (before : List Node) : Prop where
  imported : c.hasImported coreIo.name = before.any Node.isIoImport
  declared : c.variables.Tracks before
  functions : ∀ name, (c.functions.find? name).isSome = before.any (·.defines name)
  -- Otherwise a second import, which is not recorded, could change the nearest declaration.
  provided : before.any Node.isIoImport = true →
    ∀ name ∈ coreIo.constants, nearest? before name = some true

namespace Context.Tracks

variable {c : Context} {before : List Node}

theorem initial : ({} : Context).Tracks [] :=
  ⟨rfl, fun _ => rfl, fun _ => rfl, fun h => by cases h⟩

/-- A variable that is not provided by a library. -/
theorem declare {name : String} {isMutable : Bool} {initializer : List Node} {l : Location}
    {t : Table Variable} (h : c.Tracks before) (hfree : nearest? before name = none)
    (ht : t.Tracks (before ++ [.varDecl name isMutable initializer l])) :
    ({ c with «variables» := t } : Context).Tracks
      (before ++ [.varDecl name isMutable initializer l]) := by
  refine ⟨?_, ht, fun n => ?_, fun himported n hn => ?_⟩
  · rw [any_concat_of_eq_false rfl]
    exact h.imported
  · rw [any_concat_of_eq_false rfl]
    exact h.functions n
  · rw [any_concat_of_eq_false rfl] at himported
    have hbefore := h.provided himported n hn
    -- A provided name is taken, so it cannot be the new one.
    have hne : name ≠ n := by
      intro heq
      rw [← heq, hfree] at hbefore
      cases hbefore
    rw [nearest?_concat, Node.declares?, if_neg hne, Option.none_or]
    exact hbefore

/-- Entering a function in the table is tracked by the node that defines it. -/
theorem define {name : String} {params body : List Node} {l : Location} {entry : Function}
    {hasMain : Bool} (h : c.Tracks before) (hname : Named.name entry = name) :
    ({ c with functions := c.functions.declare entry, hasMain := hasMain } : Context).Tracks
      (before ++ [.fnDecl name params body l]) := by
  refine ⟨?_, h.declared.concat fun _ => rfl, fun n => ?_, fun himported n hn => ?_⟩
  · rw [any_concat_of_eq_false rfl]
    exact h.imported
  · rw [List.any_append, ← h.functions n, Table.find?_declare, hname]
    by_cases hn : name = n
    · simp [Node.defines, hn]
    · simp [Node.defines, hn]
  · rw [any_concat_of_eq_false rfl] at himported
    rw [nearest?_concat]
    exact h.provided himported n hn

end Context.Tracks

/-! ### Imports -/

namespace Table

variable {α : Type} [Named α]

/-- Names that were there before hide those that are added. -/
private theorem find?_declareAll (t : Table α) (entries : List α) (name : String) :
    (t.declareAll entries).find? name =
      (t.find? name).or (entries.find? fun entry => decide (Named.name entry = name)) := by
  rw [find?, entries_declareAll, List.find?_append, find?]

/-- Among entries for the names of a list, a name is found exactly if it is in the list. -/
theorem find?_map_entry {entry : String → α} (hentry : ∀ name, Named.name (entry name) = name)
    (names : List String) (name : String) :
    ((names.map entry).find? fun e => decide (Named.name e = name)) =
      if name ∈ names then some (entry name) else none := by
  induction names with
  | nil => rfl
  | cons n names ih =>
    rw [List.map_cons, List.find?_cons, hentry, ih]
    by_cases hn : n = name
    · simp [hn]
    · have hmem : name ∈ n :: names ↔ name ∈ names := by
        rw [List.mem_cons, or_iff_right (Ne.symm hn)]
      simp only [decide_eq_false hn, hmem]

end Table

private theorem map_fst_findSome? {α β : Type} (names : List String) (find : String → Option α)
    (value : α → β) :
    (names.findSome? fun name => (find name).map fun a => (name, value a)).map Prod.fst =
      (names.filter fun name => (find name).isSome).head? := by
  rw [List.head?_filter]
  induction names with
  | nil => rfl
  | cons name names ih =>
    rw [List.findSome?_cons, List.find?_cons]
    cases find name with
    | none => exact ih
    | some a => rfl

namespace Context.Tracks

variable {c : Context} {before : List Node}

/-- The name that an import is rejected for is the first one that is taken. -/
theorem map_fst_clash? (h : c.Tracks before) :
    (c.clash? coreIo).map Prod.fst = (takenIoNames before).head? := by
  have hconstants : (coreIo.constants.filter fun name => (c.variables.find? name).isSome) =
      coreIo.constants.filter fun name => (nearest? before name).isSome :=
    List.filter_congr fun name _ => h.declared.isSome_find? name
  have hfunctions : (coreIo.functions.filter fun name => (c.functions.find? name).isSome) =
      coreIo.functions.filter fun name => before.any (·.defines name) :=
    List.filter_congr fun name _ => h.functions name
  rw [Context.clash?, Option.map_or, map_fst_findSome?, map_fst_findSome?, hconstants,
    hfunctions, takenIoNames, List.head?_append]

/-- A library is imported: its names become known. -/
theorem withLibrary {newName : Option String} {isLocal : Bool} {l : Location} (h : c.Tracks before)
    (hfree : takenIoNames before = []) :
    (c.withLibrary coreIo).Tracks (before ++ [.importDecl coreIo.name newName isLocal l]) := by
  obtain ⟨hconstants, hfunctions⟩ := List.append_eq_nil_iff.mp hfree
  rw [List.filter_eq_nil_iff] at hconstants hfunctions
  have hnearest (name : String) (hmem : name ∈ coreIo.constants) : nearest? before name = none :=
    Option.not_isSome_iff_eq_none.mp (hconstants name hmem)
  refine ⟨?_, fun name => ?_, fun name => ?_, fun _ name hmem => ?_⟩
  · simp [Context.hasImported, Context.withLibrary, Node.isIoImport]
  · rw [Context.withLibrary, Table.find?_declareAll, Table.find?_map_entry fun _ => rfl,
      nearest?_concat, Node.declares?]
    by_cases hmem : name ∈ coreIo.constants
    · rw [h.declared.find?_eq_none (hnearest name hmem), if_pos hmem, if_pos ⟨rfl, hmem⟩]
      rfl
    · rw [if_neg hmem, if_neg fun hand => hmem hand.2, Option.or_none, Option.none_or]
      exact h.declared name
  · rw [Context.withLibrary, Table.find?_declareAll, Table.find?_map_entry fun _ => rfl,
      List.any_append, ← h.functions name]
    by_cases hmem : name ∈ coreIo.functions
    · simp [Node.defines, hmem]
    · simp [Node.defines, hmem]
  · rw [nearest?_concat, Node.declares?, if_pos ⟨rfl, hmem⟩, Option.some_or]

/-- A library is imported once more: its names are known already. -/
theorem importAgain {newName : Option String} {isLocal : Bool} {l : Location} (h : c.Tracks before)
    (himported : before.any Node.isIoImport = true) :
    c.Tracks (before ++ [.importDecl coreIo.name newName isLocal l]) := by
  have hnearest (name : String) :
      nearest? (before ++ [.importDecl coreIo.name newName isLocal l]) name =
        nearest? before name := by
    rw [nearest?_concat, Node.declares?]
    by_cases hmem : name ∈ coreIo.constants
    · rw [if_pos ⟨rfl, hmem⟩, h.provided himported name hmem, Option.some_or]
    · rw [if_neg fun hand => hmem hand.2, Option.none_or]
  refine ⟨?_, fun name => ?_, fun name => ?_, fun _ name hmem => ?_⟩
  · rw [List.any_append, himported, Bool.true_or, h.imported, himported]
  · rw [hnearest]
    exact h.declared name
  · rw [h.functions name, List.any_append]
    by_cases hmem : name ∈ coreIo.functions
    · obtain ⟨node, hnode, hio⟩ := List.any_eq_true.mp himported
      have hdefines : before.any (·.defines name) = true := by
        refine List.any_eq_true.mpr ⟨node, hnode, ?_⟩
        cases node with
        | importDecl path =>
          have hpath : path = coreIo.name := of_decide_eq_true hio
          exact decide_eq_true ⟨hpath, hmem⟩
        | _ => cases hio
      rw [hdefines, Bool.true_or]
    · simp [Node.defines, hmem]
  · rw [hnearest]
    exact h.provided himported name hmem

end Context.Tracks

/-! ### Programs -/

private theorem judges_emitImport {c : Context} {before : List Node} {path : String}
    {newName : Option String} {isLocal : Bool} {l : Location} (hc : c.Tracks before) :
    Judges (emitImport c path l).result ((Node.importDecl path newName isLocal l).offences before)
      fun r => r.2.Tracks (before ++ [.importDecl path newName isLocal l]) := by
  rw [emitImport, Node.offences]
  by_cases hpath : path = coreIo.name
  · rw [if_neg (not_not_intro hpath), if_neg (not_not_intro hpath), hc.imported, hpath]
    by_cases himported : before.any Node.isIoImport = true
    · rw [if_pos himported, if_pos himported]
      exact hc.importAgain himported
    · rw [if_neg himported, if_neg himported]
      -- The first clash that is looked up is the head of the list of names that are taken.
      have hclash := hc.map_fst_clash?
      cases htaken : takenIoNames before with
      | nil =>
        rw [htaken] at hclash
        rw [Option.map_eq_none_iff.mp hclash]
        exact hc.withLibrary htaken
      | cons name names =>
        rw [htaken] at hclash
        obtain ⟨⟨_, declared⟩, hfound, rfl⟩ := Option.map_eq_some_iff.mp hclash
        rw [hfound]
        exact ⟨rfl, rfl⟩
  · rw [if_pos hpath, if_pos hpath]
    exact ⟨rfl, rfl⟩

/-- **A top-level statement is judged by the rules**, and what has been established stays right. -/
theorem judges_emit {c : Context} {before : List Node} {node : Node} (hc : c.Tracks before)
    (h : node.IsTopLevel) :
    Judges (emit c node).result (node.offences before)
      fun r => r.2.Tracks (before ++ [node]) := by
  cases h with
  | importDecl => exact judges_emitImport hc
  | varDecl hvalue =>
    rw [emit, Emission.result_bind, Emission.result_lift, Node.offences]
    exact (judges_declareText hc.declared hvalue).map fun _ hr => hc.declare hr.1 hr.2
  | @fnDecl name body l hbody =>
    rw [Node.offences, ← hc.functions name]
    cases hfind : c.functions.find? name with
    | some taken =>
      simp only [emit, emitFn, hfind]
      exact ⟨rfl, rfl⟩
    | none =>
      have hempty : ({} : Table Variable).Tracks [] := fun _ => rfl
      simp only [emit, emitFn, hfind, Emission.result_bind]
      exact (judges_emitBody hc.declared hempty hbody).map fun _ _ => hc.define rfl

/-- **A program is judged by the rules**: statement after statement, up to the first offence. -/
theorem judges_compile {script : Script} {before nodes : List Node} {l : Location}
    (hscript : script.context.Tracks before) (h : ∀ node ∈ nodes, node.IsTopLevel) :
    ∃ result, ((nodes.foldr Statements.next (.closed l)).compile script).2 =
        Except.mapError CompileError.emit result ∧
      Judges result (programOffences before nodes) fun _ => True := by
  induction nodes generalizing script before with
  | nil => exact ⟨.ok script.finish, rfl, True.intro⟩
  | cons node nodes ih =>
    -- The statements behind an offence are not looked at; behind a statement without one, the
    -- context is that of one statement more.
    have hnode := judges_emit hscript (h node List.mem_cons_self)
    cases hresult : (emit script.context node).result with
    | error e =>
      rw [hresult] at hnode
      have hadd := Script.add_of_error hresult
      obtain ⟨o, rest, ho, he⟩ := Judges.error_iff.mp hnode
      refine ⟨.error e, congrArg Prod.snd (Statements.compile_next_of_some hadd.1), ?_⟩
      rw [programOffences, ho]
      exact he
    | ok r =>
      rw [hresult] at hnode
      obtain ⟨hnone, hcontext, -⟩ := Script.add_of_ok hresult
      obtain ⟨ho, htracks⟩ := Judges.ok_iff.mp hnode
      rw [← hcontext] at htracks
      obtain ⟨result, hcompile, hjudges⟩ :=
        ih htracks fun n hn => h n (List.mem_cons_of_mem node hn)
      refine ⟨result, ?_, ?_⟩
      · rw [List.foldr_cons, Statements.compile_next_of_none hnone, hcompile]
      · rw [programOffences, ho]
        exact hjudges

/-- **The checks of a program are exactly the rules.** For a source text that can be read,
compiling succeeds if and only if its statements have no offences, and otherwise fails with the
first of them. -/
theorem compile_eq_ok_iff_offences_eq_nil {path source : String} {nodes : List Node} {r : Reader}
    (h : (Reader.ofSource path source).ReadsAll nodes r) :
    ((∃ text, compile path source .javaScript = .ok text) ↔ programOffences [] nodes = []) ∧
      ∀ o rest, programOffences [] nodes = o :: rest →
        ∃ e : EmitError, compile path source .javaScript = .error (.emit e) ∧
          e.cause = o.cause ∧ e.location = o.location := by
  have hnodes := (Open.wellFormed_initial.run (Reader.readsAll_iff.mp h).1).2
  have hinitial : ({} : Script).context.Tracks [] := Context.Tracks.initial
  obtain ⟨result, hresult, hjudges⟩ := judges_compile hinitial hnodes
  have hcompile : compile path source .javaScript = Except.mapError CompileError.emit result := by
    rw [← hresult, ← (readsAll_ofSource_iff.mp h).1, compile_javaScript_eq]
  rw [hcompile]
  cases result with
  | ok text =>
    obtain ⟨hnil, -⟩ := Judges.ok_iff.mp hjudges
    rw [hnil]
    refine ⟨⟨fun _ => rfl, fun _ => ⟨text, rfl⟩⟩, ?_⟩
    intro o rest hcons
    cases hcons
  | error e =>
    obtain ⟨o, rest, hcons, he⟩ := Judges.error_iff.mp hjudges
    rw [hcons]
    refine ⟨⟨?_, fun hnil => absurd hnil (List.cons_ne_nil o rest)⟩, ?_⟩
    · rintro ⟨text, hok⟩
      cases hok
    intro o' rest' hcons'
    obtain ⟨rfl, rfl⟩ := List.cons.inj hcons'
    exact ⟨e, rfl, he⟩

theorem compile_eq_ok_iff_offences_eq_nil_constant :
    ∃ nodes r, (Reader.ofSource "m" "let a :: 1; fn f() \x7b a = 2; let a := 3; \x7d").ReadsAll
        nodes r ∧
      ((∃ text, compile "m" "let a :: 1; fn f() \x7b a = 2; let a := 3; \x7d" .javaScript =
        .ok text) ↔ programOffences [] nodes = []) ∧
      ∃ o rest, programOffences [] nodes = o :: rest ∧ o.cause = .assignToConstant "a" ∧
        ∃ e : EmitError, compile "m" "let a :: 1; fn f() \x7b a = 2; let a := 3; \x7d"
          .javaScript = .error (.emit e) ∧ e.cause = o.cause ∧ e.location = o.location := by
  let constant : Node := .varDecl "a" false [.token ⟨.integer, "1", 1, ⟨"m", 1, 9⟩⟩] ⟨"m", 1, 4⟩
  let change : Node := .assignment "a" [.token ⟨.integer, "2", 2, ⟨"m", 1, 25⟩⟩] ⟨"m", 1, 21⟩
  let shadow : Node := .varDecl "a" true [.token ⟨.integer, "3", 3, ⟨"m", 1, 37⟩⟩] ⟨"m", 1, 32⟩
  let function : Node := .fnDecl "f" [] [change, shadow] ⟨"m", 1, 15⟩
  have hread : sourceStatements "m" "let a :: 1; fn f() \x7b a = 2; let a := 3; \x7d" =
      [constant, function].foldr Statements.next (.closed ((closing
        "let a :: 1; fn f() \x7b a = 2; let a := 3; \x7d").location "m")) := by
    rw [sourceStatements_eq]
    cbv
  have hall := readsAll_ofSource_iff.mpr ⟨hread, rfl⟩
  have hrules := compile_eq_ok_iff_offences_eq_nil hall
  have hoffences : programOffences [] [constant, function] =
      [⟨.assignToConstant "a", ⟨"m", 1, 21⟩⟩] := by decide
  exact ⟨_, _, hall, hrules.1, _, [], hoffences, rfl, hrules.2 _ _ hoffences⟩

end Dwo
