import Dwo.Proofs.Session.Streaming
import Dwo.Proofs.Statement.Relocation

/-!
# Compiling elsewhere

Places play no part in what statements are compiled to. They are kept in tables, passed on to
warnings and errors, and never looked at: if everything in front of a statement and the statement
itself are moved by the same map of places, so are the warnings and the error, and the text is the
same (`relocate_emit`). The same holds for whole programs (`Statements.compile_relocate`) and for
listings (`Statements.listing_relocate`).

As for reading, the lemmas move `relocate` inwards.

Tables have entries of two types, variables and functions. `Relocatable` is what both have in
common: an entry can be moved, and keeps its name. So the look-ups of a table commute with
moving it (`Table.find?_relocate`), which is stated once for both.
-/

namespace Dwo

variable (f : Location → Location)

/-! ### Results -/

/-- Results of steps one after the other. -/
theorem relocateResult_bind {κ α β : Type} {g : α → α} {h : β → β} (x : Except (Failure κ) α)
    {k k' : α → Except (Failure κ) β} (hk : ∀ a, relocateResult f h (k a) = k' (g a)) :
    relocateResult f h (x >>= k) = relocateResult f g x >>= k' := by
  cases x with
  | ok a => exact hk a
  | error e => rfl

/-- A diagnostic about another place. -/
def Diagnostic.relocate (d : Diagnostic) : Diagnostic :=
  { d with location := f d.location, notes := d.notes.map (Note.relocate f) }

namespace Emission

variable {α β : Type}

/-- An outcome elsewhere, where `g` says what this means for a value. -/
def relocate (g : α → α) (e : Emission α) : Emission α :=
  ⟨e.warnings.map (Diagnostic.relocate f), relocateResult f g e.result⟩

private theorem relocate_pure (g : α → α) (a : α) :
    (pure a : Emission α).relocate f g = pure (g a) := rfl

theorem relocate_fail (g : α → α) (cause : EmitCause) (l : Location) (notes : List Note) :
    (fail cause l notes : Emission α).relocate f g =
      fail cause (f l) (notes.map (Note.relocate f)) := rfl

/-- Moving a sequence moves both of its parts. -/
private theorem relocate_bind {g : α → α} {h : β → β} (e : Emission α) {k k' : α → Emission β}
    (hk : ∀ a, (k a).relocate f h = k' (g a)) :
    (e >>= k).relocate f h = e.relocate f g >>= k' := by
  obtain ⟨ws, result⟩ := e
  cases result with
  | error e => rfl
  | ok a =>
    have hnext : (⟨ws, .ok a⟩ : Emission α).relocate f g >>= k' =
        ⟨ws.map (Diagnostic.relocate f) ++ (k' (g a)).warnings, (k' (g a)).result⟩ := rfl
    rw [hnext, ← hk a]
    change (⟨(ws ++ (k a).warnings).map _, _⟩ : Emission β) = _
    rw [List.map_append]
    rfl

end Emission

/-! ### Names -/

/-- Bindings that can be taken elsewhere, and keep their names there. -/
class Relocatable (α : Type) [Named α] where
  relocate : (Location → Location) → α → α
  name_relocate : ∀ f a, Named.name (relocate f a) = Named.name a

instance : Relocatable Function where
  relocate f g := { g with location := g.location.map f }
  name_relocate _ _ := rfl

instance : Relocatable Variable where
  relocate f v := { v with location := v.location.map f }
  name_relocate _ _ := rfl

namespace Table

variable {α : Type} [Named α] [Relocatable α]

/-- A table of bindings that stand elsewhere. -/
def relocate (t : Table α) : Table α := ⟨t.entries.map (Relocatable.relocate f)⟩

/-- A name is looked up by itself, wherever its bindings stand. -/
@[simp]
theorem find?_relocate (t : Table α) (name : String) :
    (t.relocate f).find? name = (t.find? name).map (Relocatable.relocate f) := by
  rw [find?, relocate, List.find?_map, find?]
  congr 2
  funext a
  simp [Relocatable.name_relocate]

private theorem declare_relocate (t : Table α) (entry : α) :
    (t.declare entry).relocate f = (t.relocate f).declare (Relocatable.relocate f entry) := by
  simp [declare, relocate]

private theorem declareAll_relocate (t : Table α) (entries : List α) :
    (t.declareAll entries).relocate f =
      (t.relocate f).declareAll (entries.map (Relocatable.relocate f)) := by
  simp [declareAll, relocate]

end Table

/-- Tables in which a variable is looked up elsewhere. -/
def Scope.relocate (s : Scope) : Scope :=
  ⟨s.inner.map (Table.relocate f), s.outer.relocate f⟩

private theorem Scope.lookup?_relocate (s : Scope) (name : String) :
    (s.relocate f).lookup? name = (s.lookup? name).map (Relocatable.relocate f) := by
  obtain ⟨inner, outer⟩ := s
  simp only [lookup?, relocate, Table.find?_relocate, Option.map_or]
  cases inner with
  | none => rfl
  | some t => simp only [Option.map_some, Option.bind_some, Table.find?_relocate]

/-- The remark on a name that was taken elsewhere. -/
theorem Binding.relocate_note (b : Binding) (here : Location) :
    (b.note here).relocate f = Binding.note { b with location := b.location.map f } (f here) := by
  obtain ⟨name, library, location⟩ := b
  cases location with
  | some l => rfl
  | none => cases library <;> rfl

/-! ### Expressions and calls -/

private theorem Node.description_relocate (node : Node) :
    (node.relocate f).description = node.description := by
  cases node <;> simp [relocate, description, kindName]

private theorem relocate_unsupported (node : Node) (context : Note) :
    (unsupported node context).relocate f = unsupported (node.relocate f) (context.relocate f) := by
  simp only [unsupported, Failure.relocate, Node.description_relocate, Node.location_relocate]
  rfl

private theorem relocate_exprItem (start : Location) (item : Node) :
    relocateResult f id (exprItem start item) = exprItem (f start) (item.relocate f) := by
  cases item with
  | token t =>
    simp only [exprItem, relocateResult_ite, relocateResult_error, relocate_unsupported,
      Node.relocate]
    rfl
  | _ =>
    simp only [exprItem, relocateResult_error, relocate_unsupported, Node.relocate]
    rfl

private theorem relocate_exprItems (start : Location) (items : List Node) :
    relocateResult f id (exprItems start items) =
      exprItems (f start) (items.map (Node.relocate f)) := by
  induction items with
  | nil => rfl
  | cons item items ih =>
    rw [List.map_cons, exprItems, exprItems, ← relocate_exprItem, ← ih]
    refine relocateResult_bind f _ fun head => ?_
    exact relocateResult_bind f _ fun tail => rfl

private theorem relocate_exprText (items : List Node) :
    relocateResult f id (exprText items) = exprText (items.map (Node.relocate f)) := by
  cases items with
  | nil => rfl
  | cons first rest =>
    rw [List.map_cons, exprText_cons, exprText_cons, Node.location_relocate]
    exact relocate_exprItems f first.location (first :: rest)

private theorem relocate_argText (call : Location) (arg : Node) :
    relocateResult f id (argText call arg) = argText (f call) (arg.relocate f) := by
  cases arg with
  | expr items l =>
    simp only [argText, Node.relocate, Node.relocateAll_eq]
    exact relocate_exprText f items
  | token t =>
    simp only [argText, relocateResult_ite, relocateResult_error, relocate_unsupported,
      Node.relocate]
    rfl
  | _ =>
    simp only [argText, relocateResult_error, relocate_unsupported, Node.relocate]
    rfl

private theorem relocate_argsText (call : Location) (args : List Node) :
    relocateResult f id (argsText call args) =
      argsText (f call) (args.map (Node.relocate f)) := by
  induction args with
  | nil => rfl
  | cons arg args ih =>
    cases args with
    | nil => exact relocate_argText f call arg
    | cons next args =>
      rw [List.map_cons] at ih
      simp only [List.map_cons, argsText]
      rw [← relocate_argText, ← ih]
      refine relocateResult_bind f _ fun head => ?_
      exact relocateResult_bind f _ fun tail => rfl

private theorem relocate_callText (name : String) (args : List Node) (l : Location) :
    relocateResult f id (callText name args l) =
      callText name (args.map (Node.relocate f)) (f l) := by
  rw [callText, callText, ← relocate_argsText]
  exact relocateResult_bind f _ fun text => rfl

/-! ### Variables -/

private theorem relocate_initializerText (initializer : List Node) :
    relocateResult f id (initializerText initializer) =
      initializerText (initializer.map (Node.relocate f)) := by
  rw [initializerText, initializerText, List.isEmpty_map, ← relocate_exprText, relocateResult_ite]
  congr 1
  exact relocateResult_bind f _ fun value => rfl

private theorem relocate_declareText (t : Table Variable) (name : String) (isMutable : Bool)
    (initializer : List Node) (l : Location) :
    relocateResult f (Prod.map id (Table.relocate f))
        (declareText t name isMutable initializer l) =
      declareText (t.relocate f) name isMutable
        (initializer.map (Node.relocate f)) (f l) := by
  rw [declareText, declareText, Table.find?_relocate, List.isEmpty_map,
    ← relocate_initializerText]
  cases t.find? name with
  | some taken =>
    have hnote := Binding.relocate_note f taken.toBinding l
    simp only [Option.map_some, relocateResult_error, Failure.relocate, List.map_cons,
      List.map_nil, hnote]
    rfl
  | none =>
    simp only [Option.map_none, relocateResult_ite]
    congr 1
    refine relocateResult_bind f _ fun value => ?_
    let entry : Variable := { name := name, location := some l, immutable := !isMutable }
    have htable := Table.declare_relocate f t entry
    exact congrArg (fun table => Except.ok (_, table)) htable

private theorem relocate_assignText (scope : Scope) (name : String) (items : List Node)
    (l : Location) :
    relocateResult f id (assignText scope name items l) =
      assignText (scope.relocate f) name (items.map (Node.relocate f)) (f l) := by
  have hfilter : ((scope.relocate f).lookup? name).filter (·.immutable) =
      ((scope.lookup? name).filter (·.immutable)).map (Relocatable.relocate f) := by
    rw [Scope.lookup?_relocate, Option.filter_map]
    rfl
  rw [assignText, assignText, hfilter, ← relocate_exprText]
  cases (scope.lookup? name).filter (·.immutable) with
  | some constant =>
    have hnote := Binding.relocate_note f constant.toBinding l
    simp only [Option.map_some, relocateResult_error, Failure.relocate, List.map_cons,
      List.map_nil, hnote]
    rfl
  | none => exact relocateResult_bind f _ fun value => rfl

/-! ### Functions -/

open Emission

private theorem relocate_emitBodyItem (outer inner : Table Variable) (item : Node) :
    (emitBodyItem outer inner item).relocate f
        (Prod.map id (Table.relocate f)) =
      emitBodyItem (outer.relocate f)
        (inner.relocate f) (item.relocate f) := by
  cases item with
  | unaryOp | binaryOp | fnParams | endOfFile | importDecl =>
    simp only [emitBodyItem, Node.relocate, relocate_fail, Node.kindName, List.map_nil]
  | fnDecl name params body l =>
    simp only [emitBodyItem, Node.relocate, relocate_fail, List.map_cons, List.map_nil]
    rfl
  | token t =>
    simp only [emitBodyItem, Node.relocate]
    exact relocate_bind f (g := id) _ fun _ => rfl
  | expr items l =>
    simp only [emitBodyItem, Node.relocate, Node.relocateAll_eq, ← relocate_exprText]
    refine relocate_bind f (g := id) _ fun _ => ?_
    exact relocate_bind f (g := id) _ fun _ => rfl
  | varDecl name isMutable initializer l =>
    simp only [emitBodyItem, Node.relocate, Node.relocateAll_eq, ← relocate_declareText]
    exact relocate_bind f _ fun _ => rfl
  | assignment name items l =>
    have hassign := relocate_assignText f ⟨some inner, outer⟩ name items l
    simp only [Scope.relocate, Option.map_some] at hassign
    simp only [emitBodyItem, Node.relocate, Node.relocateAll_eq, ← hassign]
    exact relocate_bind f (g := id) _ fun _ => rfl
  | fnCall name args l =>
    simp only [emitBodyItem, Node.relocate, Node.relocateAll_eq, ← relocate_callText]
    exact relocate_bind f (g := id) _ fun _ => rfl

private theorem relocate_emitBody (outer inner : Table Variable) (items : List Node) :
    (emitBody outer inner items).relocate f id =
      emitBody (outer.relocate f) (inner.relocate f)
        (items.map (Node.relocate f)) := by
  induction items generalizing inner with
  | nil => rfl
  | cons item items ih =>
    rw [List.map_cons, emitBody, emitBody, ← relocate_emitBodyItem]
    refine relocate_bind f _ fun r => ?_
    have hrest := ih r.2
    change _ = emitBody _ (r.2.relocate f) _ >>= _
    rw [← hrest]
    exact relocate_bind f (g := id) _ fun _ => rfl

/-! ### Top-level statements -/

/-- What has been established by statements that stand elsewhere. -/
def Context.relocate (c : Context) : Context :=
  { c with
    «variables» := c.variables.relocate f
    functions := c.functions.relocate f }

private theorem Context.clash?_relocate (c : Context) (l : Library) :
    (c.relocate f).clash? l = (c.clash? l).map (Prod.map id (Option.map f)) := by
  simp only [clash?, relocate, Table.find?_relocate, Option.map_or,
    List.map_findSome?, Option.map_map, Function.comp_def]
  rfl

private theorem Context.withLibrary_relocate (c : Context) (l : Library) :
    (c.withLibrary l).relocate f = (c.relocate f).withLibrary l := by
  simp only [withLibrary, relocate, Table.declareAll_relocate, List.map_map]
  rfl

private theorem relocate_emitImport (c : Context) (path : String) (l : Location) :
    (emitImport c path l).relocate f (Prod.map id (Context.relocate f)) =
      emitImport (c.relocate f) path (f l) := by
  have himported : (c.relocate f).hasImported coreIo.name = c.hasImported coreIo.name := rfl
  rw [emitImport, emitImport, himported, Context.clash?_relocate, apply_ite (relocate f _),
    apply_ite (relocate f _), ← Context.withLibrary_relocate]
  congr 2
  cases c.clash? coreIo with
  | some clash =>
    obtain ⟨taken, declared⟩ := clash
    cases declared <;> rfl
  | none => rfl

private theorem relocate_emitFn (c : Context) (name : String) (params body : List Node)
    (l : Location) :
    (emitFn c name params body l).relocate f (Prod.map id (Context.relocate f)) =
      emitFn (c.relocate f) name (params.map (Node.relocate f)) (body.map (Node.relocate f))
        (f l) := by
  have hfind : (c.relocate f).functions.find? name =
      (c.functions.find? name).map (Relocatable.relocate f) := Table.find?_relocate f _ name
  unfold emitFn
  rw [hfind]
  cases c.functions.find? name with
  | some taken =>
    have hnote := Binding.relocate_note f taken.toBinding l
    simp only [Option.map_some, relocate_fail, List.map_cons, List.map_nil, hnote]
    rfl
  | none =>
    cases params with
    | cons param params =>
      simp only [Option.map_none, List.map_cons, relocate_fail, Node.location_relocate,
        List.map_nil]
    | nil =>
      have hbody : (emitBody c.variables {} body).relocate f id =
          emitBody (c.relocate f).variables {} (body.map (Node.relocate f)) :=
        relocate_emitBody f c.variables {} body
      have htable : (c.functions.declare { name := name, location := some l }).relocate f =
          (c.relocate f).functions.declare { name := name, location := some (f l) } :=
        Table.declare_relocate f c.functions _
      simp only [Option.map_none, List.map_nil, ← hbody]
      refine relocate_bind f (g := id) _ fun text => ?_
      simp only [relocate_pure, Prod.map, Context.relocate, htable]
      rfl

private theorem relocate_emit (c : Context) (node : Node) :
    (emit c node).relocate f (Prod.map id (Context.relocate f)) =
      emit (c.relocate f) (node.relocate f) := by
  cases node with
  | endOfFile l => rfl
  | fnParams l => rfl
  | token | unaryOp | binaryOp =>
    simp only [emit, Node.relocate]
    exact relocate_bind f (g := id) _ fun _ => rfl
  | importDecl path symbols isLocal l => exact relocate_emitImport f c path l
  | fnDecl name params body l =>
    simp only [emit, Node.relocate, Node.relocateAll_eq]
    exact relocate_emitFn f c name params body l
  | expr items l =>
    simp only [emit, Node.relocate, Node.relocateAll_eq, ← relocate_exprText]
    refine relocate_bind f (g := id) _ fun _ => ?_
    exact relocate_bind f (g := id) _ fun _ => rfl
  | varDecl name isMutable initializer l =>
    have hdeclare : relocateResult f _ (declareText c.variables name isMutable initializer l) =
        declareText (c.relocate f).variables name isMutable (initializer.map (Node.relocate f))
          (f l) := relocate_declareText f c.variables name isMutable initializer l
    simp only [emit, Node.relocate, Node.relocateAll_eq, ← hdeclare]
    exact relocate_bind f _ fun _ => rfl
  | assignment name items l =>
    have hassign : relocateResult f id (assignText ⟨none, c.variables⟩ name items l) =
        assignText ⟨none, (c.relocate f).variables⟩ name (items.map (Node.relocate f)) (f l) :=
      relocate_assignText f ⟨none, c.variables⟩ name items l
    simp only [emit, Node.relocate, Node.relocateAll_eq, ← hassign]
    exact relocate_bind f (g := id) _ fun _ => rfl
  | fnCall name args l =>
    simp only [emit, Node.relocate, Node.relocateAll_eq, ← relocate_callText]
    exact relocate_bind f (g := id) _ fun _ => rfl

/-! ### Scripts -/

/-- A script whose statements stand elsewhere. -/
def Script.relocate (s : Script) : Script :=
  { output := s.output
    context := s.context.relocate f
    warnings := s.warnings.map (Diagnostic.relocate f) }

/-- Adding a moved node to a moved script gives the moved script and the moved error. -/
private theorem Script.relocate_add (s : Script) (node : Node) :
    Prod.map (Script.relocate f) (Option.map (Failure.relocate f)) (s.add node) =
      (s.relocate f).add (node.relocate f) := by
  have hemit := relocate_emit f s.context node
  have hwarnings := congrArg Emission.warnings hemit
  have hresult := congrArg Emission.result hemit
  simp only [Emission.relocate] at hwarnings hresult
  simp only [add_eq, relocate, ← hwarnings, ← hresult, ← List.map_append]
  rcases (emit s.context node).result with e | ⟨text | text, context⟩ <;> rfl

/-! ### Programs -/

/-- A failure elsewhere. -/
def CompileError.relocate : CompileError → CompileError
  | .parse e => .parse (e.relocate f)
  | .emit e => .emit (e.relocate f)

namespace Statements

/-- Moving the statements moves the diagnostics of the compilation, and leaves its output as
it is. -/
theorem compile_relocate (script : Script) (nodes : Statements) :
    (nodes.relocate f).compile (script.relocate f) =
      Prod.map (List.map (Diagnostic.relocate f)) (Except.mapError (CompileError.relocate f))
        (nodes.compile script) := by
  induction nodes generalizing script with
  | closed l => rfl
  | failed e => rfl
  | next node rest ih =>
    have hadd := Script.relocate_add f script node
    have hscript : ((script.relocate f).add (node.relocate f)).1 = (script.add node).1.relocate f :=
      congrArg Prod.fst hadd.symm
    have herror : ((script.relocate f).add (node.relocate f)).2 =
        (script.add node).2.map (Failure.relocate f) := congrArg Prod.snd hadd.symm
    rw [relocate]
    cases h : (script.add node).2 with
    | some e =>
      rw [h] at herror
      rw [compile_next_of_some h, compile_next_of_some herror, hscript]
      rfl
    | none =>
      rw [h] at herror
      rw [compile_next_of_none h, compile_next_of_none herror, hscript]
      exact ih (script.add node).1

/-- Moving the statements moves the error of their listing, and leaves the lines as they
are. -/
theorem listing_relocate (nodes : Statements) :
    (nodes.relocate f).listing = nodes.listing.mapError (CompileError.relocate f) := by
  induction nodes with
  | closed l => rfl
  | failed e => rfl
  | next node rest ih =>
    rw [relocate, listing, listing, ih, Node.dump_relocate]
    cases rest.listing <;> rfl

end Statements

end Dwo
