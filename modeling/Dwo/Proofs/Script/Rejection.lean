import Dwo.Proofs.Script.Addition

/-!
# Rejected statements

A statement that a script rejects leaves nothing behind but warnings: not in the text, not in what
has been established about names, and not in what becomes of any later statement. The main result
is `rejection_keeps_script`.

What a script does next depends on its text and its context alone, never on the warnings that it
still holds. So two scripts that agree in these two (`Script.Agrees`) cannot be told apart by
anything that is done with them, which is proved for one action and then for every sequence of
actions.

The actions are to add a statement and to take the warnings out; the verdict on a statement is
the error that adding it returns, or none. The result is about scripts with any warnings in
them, so it also holds for a rejection that follows another one. What is said about a rejected
statement on the way are warnings and never errors (`onlyWarns_emit`).
-/

namespace Dwo

/-! ### What is said about a statement -/

namespace Emission

variable {α β : Type}

/-- Whatever is said on the way is said as a warning, also if the end is an error. -/
def OnlyWarns (e : Emission α) : Prop :=
  ∀ d ∈ e.warnings, d.severity = .warning

private theorem onlyWarns_pure (a : α) : (pure a : Emission α).OnlyWarns :=
  fun _ hd => by cases hd

private theorem onlyWarns_lift (result : Except EmitError α) : (lift result).OnlyWarns :=
  fun _ hd => by cases hd

private theorem onlyWarns_fail (cause : EmitCause) (l : Location) (notes : List Note) :
    (fail cause l notes : Emission α).OnlyWarns :=
  fun _ hd => by cases hd

private theorem onlyWarns_warn (l : Location) (warning : Warning) : (warn l warning).OnlyWarns := by
  intro d hd
  rw [List.mem_singleton.mp hd]
  rfl

theorem OnlyWarns.bind {e : Emission α} {f : α → Emission β} (he : e.OnlyWarns)
    (hf : ∀ a, (f a).OnlyWarns) : (e >>= f).OnlyWarns := by
  intro d hd
  rcases of_mem_warnings_bind hd with hd | ⟨a, hd⟩
  · exact he d hd
  · exact hf a d hd

end Emission

open Emission

private theorem onlyWarns_emitBodyItem (outer inner : Table Variable) (item : Node) :
    (emitBodyItem outer inner item).OnlyWarns := by
  cases item with
  | token t => exact (onlyWarns_warn _ _).bind fun _ => onlyWarns_pure _
  | expr items l =>
    exact (onlyWarns_warn _ _).bind fun _ => (onlyWarns_lift _).bind fun _ => onlyWarns_pure _
  | varDecl | assignment | fnCall => exact (onlyWarns_lift _).bind fun _ => onlyWarns_pure _
  | unaryOp | binaryOp | fnParams | endOfFile | importDecl | fnDecl => exact onlyWarns_fail _ _ _

/-- All that is said about a body is a warning, also if it ends in an error. -/
private theorem onlyWarns_emitBody (outer inner : Table Variable) (items : List Node) :
    (emitBody outer inner items).OnlyWarns := by
  induction items generalizing inner with
  | nil => exact onlyWarns_pure _
  | cons item items ih =>
    rw [emitBody]
    refine (onlyWarns_emitBodyItem outer inner item).bind fun r => ?_
    exact (ih r.2).bind fun _ => onlyWarns_pure _

private theorem onlyWarns_emitImport (c : Context) (path : String) (l : Location) :
    (emitImport c path l).OnlyWarns := by
  rw [emitImport]
  split
  · exact onlyWarns_fail _ _ _
  · split
    · exact (onlyWarns_warn _ _).bind fun _ => onlyWarns_pure _
    · split
      · exact onlyWarns_fail _ _ _
      · exact onlyWarns_pure _

private theorem onlyWarns_emitFn (c : Context) (name : String) (params body : List Node)
    (l : Location) :
    (emitFn c name params body l).OnlyWarns := by
  unfold emitFn
  split
  · exact onlyWarns_fail _ _ _
  · exact onlyWarns_fail _ _ _
  · exact (onlyWarns_emitBody _ _ body).bind fun _ => onlyWarns_pure _

/-- **Statements of any form draw warnings only**, besides the error that may end them. -/
theorem onlyWarns_emit (c : Context) (node : Node) : (emit c node).OnlyWarns := by
  cases node with
  | endOfFile => exact onlyWarns_pure _
  | fnParams => exact onlyWarns_fail _ _ _
  | importDecl path newName isLocal l => exact onlyWarns_emitImport c path l
  | fnDecl name params body l => exact onlyWarns_emitFn c name params body l
  | token | unaryOp | binaryOp => exact (onlyWarns_warn _ _).bind fun _ => onlyWarns_pure _
  | expr items l =>
    exact (onlyWarns_warn _ _).bind fun _ => (onlyWarns_lift _).bind fun _ => onlyWarns_pure _
  | varDecl | assignment | fnCall => exact (onlyWarns_lift _).bind fun _ => onlyWarns_pure _

/-! ### What can be done with a script -/

/-- A statement is added to a script, or its warnings are taken out. -/
inductive Action where
  | add (node : Node)
  | takeWarnings

namespace Script

/-- The script behind some actions. -/
def after (s : Script) : List Action → Script
  | [] => s
  | .add node :: actions => (s.add node).1.after actions
  | .takeWarnings :: actions => s.takeWarnings.2.after actions

/-- What becomes of the statements that are added: the error of each, if it is rejected. -/
def verdicts (s : Script) : List Action → List (Option EmitError)
  | [] => []
  | .add node :: actions => (s.add node).2 :: (s.add node).1.verdicts actions
  | .takeWarnings :: actions => s.takeWarnings.2.verdicts actions

/-- Scripts that agree in all but the warnings they hold. -/
structure Agrees (s t : Script) : Prop where
  output : s.output = t.output
  context : s.context = t.context

namespace Agrees

variable {s t : Script}

/-- Adding a statement does not look at the warnings. -/
theorem add (h : s.Agrees t) (node : Node) :
    (s.add node).2 = (t.add node).2 ∧ (s.add node).1.Agrees (t.add node).1 := by
  cases hresult : (emit t.context node).result with
  | error e =>
    have hs : (emit s.context node).result = .error e := h.context ▸ hresult
    obtain ⟨hserror, hscontext, hsoutput⟩ := add_of_error hs
    obtain ⟨hterror, htcontext, htoutput⟩ := add_of_error hresult
    refine ⟨hserror.trans hterror.symm, ?_, ?_⟩
    · rw [hsoutput, htoutput, h.output]
    · rw [hscontext, htcontext, h.context]
  | ok r =>
    have hs : (emit s.context node).result = .ok (r.1, r.2) := h.context ▸ hresult
    obtain ⟨hserror, hscontext, hsoutput⟩ := add_of_ok hs
    obtain ⟨hterror, htcontext, htoutput⟩ := add_of_ok hresult
    refine ⟨hserror.trans hterror.symm, ?_, ?_⟩
    · rw [hsoutput, htoutput, h.output]
    · rw [hscontext, htcontext]

/-- **Scripts that agree stay so**, whatever is done with them, and give the same verdicts. -/
theorem after (h : s.Agrees t) (actions : List Action) :
    s.verdicts actions = t.verdicts actions ∧ (s.after actions).Agrees (t.after actions) := by
  induction actions generalizing s t with
  | nil => exact ⟨rfl, h⟩
  | cons action actions ih =>
    cases action with
    | add node =>
      obtain ⟨hverdict, hadd⟩ := h.add node
      obtain ⟨hverdicts, hafter⟩ := ih hadd
      refine ⟨?_, hafter⟩
      rw [verdicts, verdicts, hverdict, hverdicts]
    | takeWarnings => exact ih ⟨h.output, h.context⟩

/-- Scripts that agree are finished alike. -/
theorem finish_eq (h : s.Agrees t) : s.finish = t.finish := by
  rw [finish, finish, h.output, h.context]

end Agrees

end Script

/-- **A rejected statement leaves the script as it was.** Whatever has been done with the script
before and whatever the form of the statement, the text, the tables of variables and functions, the
function `main` and the imports are those of before, and only warnings are added to the warnings.
So everything done later ends with the same verdicts and the same text as if the rejected statement
had never been there. -/
theorem rejection_keeps_script {s s' : Script} {node : Node} {e : EmitError}
    (h : s.add node = (s', some e)) :
    s'.output = s.output ∧
    s'.context.variables = s.context.variables ∧ s'.context.functions = s.context.functions ∧
    s'.context.hasMain = s.context.hasMain ∧ s'.context.libraries = s.context.libraries ∧
    (∃ new, s'.warnings = s.warnings ++ new ∧ ∀ d ∈ new, d.severity = .warning) ∧
    ∀ later, s'.verdicts later = s.verdicts later ∧
      (s'.after later).output = (s.after later).output ∧
      (s'.after later).finish = (s.after later).finish := by
  obtain ⟨hcontext, houtput⟩ := Script.of_add_eq_some h
  have hagrees : s'.Agrees s := ⟨houtput, hcontext⟩
  have hwarnings : s'.warnings = s.warnings ++ (emit s.context node).warnings := by
    rw [← Script.warnings_add, h]
  rw [hcontext]
  refine ⟨houtput, rfl, rfl, rfl, rfl, ⟨_, hwarnings, onlyWarns_emit s.context node⟩, ?_⟩
  intro later
  obtain ⟨hverdicts, hafter⟩ := hagrees.after later
  exact ⟨hverdicts, hafter.output, hafter.finish_eq⟩

/-- A function is rejected for its second statement, when the first has drawn a warning. -/
theorem rejection_keeps_script_nested :
    let s : Script := { warnings := [.warning ⟨"m", 1, 0⟩ "old"] }
    let number : Node := .token ⟨.integer, "1", 1, ⟨"m", 2, 9⟩⟩
    let outer : Node := .fnDecl "f" [] [number, .fnDecl "g" [] [] ⟨"m", 2, 15⟩] ⟨"m", 2, 3⟩
    ∃ s' e, s.add outer = (s', some e) ∧
      s'.output = s.output ∧
      s'.context.variables = s.context.variables ∧ s'.context.functions = s.context.functions ∧
      s'.context.hasMain = s.context.hasMain ∧ s'.context.libraries = s.context.libraries ∧
      (∃ new, s'.warnings = s.warnings ++ new ∧ ∀ d ∈ new, d.severity = .warning) ∧
      ∀ later, s'.verdicts later = s.verdicts later ∧
        (s'.after later).output = (s.after later).output ∧
        (s'.after later).finish = (s.after later).finish := by
  intro s number outer
  have hadd : s.add outer = ((s.add outer).1, some ⟨.nestedFunction "g", ⟨"m", 2, 15⟩,
      [⟨⟨"m", 2, 15⟩, "function `g` should be moved to the top level"⟩]⟩) := by decide
  exact ⟨_, _, hadd, rejection_keeps_script hadd⟩

end Dwo
