import Dwo.Proofs.Statement.Step

/-!
# Failing steps

`Open.Fails` lists the errors that reading a token can end with, as `Open.Step` lists the
transitions: an error is about the construct in progress, and it is reported at the token, except
for constants without a value and for colons at the end of an import. All steps that fail are of
this form (`Open.fails_of_step_eq_error`), so what holds of errors is proved from the list and never
by opening `Open.step`.

The list is sound; that a step fails at all is told by `Open.step`. `MayFail s t result` states
for a part of a step that its error, if it has one, is in the list. It holds of the parts that
always succeed, passes through conditions, and is checked for each of the functions from which
`Open.step` is put together. `ParseCause.isLocal` marks the causes that are reported at the
token that cannot be read.
-/

namespace Dwo

/-- Whether a cause is reported at the token that cannot be read. -/
def ParseCause.isLocal : ParseCause → Bool
  | unexpectedEnd _ | uninitializedConstant _ | importTrailingColon => false
  | _ => true

namespace Open

/-- The errors of steps that fail. -/
inductive Fails (s : Open) (t : Token) : ParseError → Prop where
  | here {cause : ParseCause} (h : cause.isLocal = true) : Fails s t (s.fail cause t.location)
  | constant {k : Location} {name : Token} (h : s.phase = .letMarker k name false) :
      Fails s t (s.fail (.uninitializedConstant name.text) name.location)
  | trailingColon {k l : Location} {text : String} (h : s.phase = .importPath k text (.colon l)) :
      Fails s t (s.fail .importTrailingColon l)

/-- If this is an error, then it is one of those. -/
def MayFail (s : Open) (t : Token) (result : Except ParseError Progress) : Prop :=
  ∀ e, result = .error e → s.Fails t e

section

variable {s : Open} {t : Token}

private theorem mayFail_ok (p : Progress) : MayFail s t (.ok p) :=
  fun _ h => by cases h

private theorem mayFail_error {e : ParseError} (h : s.Fails t e) : MayFail s t (.error e) := by
  intro e' he
  rw [← Except.error.inj he]
  exact h

private theorem mayFail_unexpected : MayFail s t (.error (s.unexpected t)) :=
  mayFail_error (.here rfl)

private theorem mayFail_ite {c : Prop} {_ : Decidable c} {a b : Except ParseError Progress}
    (ha : MayFail s t a) (hb : MayFail s t b) : MayFail s t (if c then a else b) := by
  split
  · exact ha
  · exact hb

/-- A test for a token that can be read. -/
theorem mayFail_ite_ok {c : Prop} {_ : Decidable c} {p : Progress}
    {b : Except ParseError Progress} (hb : MayFail s t b) :
    MayFail s t (if c then .ok p else b) :=
  mayFail_ite (mayFail_ok p) hb

private theorem mayFail_stepOperand (purpose : Purpose) : MayFail s t (s.stepOperand purpose t) :=
  mayFail_ite_ok mayFail_unexpected

private theorem mayFail_stepTop : MayFail s t (s.stepTop t) :=
  mayFail_ite_ok (mayFail_ite_ok (mayFail_ite_ok (mayFail_error (.here rfl))))

/-- A statement of a body fails to start only in the ways listed. -/
private theorem mayFail_stepBody (f : OpenFn) (outer : List OpenFn) :
    MayFail s t (s.stepBody f outer t) := by
  refine mayFail_ite_ok (mayFail_ite_ok (mayFail_ite_ok (mayFail_ite_ok ?_)))
  cases t.kind <;> exact mayFail_ok _

/-- The path of an inclusion fails only in the ways listed. -/
private theorem mayFail_stepPath {k : Location} {text : String} {last : PathEnd}
    (hphase : s.phase = .importPath k text last) : MayFail s t (s.stepPath k text last t) := by
  cases last with
  | nothing =>
    refine mayFail_ite (mayFail_error (.here rfl)) (mayFail_ite (mayFail_error (.here rfl)) ?_)
    exact mayFail_ite_ok mayFail_unexpected
  | name =>
    refine mayFail_ite_ok (mayFail_ite_ok ?_)
    exact mayFail_ite (mayFail_error (.here rfl)) mayFail_unexpected
  | colon location =>
    refine mayFail_ite (mayFail_error (.trailingColon hphase)) ?_
    exact mayFail_ite (mayFail_error (.here rfl)) (mayFail_ite_ok mayFail_unexpected)

private theorem mayFail_stepChain (purpose : Purpose) (chain : Chain) :
    MayFail s t (s.stepChain purpose chain t) := by
  cases purpose with
  | initializer | rvalue => exact mayFail_ite_ok (mayFail_ite_ok mayFail_unexpected)
  | argument => exact mayFail_ite_ok (mayFail_ite_ok (mayFail_ite_ok mayFail_unexpected))

end

/-- **The steps that fail do so with one of the errors.** -/
theorem fails_of_step_eq_error {s : Open} {t : Token} {e : ParseError} (h : s.step t = .error e) :
    s.Fails t e := by
  suffices MayFail s t (s.step t) from this e h
  obtain ⟨fs, φ⟩ := s
  cases φ with
  | idle =>
    cases fs with
    | nil => exact mayFail_stepTop
    | cons f outer => exact mayFail_stepBody f outer
  | fnKeyword | fnName | fnHead | letKeyword | letName | literal | sign | callClosed =>
    exact mayFail_ite_ok mayFail_unexpected
  | fnParams => exact mayFail_ite_ok (mayFail_ite (mayFail_error (.here rfl)) mayFail_unexpected)
  | letColon => exact mayFail_ite_ok (mayFail_ite_ok mayFail_unexpected)
  | letMarker k name isMutable =>
    refine mayFail_ite ?_ (mayFail_stepOperand _)
    cases isMutable with
    | true => exact mayFail_ok _
    | false => exact mayFail_error (.constant rfl)
  | importPath => exact mayFail_stepPath rfl
  | word => exact mayFail_ite_ok (mayFail_ite_ok (mayFail_ite_ok (mayFail_error (.here rfl))))
  | callOpen => exact mayFail_ite_ok (mayFail_stepOperand _)
  | operand purpose => exact mayFail_stepOperand purpose
  | value purpose chain => exact mayFail_stepChain purpose chain

end Open

end Dwo
