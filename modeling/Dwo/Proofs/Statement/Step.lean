import Dwo.Proofs.Token.Spelling
import Dwo.Statement.Reader

/-!
# Steps of reading

`Open.Step` lists the transitions that reading a token can make, one constructor each, with the
spelling that each of them demands. `Open.step_eq_ok_iff` says that these are exactly the
successful steps, so a property of reading is proved by going through the constructors once and
never by opening `Open.step`.

The definition of `Open.step` is opened here and nowhere else. A constructor of `Open.Step`
names the phase that the state must be in and the phase that it moves to, or the node that it
completes; the phases of states are values of one type, so a case split on a step leaves exactly
the cases that are possible in the phase at hand. The functions that `Open.step` is put together
from are treated one by one (`step_of_stepTop`, `step_of_stepBody` and so on).
-/

namespace Dwo

namespace Open

/-! ### The transitions -/

/-- The steps that succeed. A step looks at the spelling of the token alone. -/
inductive Step : Open → Token → Progress → Prop where
  | fnKeyword {fs : List OpenFn} {t : Token} (h : t.spelling = .word "fn") :
      Step ⟨fs, .idle⟩ t (.reading ⟨fs, .fnKeyword t.location⟩)
  | letKeyword {fs : List OpenFn} {t : Token} (h : t.spelling = .word "let") :
      Step ⟨fs, .idle⟩ t (.reading ⟨fs, .letKeyword t.location⟩)
  | useKeyword {t : Token} (h : t.spelling = .word "use") :
      Step ⟨[], .idle⟩ t (.reading ⟨[], .importPath t.location "" .nothing⟩)
  | bodyEnd {f : OpenFn} {outer : List OpenFn} {t : Token} (h : t.spelling = .symbol "\x7d") :
      Step ⟨f :: outer, .idle⟩ t
        (.close outer (.fnDecl f.name.text [] f.body.reverse f.name.location))
  | emptyStatement {f : OpenFn} {outer : List OpenFn} {t : Token}
      (h : t.spelling = .symbol ";") :
      Step ⟨f :: outer, .idle⟩ t (.reading ⟨f :: outer, .idle⟩)
  | word {f : OpenFn} {outer : List OpenFn} {t : Token} (hkind : t.kind = .identifier)
      (hlet : t.text ≠ "let") (hfn : t.text ≠ "fn") :
      Step ⟨f :: outer, .idle⟩ t (.reading ⟨f :: outer, .word t⟩)
  | literal {f : OpenFn} {outer : List OpenFn} {t : Token}
      (hkind : t.kind = .integer ∨ t.kind = .string) :
      Step ⟨f :: outer, .idle⟩ t (.reading ⟨f :: outer, .literal t⟩)
  | straySymbol {f : OpenFn} {outer : List OpenFn} {t : Token} (hkind : t.kind = .symbol)
      (hsemicolon : t.text ≠ ";") (hbrace : t.text ≠ "\x7d") :
      Step ⟨f :: outer, .idle⟩ t (.close (f :: outer) (.token t))
  | stray {f : OpenFn} {outer : List OpenFn} {t : Token}
      (hkind : t.kind = .unknown ∨ t.kind = .endOfFile) :
      Step ⟨f :: outer, .idle⟩ t (.close (f :: outer) (.token t))
  | fnName {fs : List OpenFn} {k : Location} {t : Token} (h : t.kind = .identifier) :
      Step ⟨fs, .fnKeyword k⟩ t (.reading ⟨fs, .fnName k t⟩)
  | fnParams {fs : List OpenFn} {k : Location} {name t : Token} (h : t.spelling = .symbol "(") :
      Step ⟨fs, .fnName k name⟩ t (.reading ⟨fs, .fnParams k name⟩)
  | fnHead {fs : List OpenFn} {k : Location} {name t : Token} (h : t.spelling = .symbol ")") :
      Step ⟨fs, .fnParams k name⟩ t (.reading ⟨fs, .fnHead k name⟩)
  | fnBody {fs : List OpenFn} {k : Location} {name t : Token}
      (h : t.spelling = .symbol "\x7b") :
      Step ⟨fs, .fnHead k name⟩ t (.reading ⟨⟨k, name, []⟩ :: fs, .idle⟩)
  | letName {fs : List OpenFn} {k : Location} {t : Token} (h : t.kind = .identifier) :
      Step ⟨fs, .letKeyword k⟩ t (.reading ⟨fs, .letName k t⟩)
  | letColon {fs : List OpenFn} {k : Location} {name t : Token} (h : t.spelling = .symbol ":") :
      Step ⟨fs, .letName k name⟩ t (.reading ⟨fs, .letColon k name⟩)
  | letMutable {fs : List OpenFn} {k : Location} {name t : Token}
      (h : t.spelling = .symbol "=") :
      Step ⟨fs, .letColon k name⟩ t (.reading ⟨fs, .letMarker k name true⟩)
  | letImmutable {fs : List OpenFn} {k : Location} {name t : Token}
      (h : t.spelling = .symbol ":") :
      Step ⟨fs, .letColon k name⟩ t (.reading ⟨fs, .letMarker k name false⟩)
  | letEnd {fs : List OpenFn} {k : Location} {name t : Token} (h : t.spelling = .symbol ";") :
      Step ⟨fs, .letMarker k name true⟩ t
        (.close fs (.varDecl name.text true [] name.location))
  | letOperand {fs : List OpenFn} {k : Location} {name t : Token} {isMutable : Bool}
      (h : t.isOperand = true) :
      Step ⟨fs, .letMarker k name isMutable⟩ t
        (.reading ⟨fs, .value (.initializer k name isMutable) ⟨t, []⟩⟩)
  | pathEnd {fs : List OpenFn} {k : Location} {text : String} {t : Token}
      (h : t.spelling = .symbol ";") :
      Step ⟨fs, .importPath k text .name⟩ t (.close fs (.importDecl text none false k))
  | pathColon {fs : List OpenFn} {k : Location} {text : String} {t : Token}
      (h : t.spelling = .symbol ":") :
      Step ⟨fs, .importPath k text .name⟩ t
        (.reading ⟨fs, .importPath k (text ++ ":") (.colon t.location)⟩)
  | pathName {fs : List OpenFn} {k : Location} {text : String} {last : PathEnd} {t : Token}
      (hlast : last ≠ .name) (hkind : t.kind = .identifier) :
      Step ⟨fs, .importPath k text last⟩ t (.reading ⟨fs, .importPath k (text ++ t.text) .name⟩)
  | wordAssign {fs : List OpenFn} {name t : Token} (h : t.spelling = .symbol "=") :
      Step ⟨fs, .word name⟩ t (.reading ⟨fs, .operand (.rvalue name)⟩)
  | wordCall {fs : List OpenFn} {name t : Token} (h : t.spelling = .symbol "(") :
      Step ⟨fs, .word name⟩ t (.reading ⟨fs, .callOpen name⟩)
  | wordEnd {fs : List OpenFn} {name t : Token} (h : t.spelling = .symbol ";") :
      Step ⟨fs, .word name⟩ t (.close fs (.token name))
  | literalEnd {fs : List OpenFn} {token t : Token} (h : t.spelling = .symbol ";") :
      Step ⟨fs, .literal token⟩ t (.close fs (.token token))
  | callEmpty {fs : List OpenFn} {name t : Token} (h : t.spelling = .symbol ")") :
      Step ⟨fs, .callOpen name⟩ t (.reading ⟨fs, .callClosed name []⟩)
  | callOperand {fs : List OpenFn} {name t : Token} (h : t.isOperand = true) :
      Step ⟨fs, .callOpen name⟩ t (.reading ⟨fs, .value (.argument name []) ⟨t, []⟩⟩)
  | operand {fs : List OpenFn} {purpose : Purpose} {t : Token} (h : t.isOperand = true) :
      Step ⟨fs, .operand purpose⟩ t (.reading ⟨fs, .value purpose ⟨t, []⟩⟩)
  | signOperand {fs : List OpenFn} {purpose : Purpose} {chain : Chain} {t : Token}
      (h : t.isOperand = true) :
      Step ⟨fs, .sign purpose chain⟩ t (.reading ⟨fs, .value purpose (chain.push t)⟩)
  | valueSign {fs : List OpenFn} {purpose : Purpose} {chain : Chain} {t : Token}
      (h : t.isSign = true) :
      Step ⟨fs, .value purpose chain⟩ t (.reading ⟨fs, .sign purpose (chain.push t)⟩)
  | initializerEnd {fs : List OpenFn} {k : Location} {name t : Token} {isMutable : Bool}
      {chain : Chain} (h : t.spelling = .symbol ";") :
      Step ⟨fs, .value (.initializer k name isMutable) chain⟩ t
        (.close fs (.varDecl name.text isMutable chain.items name.location))
  | rvalueEnd {fs : List OpenFn} {name t : Token} {chain : Chain}
      (h : t.spelling = .symbol ";") :
      Step ⟨fs, .value (.rvalue name) chain⟩ t
        (.close fs (.assignment name.text chain.items name.location))
  | argumentComma {fs : List OpenFn} {name t : Token} {previous : List Node} {chain : Chain}
      (h : t.spelling = .symbol ",") :
      Step ⟨fs, .value (.argument name previous) chain⟩ t
        (.reading ⟨fs, .operand (.argument name (chain.argument :: previous))⟩)
  | argumentEnd {fs : List OpenFn} {name t : Token} {previous : List Node} {chain : Chain}
      (h : t.spelling = .symbol ")") :
      Step ⟨fs, .value (.argument name previous) chain⟩ t
        (.reading ⟨fs, .callClosed name (chain.argument :: previous)⟩)
  | callEnd {fs : List OpenFn} {name t : Token} {args : List Node}
      (h : t.spelling = .symbol ";") :
      Step ⟨fs, .callClosed name args⟩ t
        (.close fs (.fnCall name.text args.reverse name.location))

/-! ### The transitions are the successful steps -/

/-- A step in the form of the relation succeeds. -/
theorem Step.step_eq {s : Open} {t : Token} {p : Progress} (h : Step s t p) :
    s.step t = .ok p := by
  cases h with
  | @fnKeyword fs t h | @letKeyword fs t h =>
    cases fs <;> simp [step, stepTop, stepBody, enter, Token.isKeyword_iff, Token.isSymbol_iff, h]
  | useKeyword h | bodyEnd h | emptyStatement h =>
    simp [step, stepTop, stepBody, enter, Token.isKeyword_iff, Token.isSymbol_iff, h]
  | word hkind hlet hfn =>
    simp [step, stepBody, enter, Token.isKeyword, Token.isSymbol, hkind, hlet, hfn]
  | straySymbol hkind hsemicolon hbrace =>
    simp [step, stepBody, close, Token.isKeyword, Token.isSymbol, hkind, hsemicolon, hbrace]
  | literal hkind | stray hkind =>
    rcases hkind with hkind | hkind <;>
      simp [step, stepBody, enter, close, Token.isKeyword, Token.isSymbol, hkind]
  | fnName h | letName h => simp [step, enter, h]
  | fnParams h | fnHead h | fnBody h | letColon h | letMutable h | letImmutable h | letEnd h
  | pathEnd h | pathColon h | wordAssign h | wordCall h | wordEnd h | literalEnd h | callEmpty h
  | initializerEnd h | rvalueEnd h | argumentComma h | argumentEnd h | callEnd h =>
    simp [step, stepPath, stepChain, enter, close, Token.isSign, Token.isSymbol_iff, h]
  | letOperand h | callOperand h | operand h | signOperand h =>
    have hkind := Token.isOperand_iff.mp h
    have hsymbol : ∀ text, t.isSymbol text = false := by
      intro text
      rcases hkind with hkind | hkind | hkind <;> simp [Token.isSymbol, hkind]
    simp [step, stepOperand, enter, h, hsymbol]
  | valueSign h => simp [step, stepChain, enter, h]
  | @pathName fs k text last t hlast hkind =>
    cases last <;> simp_all [step, stepPath, enter, Token.isSymbol]

private theorem of_ite_eq_ok {c : Prop} [Decidable c] {a p : Progress} {e : ParseError}
    (h : (if c then Except.ok a else Except.error e) = .ok p) : c ∧ a = p := by
  split at h
  · next hc => exact ⟨hc, Except.ok.inj h⟩
  · cases h

private theorem step_of_stepTop {t : Token} {p : Progress}
    (h : stepTop ⟨[], .idle⟩ t = .ok p) : Step ⟨[], .idle⟩ t p := by
  simp only [stepTop, enter, Token.isKeyword_iff] at h
  split at h
  · next hfn => exact (Except.ok.inj h) ▸ .fnKeyword hfn
  · split at h
    · next huse => exact (Except.ok.inj h) ▸ .useKeyword huse
    · split at h
      · next hlet => exact (Except.ok.inj h) ▸ .letKeyword hlet
      · cases h

private theorem step_of_stepBody {f : OpenFn} {outer : List OpenFn} {t : Token} {p : Progress}
    (h : stepBody ⟨f :: outer, .idle⟩ f outer t = .ok p) : Step ⟨f :: outer, .idle⟩ t p := by
  simp only [stepBody, enter, close] at h
  split at h
  · next hend => exact (Except.ok.inj h) ▸ .bodyEnd (Token.isSymbol_iff.mp hend)
  next hend =>
  split at h
  · next hempty => exact (Except.ok.inj h) ▸ .emptyStatement (Token.isSymbol_iff.mp hempty)
  next hempty =>
  split at h
  · next hlet => exact (Except.ok.inj h) ▸ .letKeyword (Token.isKeyword_iff.mp hlet)
  next hlet =>
  split at h
  · next hfn => exact (Except.ok.inj h) ▸ .fnKeyword (Token.isKeyword_iff.mp hfn)
  next hfn =>
  simp only [Token.isSymbol, Token.isKeyword, decide_eq_true_eq, not_and] at hend hempty hlet hfn
  split at h
  · next hkind => exact (Except.ok.inj h) ▸ .word hkind (hlet hkind) (hfn hkind)
  · next hkind => exact (Except.ok.inj h) ▸ .literal (.inl hkind)
  · next hkind => exact (Except.ok.inj h) ▸ .literal (.inr hkind)
  · next hkind => exact (Except.ok.inj h) ▸ .straySymbol hkind (hempty hkind) (hend hkind)
  · next hkind => exact (Except.ok.inj h) ▸ .stray (.inl hkind)
  · next hkind => exact (Except.ok.inj h) ▸ .stray (.inr hkind)

private theorem step_of_stepPath {fs : List OpenFn} {k : Location} {text : String}
    {last : PathEnd} {t : Token} {p : Progress}
    (h : stepPath ⟨fs, .importPath k text last⟩ k text last t = .ok p) :
    Step ⟨fs, .importPath k text last⟩ t p := by
  simp only [stepPath, enter, close, Token.isSymbol_iff] at h
  split at h
  · next hend =>
    cases last with
    | nothing | colon => cases h
    | name => exact (Except.ok.inj h) ▸ .pathEnd hend
  · split at h
    · next hcolon =>
      cases last with
      | nothing | colon => cases h
      | name => exact (Except.ok.inj h) ▸ .pathColon hcolon
    · split at h
      · next hkind =>
        cases last with
        | nothing | colon => exact (Except.ok.inj h) ▸ .pathName (by simp) hkind
        | name => cases h
      · cases h

private theorem step_of_stepChain {fs : List OpenFn} {purpose : Purpose} {chain : Chain}
    {t : Token} {p : Progress}
    (h : stepChain ⟨fs, .value purpose chain⟩ purpose chain t = .ok p) :
    Step ⟨fs, .value purpose chain⟩ t p := by
  simp only [stepChain, enter, close, Token.isSymbol_iff] at h
  split at h
  · next hsign => exact (Except.ok.inj h) ▸ .valueSign hsign
  · cases purpose with
    | initializer k name isMutable =>
      simp only at h
      split at h
      · next hend => exact (Except.ok.inj h) ▸ .initializerEnd hend
      · cases h
    | rvalue name =>
      simp only at h
      split at h
      · next hend => exact (Except.ok.inj h) ▸ .rvalueEnd hend
      · cases h
    | argument name previous =>
      simp only at h
      split at h
      · next hcomma => exact (Except.ok.inj h) ▸ .argumentComma hcomma
      · split at h
        · next hend => exact (Except.ok.inj h) ▸ .argumentEnd hend
        · cases h

/-- A step that succeeds has the form of the relation. -/
theorem Step.of_step_eq {s : Open} {t : Token} {p : Progress} (h : s.step t = .ok p) :
    Step s t p := by
  obtain ⟨fs, phase⟩ := s
  cases phase with
  | idle =>
    cases fs with
    | nil => exact step_of_stepTop h
    | cons f outer => exact step_of_stepBody h
  | importPath k text last => exact step_of_stepPath h
  | value purpose chain => exact step_of_stepChain h
  | fnKeyword k =>
    obtain ⟨hkind, rfl⟩ := of_ite_eq_ok h
    exact .fnName hkind
  | fnName k name =>
    obtain ⟨hsymbol, rfl⟩ := of_ite_eq_ok h
    exact .fnParams (Token.isSymbol_iff.mp hsymbol)
  | fnParams k name =>
    simp only [step, enter] at h
    split at h
    · next hsymbol => exact (Except.ok.inj h) ▸ .fnHead (Token.isSymbol_iff.mp hsymbol)
    · split at h <;> cases h
  | fnHead k name =>
    obtain ⟨hsymbol, rfl⟩ := of_ite_eq_ok h
    exact .fnBody (Token.isSymbol_iff.mp hsymbol)
  | letKeyword k =>
    obtain ⟨hkind, rfl⟩ := of_ite_eq_ok h
    exact .letName hkind
  | letName k name =>
    obtain ⟨hsymbol, rfl⟩ := of_ite_eq_ok h
    exact .letColon (Token.isSymbol_iff.mp hsymbol)
  | letColon k name =>
    simp only [step, enter] at h
    split at h
    · next hsymbol => exact (Except.ok.inj h) ▸ .letMutable (Token.isSymbol_iff.mp hsymbol)
    · obtain ⟨hsymbol, rfl⟩ := of_ite_eq_ok h
      exact .letImmutable (Token.isSymbol_iff.mp hsymbol)
  | letMarker k name isMutable =>
    simp only [step, stepOperand, enter, close] at h
    split at h
    · next hsymbol =>
      obtain ⟨rfl, rfl⟩ := of_ite_eq_ok h
      exact .letEnd (Token.isSymbol_iff.mp hsymbol)
    · obtain ⟨hoperand, rfl⟩ := of_ite_eq_ok h
      exact .letOperand hoperand
  | word name =>
    simp only [step, enter, close] at h
    split at h
    · next hsymbol => exact (Except.ok.inj h) ▸ .wordAssign (Token.isSymbol_iff.mp hsymbol)
    · split at h
      · next hsymbol => exact (Except.ok.inj h) ▸ .wordCall (Token.isSymbol_iff.mp hsymbol)
      · obtain ⟨hsymbol, rfl⟩ := of_ite_eq_ok h
        exact .wordEnd (Token.isSymbol_iff.mp hsymbol)
  | literal token =>
    obtain ⟨hsymbol, rfl⟩ := of_ite_eq_ok h
    exact .literalEnd (Token.isSymbol_iff.mp hsymbol)
  | callOpen name =>
    simp only [step, stepOperand, enter] at h
    split at h
    · next hsymbol => exact (Except.ok.inj h) ▸ .callEmpty (Token.isSymbol_iff.mp hsymbol)
    · obtain ⟨hoperand, rfl⟩ := of_ite_eq_ok h
      exact .callOperand hoperand
  | operand purpose =>
    obtain ⟨hoperand, rfl⟩ := of_ite_eq_ok h
    exact .operand hoperand
  | sign purpose chain =>
    obtain ⟨hoperand, rfl⟩ := of_ite_eq_ok h
    exact .signOperand hoperand
  | callClosed name args =>
    obtain ⟨hsymbol, rfl⟩ := of_ite_eq_ok h
    exact .callEnd (Token.isSymbol_iff.mp hsymbol)

/-- A step succeeds exactly if it is one of the transitions. -/
theorem step_eq_ok_iff {s : Open} {t : Token} {p : Progress} :
    s.step t = .ok p ↔ Step s t p :=
  ⟨Step.of_step_eq, Step.step_eq⟩

/-- A state and a token leave no choice. -/
theorem Step.unique {s : Open} {t : Token} {p q : Progress} (hp : Step s t p)
    (hq : Step s t q) : p = q :=
  Except.ok.inj (hp.step_eq.symm.trans hq.step_eq)

private theorem complete_of_close_eq {fs : List OpenFn} {node n : Node}
    (h : Progress.close fs node = .complete n) : fs = [] ∧ node = n := by
  cases fs with
  | nil => exact ⟨rfl, Progress.complete.inj h⟩
  | cons f outer => cases h

/-- A statement that a token completes is not the end of the text. -/
theorem Step.isEndOfFile_eq_false {s : Open} {t : Token} {n : Node}
    (h : Step s t (.complete n)) : n.isEndOfFile = false := by
  generalize hp : Progress.complete n = p at h
  cases h with
  | bodyEnd | straySymbol | stray | letEnd | pathEnd | wordEnd | literalEnd | initializerEnd
  | rvalueEnd | callEnd =>
    obtain ⟨-, rfl⟩ := complete_of_close_eq hp.symm
    rfl
  | _ => cases hp

end Open

end Dwo
