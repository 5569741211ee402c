import Dwo.Proofs.Statement.Lead

/-!
# Reading accepts exactly the grammar

A source text can be read to its end if and only if the spellings of its tokens are a program
(`readsAll_iff_mem_program`).

That only programs are accepted is in `Dwo.Proofs.Statement.Lead`. That all programs are is proved
with triples: `Passes P l Q` says that from a state in `P` every sequence in `l` can be read, and
ends in a state in `Q`. Such triples compose along the operations on languages, so the grammar is
followed clause by clause.

The sets of states that occur in the triples are given by how many functions are open:

* `Idle n`: between two statements, inside of `n` functions;
* `At n C`: inside of `n` functions and in one of the phases of `C`.

A terminal is passed by one step, and each clause of the grammar is put together from its
terminals with `Passes.mul`, `Passes.add` and `Passes.kstar`. Functions are the only recursive
clause, so `passes_item` is an induction on the item, for all depths at once. Both directions
meet in `Open.exists_run_iff`, which is about tokens; `readsAll_iff_mem_program` carries it over
to readers.
-/

namespace Dwo

open scoped Computability
open Grammar

/-! ### Triples -/

namespace Open

/-- From every state in `P`, every sequence of tokens in `l` can be read, up to a state
in `Q`. -/
def Passes (P : Set Open) (l : Language Spelling) (Q : Set Open) : Prop :=
  ∀ s ∈ P, ∀ ts : List Token, ts.map Token.spelling ∈ l → ∃ ns, ∃ s' ∈ Q, Run s ts ns s'

namespace Passes

variable {P Q R : Set Open} {l m : Language Spelling}

theorem one : Passes P 1 P := by
  intro s hs ts hts
  obtain rfl := List.map_eq_nil_iff.mp ((Language.mem_one _).mp hts)
  exact ⟨[], s, hs, .nil s⟩

/-- Two parts are read one after the other, through the states in the middle. -/
theorem mul (hl : Passes P l Q) (hm : Passes Q m R) : Passes P (l * m) R := by
  intro s hs ts hts
  obtain ⟨_, hfront, _, hback, hsplit⟩ := Language.mem_mul.mp hts
  obtain ⟨us, vs, rfl, rfl, rfl⟩ := List.map_eq_append_iff.mp hsplit.symm
  obtain ⟨ns, s₁, hs₁, hrun⟩ := hl s hs us hfront
  obtain ⟨ms, s₂, hs₂, hrun'⟩ := hm s₁ hs₁ vs hback
  exact ⟨ns ++ ms, s₂, hs₂, hrun.append hrun'⟩

/-- An alternative is read if each of its sides is. -/
theorem add (hl : Passes P l Q) (hm : Passes P m Q) : Passes P (l + m) Q := by
  rintro s hs ts (hts | hts)
  · exact hl s hs ts hts
  · exact hm s hs ts hts

/-- A repetition is read if each round leads back to where it started. -/
theorem kstar (hl : Passes P l P) : Passes P l∗ P := by
  have hpow : ∀ n : ℕ, Passes P (l ^ n) P := by
    intro n
    induction n with
    | zero => exact one
    | succ n ih => exact pow_succ l n ▸ ih.mul hl
  intro s hs ts hts
  obtain ⟨n, hn⟩ := Set.mem_iUnion.mp (Language.kstar_eq_iSup_pow l ▸ hts)
  exact hpow n s hs ts hn

theorem mono (hlm : m ≤ l) (hl : Passes P l Q) : Passes P m Q :=
  fun s hs ts hts => hl s hs ts (hlm hts)

private theorem weaken (hQR : Q ⊆ R) (hl : Passes P l Q) : Passes P l R := by
  intro s hs ts hts
  obtain ⟨ns, s', hs', hrun⟩ := hl s hs ts hts
  exact ⟨ns, s', hQR hs', hrun⟩

end Passes

/-- `n` functions are open, and the phase is one of `C`. -/
def At (n : ℕ) (C : Set Phase) : Set Open :=
  {s | s.functions.length = n ∧ s.phase ∈ C}

/-- `n` functions are open, and no statement has been begun in the innermost of them. -/
def Idle (n : ℕ) : Set Open := At n {.idle}

private theorem close_mem_idle (fs : List OpenFn) (node : Node) :
    (Progress.close fs node).state ∈ Idle fs.length := by
  cases fs <;> exact ⟨rfl, rfl⟩

namespace Passes

variable {n : ℕ} {C D : Set Phase} {p : Spelling → Prop}

/-- A token that goes on with a construct. -/
theorem enter (h : ∀ fs t, fs.length = n → ∀ φ ∈ C, p t.spelling →
      ∃ ψ ∈ D, Step ⟨fs, φ⟩ t (.reading ⟨fs, ψ⟩)) :
    Passes (At n C) (terminal p) (At n D) := by
  rintro ⟨fs, φ⟩ ⟨hn, hφ⟩ ts ⟨_, ht, hts⟩
  obtain ⟨t, rfl, rfl⟩ := List.map_eq_singleton_iff.mp hts
  obtain ⟨ψ, hψ, hstep⟩ := h fs t hn φ hφ ht
  exact ⟨_, ⟨fs, ψ⟩, ⟨hn, hψ⟩, .cons hstep (.nil _)⟩

/-- A token that ends a construct. -/
theorem close (h : ∀ fs t, fs.length = n → ∀ φ ∈ C, p t.spelling →
      ∃ node, Step ⟨fs, φ⟩ t (.close fs node)) :
    Passes (At n C) (terminal p) (Idle n) := by
  rintro ⟨fs, φ⟩ ⟨hn, hφ⟩ ts ⟨_, ht, hts⟩
  obtain ⟨t, rfl, rfl⟩ := List.map_eq_singleton_iff.mp hts
  obtain ⟨node, hstep⟩ := h fs t hn φ hφ ht
  exact ⟨_, _, hn ▸ close_mem_idle fs node, .cons hstep (.nil _)⟩

end Passes

/-! ### Expressions -/

/-- The phases behind an operand of an expression that is read for one of `D`. -/
def valuesFor (D : Set Purpose) : Set Phase :=
  {φ | ∃ purpose ∈ D, ∃ chain, φ = .value purpose chain}

/-- The phases behind a sign of such an expression. -/
def signsFor (D : Set Purpose) : Set Phase :=
  {φ | ∃ purpose ∈ D, ∃ chain, φ = .sign purpose chain}

section Constructs

variable {n : ℕ}

/-- An operand is read wherever a step for it is given. -/
private theorem passes_operand {C D : Set Phase} (h : ∀ fs t, ∀ φ ∈ C, t.isOperand = true →
      ∃ ψ ∈ D, Step ⟨fs, φ⟩ t (.reading ⟨fs, ψ⟩)) :
    Passes (At n C) operand (At n D) := by
  rw [operand_eq_terminal]
  refine Passes.enter fun fs t _ φ hφ ht => h fs t φ hφ ?_
  exact Token.isOperand_iff.mpr (or_assoc.mp ht)

/-- Where the first operand can be read, the whole expression can. -/
theorem passes_expression {C : Set Phase} {D : Set Purpose}
    (h : Passes (At n C) operand (At n (valuesFor D))) :
    Passes (At n C) expression (At n (valuesFor D)) := by
  have hsign : Passes (At n (valuesFor D)) sign (At n (signsFor D)) := by
    rw [sign_eq_terminal]
    refine Passes.enter ?_
    rintro fs t _ _ ⟨purpose, hpurpose, chain, rfl⟩ ht
    exact ⟨_, ⟨purpose, hpurpose, _, rfl⟩, .valueSign (Token.isSign_iff.mpr ht)⟩
  have hoperand : Passes (At n (signsFor D)) operand (At n (valuesFor D)) := by
    refine passes_operand ?_
    rintro fs t _ ⟨purpose, hpurpose, chain, rfl⟩ ht
    exact ⟨_, ⟨purpose, hpurpose, _, rfl⟩, .signOperand ht⟩
  exact h.mul (hsign.mul hoperand).kstar

/-! ### Statements -/

private theorem passes_declaration : Passes (Idle n) declaration (Idle n) := by
  have hlet : Passes (Idle n) (keyword "let") (At n {φ | ∃ k, φ = .letKeyword k}) := by
    refine Passes.enter ?_
    rintro fs t _ _ rfl ht
    exact ⟨_, ⟨_, rfl⟩, .letKeyword ht⟩
  have hname : Passes (At n {φ | ∃ k, φ = .letKeyword k}) name
      (At n {φ | ∃ k x, φ = .letName k x}) := by
    refine Passes.enter ?_
    rintro fs t _ _ ⟨k, rfl⟩ ht
    exact ⟨_, ⟨k, t, rfl⟩, .letName ht⟩
  have hcolon : Passes (At n {φ | ∃ k x, φ = .letName k x}) (symbol ":")
      (At n {φ | ∃ k x, φ = .letColon k x}) := by
    refine Passes.enter ?_
    rintro fs t _ _ ⟨k, x, rfl⟩ ht
    exact ⟨_, ⟨k, x, rfl⟩, .letColon ht⟩
  have hvariable : Passes (At n {φ | ∃ k x, φ = .letColon k x}) (symbol "=")
      (At n {φ | ∃ k x, φ = .letMarker k x true}) := by
    refine Passes.enter ?_
    rintro fs t _ _ ⟨k, x, rfl⟩ ht
    exact ⟨_, ⟨k, x, rfl⟩, .letMutable ht⟩
  have hconstant : Passes (At n {φ | ∃ k x, φ = .letColon k x}) (symbol ":")
      (At n {φ | ∃ k x, φ = .letMarker k x false}) := by
    refine Passes.enter ?_
    rintro fs t _ _ ⟨k, x, rfl⟩ ht
    exact ⟨_, ⟨k, x, rfl⟩, .letImmutable ht⟩
  have hvalue (isMutable : Bool) : Passes (At n {φ | ∃ k x, φ = .letMarker k x isMutable})
      (expression * symbol ";") (Idle n) := by
    refine Passes.mul (Q := At n (valuesFor {pu | ∃ k x, pu = .initializer k x isMutable}))
      (passes_expression (passes_operand ?_)) (Passes.close ?_)
    · rintro fs t _ ⟨k, x, rfl⟩ ht
      exact ⟨_, ⟨_, ⟨k, x, rfl⟩, _, rfl⟩, .letOperand ht⟩
    · rintro fs t _ _ ⟨_, ⟨k, x, rfl⟩, chain, rfl⟩ ht
      exact ⟨_, .initializerEnd ht⟩
  have hnothing : Passes (At n {φ | ∃ k x, φ = .letMarker k x true}) (symbol ";") (Idle n) := by
    refine Passes.close ?_
    rintro fs t _ _ ⟨k, x, rfl⟩ ht
    exact ⟨_, .letEnd ht⟩
  -- The two clauses share their first three tokens; only a variable may end without a value.
  have hhead := (hlet.mul hname).mul hcolon
  refine Passes.add ?_ ?_
  · rw [mul_assoc _ (1 + expression), add_mul, one_mul]
    exact (hhead.mul hvariable).mul (hnothing.add (hvalue true))
  · rw [mul_assoc _ expression]
    exact (hhead.mul hconstant).mul (hvalue false)

private theorem passes_inclusion : Passes (Idle 0) inclusion (Idle 0) := by
  have huse : Passes (Idle 0) (keyword "use")
      (At 0 {φ | ∃ k text, ∃ last ≠ .name, φ = .importPath k text last}) := by
    refine Passes.enter ?_
    rintro fs t hfs _ rfl ht
    obtain rfl := List.length_eq_zero_iff.mp hfs
    exact ⟨_, ⟨_, _, .nothing, by simp, rfl⟩, .useKeyword ht⟩
  have hname : Passes (At 0 {φ | ∃ k text, ∃ last ≠ .name, φ = .importPath k text last}) name
      (At 0 {φ | ∃ k text, φ = .importPath k text .name}) := by
    refine Passes.enter ?_
    rintro fs t _ _ ⟨k, text, last, hlast, rfl⟩ ht
    exact ⟨_, ⟨k, _, rfl⟩, .pathName hlast ht⟩
  have hcolon : Passes (At 0 {φ | ∃ k text, φ = .importPath k text .name}) (symbol ":")
      (At 0 {φ | ∃ k text, ∃ last ≠ .name, φ = .importPath k text last}) := by
    refine Passes.enter ?_
    rintro fs t _ _ ⟨k, text, rfl⟩ ht
    exact ⟨_, ⟨k, _, .colon t.location, by simp, rfl⟩, .pathColon ht⟩
  have hend : Passes (At 0 {φ | ∃ k text, φ = .importPath k text .name}) (symbol ";")
      (Idle 0) := by
    refine Passes.close ?_
    rintro fs t _ _ ⟨k, text, rfl⟩ ht
    exact ⟨_, .pathEnd ht⟩
  exact (huse.mul (hname.mul (hcolon.mul hname).kstar)).mul hend

private theorem passes_word : Passes (Idle (n + 1)) word (At (n + 1) {φ | ∃ x, φ = .word x}) := by
  refine Passes.enter ?_
  rintro (_ | ⟨f, outer⟩) t hfs _ rfl ⟨hkind, hlet, hfn⟩
  · cases hfs
  · exact ⟨_, ⟨t, rfl⟩, .word hkind hlet hfn⟩

private theorem passes_assignment : Passes (Idle (n + 1)) assignment (Idle (n + 1)) := by
  have hsign : Passes (At (n + 1) {φ | ∃ x, φ = .word x}) (symbol "=")
      (At (n + 1) {φ | ∃ x, φ = .operand (.rvalue x)}) := by
    refine Passes.enter ?_
    rintro fs t _ _ ⟨x, rfl⟩ ht
    exact ⟨_, ⟨x, rfl⟩, .wordAssign ht⟩
  have hvalue : Passes (At (n + 1) {φ | ∃ x, φ = .operand (.rvalue x)}) expression
      (At (n + 1) (valuesFor {pu | ∃ x, pu = .rvalue x})) := by
    refine passes_expression (passes_operand ?_)
    rintro fs t _ ⟨x, rfl⟩ ht
    exact ⟨_, ⟨_, ⟨x, rfl⟩, _, rfl⟩, .operand ht⟩
  have hend : Passes (At (n + 1) (valuesFor {pu | ∃ x, pu = .rvalue x})) (symbol ";")
      (Idle (n + 1)) := by
    refine Passes.close ?_
    rintro fs t _ _ ⟨_, ⟨x, rfl⟩, chain, rfl⟩ ht
    exact ⟨_, .rvalueEnd ht⟩
  exact ((passes_word.mul hsign).mul hvalue).mul hend

private theorem passes_call : Passes (Idle (n + 1)) call (Idle (n + 1)) := by
  let values := valuesFor {pu | ∃ x previous, pu = .argument x previous}
  have hopen : Passes (At (n + 1) {φ | ∃ x, φ = .word x}) (symbol "(")
      (At (n + 1) {φ | ∃ x, φ = .callOpen x}) := by
    refine Passes.enter ?_
    rintro fs t _ _ ⟨x, rfl⟩ ht
    exact ⟨_, ⟨x, rfl⟩, .wordCall ht⟩
  have hnone : Passes (At (n + 1) {φ | ∃ x, φ = .callOpen x}) (symbol ")")
      (At (n + 1) {φ | ∃ x args, φ = .callClosed x args}) := by
    refine Passes.enter ?_
    rintro fs t _ _ ⟨x, rfl⟩ ht
    exact ⟨_, ⟨x, [], rfl⟩, .callEmpty ht⟩
  have hfirst : Passes (At (n + 1) {φ | ∃ x, φ = .callOpen x}) expression
      (At (n + 1) values) := by
    refine passes_expression (passes_operand ?_)
    rintro fs t _ ⟨x, rfl⟩ ht
    exact ⟨_, ⟨_, ⟨x, [], rfl⟩, _, rfl⟩, .callOperand ht⟩
  have hcomma : Passes (At (n + 1) values) (symbol ",")
      (At (n + 1) {φ | ∃ x previous, φ = .operand (.argument x previous)}) := by
    refine Passes.enter ?_
    rintro fs t _ _ ⟨_, ⟨x, previous, rfl⟩, chain, rfl⟩ ht
    exact ⟨_, ⟨x, _, rfl⟩, .argumentComma ht⟩
  have hnext : Passes (At (n + 1) {φ | ∃ x previous, φ = .operand (.argument x previous)})
      expression (At (n + 1) values) := by
    refine passes_expression (passes_operand ?_)
    rintro fs t _ ⟨x, previous, rfl⟩ ht
    exact ⟨_, ⟨_, ⟨x, previous, rfl⟩, _, rfl⟩, .operand ht⟩
  have hlast : Passes (At (n + 1) values) (symbol ")")
      (At (n + 1) {φ | ∃ x args, φ = .callClosed x args}) := by
    refine Passes.enter ?_
    rintro fs t _ _ ⟨_, ⟨x, previous, rfl⟩, chain, rfl⟩ ht
    exact ⟨_, ⟨x, _, rfl⟩, .argumentEnd ht⟩
  have hend : Passes (At (n + 1) {φ | ∃ x args, φ = .callClosed x args}) (symbol ";")
      (Idle (n + 1)) := by
    refine Passes.close ?_
    rintro fs t _ _ ⟨x, args, rfl⟩ ht
    exact ⟨_, .callEnd ht⟩
  have hsome := (hfirst.mul (hcomma.mul hnext).kstar).mul hlast
  -- The parenthesis behind no arguments leaves another state than the one behind some.
  rw [call, mul_assoc _ arguments, arguments, add_mul, one_mul]
  exact ((passes_word.mul hopen).mul (hnone.add hsome)).mul hend

private theorem passes_hanging : Passes (Idle (n + 1)) (word * symbol ";") (Idle (n + 1)) := by
  refine passes_word.mul (Passes.close ?_)
  rintro fs t _ _ ⟨x, rfl⟩ ht
  exact ⟨_, .wordEnd ht⟩

private theorem passes_literal {kind : Kind} (hkind : kind = .integer ∨ kind = .string) :
    Passes (Idle (n + 1)) (terminal (·.kind = kind) * symbol ";") (Idle (n + 1)) := by
  refine Passes.mul (Q := At (n + 1) {φ | ∃ x, φ = .literal x}) (Passes.enter ?_)
    (Passes.close ?_)
  · rintro (_ | ⟨f, outer⟩) t hfs _ rfl ht
    · cases hfs
    · have ht : t.kind = kind := ht
      exact ⟨_, ⟨t, rfl⟩, .literal (ht ▸ hkind)⟩
  · rintro fs t _ _ ⟨x, rfl⟩ ht
    exact ⟨_, .literalEnd ht⟩

private theorem passes_emptyStatement : Passes (Idle (n + 1)) (symbol ";") (Idle (n + 1)) := by
  refine Passes.enter ?_
  rintro (_ | ⟨f, outer⟩) t hfs _ rfl ht
  · cases hfs
  · exact ⟨_, rfl, .emptyStatement ht⟩

private theorem passes_straySymbol : Passes (Idle (n + 1)) straySymbol (Idle (n + 1)) := by
  refine Passes.close ?_
  rintro (_ | ⟨f, outer⟩) t hfs _ rfl ⟨hkind, hsemicolon, hbrace⟩
  · cases hfs
  · exact ⟨_, .straySymbol hkind hsemicolon hbrace⟩

private theorem passes_unknown : Passes (Idle (n + 1)) unknown (Idle (n + 1)) := by
  refine Passes.close ?_
  rintro (_ | ⟨f, outer⟩) t hfs _ rfl ht
  · cases hfs
  · exact ⟨_, .stray (.inl ht)⟩

/-- Every item that is no nested function is read inside of a function. -/
private theorem passes_simpleItem : Passes (Idle (n + 1)) simpleItem (Idle (n + 1)) :=
  ((((((((passes_emptyStatement.add passes_declaration).add passes_assignment).add
    passes_call).add passes_hanging).add (passes_literal (.inl rfl))).add
    (passes_literal (.inr rfl))).add passes_straySymbol).add passes_unknown)

/-! ### Functions -/

/-- The head of a function leads one function deeper. -/
private theorem passes_fnHead : Passes (Idle n) fnHead (Idle (n + 1)) := by
  have hfn : Passes (Idle n) (keyword "fn") (At n {φ | ∃ k, φ = .fnKeyword k}) := by
    refine Passes.enter ?_
    rintro fs t _ _ rfl ht
    exact ⟨_, ⟨_, rfl⟩, .fnKeyword ht⟩
  have hname : Passes (At n {φ | ∃ k, φ = .fnKeyword k}) name
      (At n {φ | ∃ k x, φ = .fnName k x}) := by
    refine Passes.enter ?_
    rintro fs t _ _ ⟨k, rfl⟩ ht
    exact ⟨_, ⟨k, t, rfl⟩, .fnName ht⟩
  have hopen : Passes (At n {φ | ∃ k x, φ = .fnName k x}) (symbol "(")
      (At n {φ | ∃ k x, φ = .fnParams k x}) := by
    refine Passes.enter ?_
    rintro fs t _ _ ⟨k, x, rfl⟩ ht
    exact ⟨_, ⟨k, x, rfl⟩, .fnParams ht⟩
  have hclose : Passes (At n {φ | ∃ k x, φ = .fnParams k x}) (symbol ")")
      (At n {φ | ∃ k x, φ = .fnHead k x}) := by
    refine Passes.enter ?_
    rintro fs t _ _ ⟨k, x, rfl⟩ ht
    exact ⟨_, ⟨k, x, rfl⟩, .fnHead ht⟩
  have hbody : Passes (At n {φ | ∃ k x, φ = .fnHead k x}) (symbol "\x7b")
      (Idle (n + 1)) := by
    rintro ⟨fs, _⟩ ⟨rfl, k, x, rfl⟩ ts ⟨_, ht, hts⟩
    obtain ⟨t, rfl, rfl⟩ := List.map_eq_singleton_iff.mp hts
    exact ⟨_, ⟨⟨k, x, []⟩ :: fs, .idle⟩, ⟨rfl, rfl⟩, .cons (.fnBody ht) (.nil _)⟩
  exact (((hfn.mul hname).mul hopen).mul hclose).mul hbody

/-- The closing brace leads out of the innermost function. -/
private theorem passes_bodyEnd : Passes (Idle (n + 1)) (symbol "\x7d") (Idle n) := by
  rintro ⟨_ | ⟨f, outer⟩, _⟩ ⟨hn, rfl⟩ ts ⟨_, ht, hts⟩
  · cases hn
  · obtain ⟨t, rfl, rfl⟩ := List.map_eq_singleton_iff.mp hts
    obtain rfl := Nat.succ.inj hn
    exact ⟨_, _, close_mem_idle _ _, .cons (.bodyEnd ht) (.nil _)⟩

/-- A function can be read if its items can. -/
theorem passes_function {l : Language Spelling}
    (hl : Passes (Idle (n + 1)) l (Idle (n + 1))) :
    Passes (Idle n) (fnHead * l∗ * symbol "\x7d") (Idle n) :=
  (passes_fnHead.mul hl.kstar).mul passes_bodyEnd

/-- Functions nest: the depth `n` at which an item is read is arbitrary, and the body of a
function is read one level deeper. -/
theorem passes_item : Passes (Idle (n + 1)) item (Idle (n + 1)) := by
  have hitem {ss : List Spelling} (hss : IsItem ss) :
      ∀ n, Passes (Idle (n + 1)) {ss} (Idle (n + 1)) := by
    induction hss with
    | simple hss => exact fun n => passes_simpleItem.mono (Set.singleton_subset_iff.mpr hss)
    | @function head items hhead _ ih =>
      intro n
      -- The items at hand need not be all items, so the body is read by those that pass.
      let l : Language Spelling := {ss | Passes (Idle (n + 2)) {ss} (Idle (n + 2))}
      have hl : Passes (Idle (n + 2)) l (Idle (n + 2)) :=
        fun s hs ts hts => hts s hs ts rfl
      have hmem : head ++ items.flatten ++ [.symbol "\x7d"] ∈ fnHead * l∗ * symbol "\x7d" :=
        Language.append_mem_mul (Language.append_mem_mul hhead
          (Language.join_mem_kstar fun ss hss => ih ss hss (n + 1))) ⟨_, rfl, rfl⟩
      exact (passes_function hl).mono (Set.singleton_subset_iff.mpr hmem)
  exact fun s hs ts hts => hitem hts n s hs ts rfl

/-- Every program of the grammar is read, from the idle state back to the idle state. -/
theorem passes_program : Passes (Idle 0) program (Idle 0) :=
  (((passes_function passes_item).add passes_declaration).add passes_inclusion).kstar

end Constructs

/-- **Tokens can be read to their end, with nothing left open, exactly if their spellings are a
program.** -/
theorem exists_run_iff {ts : List Token} (hts : ∀ t ∈ ts, t.spelling.Lexical) :
    (∃ nodes, Run {} ts nodes {}) ↔ ts.map Token.spelling ∈ program := by
  constructor
  · rintro ⟨nodes, hrun⟩
    have hmem := map_spelling_mem_of_run hts hrun
    rwa [program_mul_lead] at hmem
  · intro h
    obtain ⟨nodes, ⟨fs, φ⟩, ⟨hfs, rfl⟩, hrun⟩ := passes_program {} ⟨rfl, rfl⟩ ts h
    obtain rfl := List.length_eq_zero_iff.mp hfs
    exact ⟨nodes, hrun⟩

/-- Where a statement of a body can start, by the grammar and by the state. -/
theorem mem_openBody_iff {ts : List Token} {ns : List Node} {s : Open}
    (hts : ∀ t ∈ ts, t.spelling.Lexical) (h : Run {} ts ns s) :
    ts.map Token.spelling ∈ openBody ↔ s.phase = .idle ∧ s.functions ≠ [] := by
  constructor
  · intro hmem
    have hframe : Passes {s | s.phase = .idle} (fnHead * item∗)
        {s | s.phase = .idle ∧ s.functions ≠ []} := by
      intro s hs ts hts
      obtain ⟨ns, s', ⟨hlength, hidle⟩, hrun⟩ :=
        (passes_fnHead.mul passes_item.kstar) s ⟨rfl, hs⟩ ts hts
      exact ⟨ns, s', ⟨hidle, List.ne_nil_of_length_eq_add_one hlength⟩, hrun⟩
    have hframes : Passes {s | s.phase = .idle} (fnHead * item∗)∗ {s | s.phase = .idle} :=
      Passes.kstar (hframe.weaken fun _ h => h.1)
    have hopen := ((passes_program.weaken fun _ h => h.2).mul hframes).mul hframe
    obtain ⟨ns', s', hs', hrun⟩ := hopen {} ⟨rfl, rfl⟩ ts hmem
    -- The state that the grammar leads to is the given one, because steps leave no choice.
    obtain ⟨-, rfl⟩ := h.unique hrun
    exact hs'
  · obtain ⟨fs, φ⟩ := s
    rintro ⟨rfl, hfs⟩
    have hmem := map_spelling_mem_of_run hts h
    cases fs with
    | nil => exact absurd rfl hfs
    | cons f outer =>
      have hle : program * lead ⟨f :: outer, .idle⟩ ≤ openBody := by
        calc program * (frames outer * (fnHead * item∗) * 1)
              = program * frames outer * (fnHead * item∗) := by simp only [mul_one, mul_assoc]
          _ ≤ openBody := by
              rw [openBody]
              grw [frames_le outer]
      exact hle hmem

end Open

/-- **Reading accepts exactly the grammar.** Successive calls reach the end of a source text
without an error if and only if the spellings of its tokens are a program. -/
theorem readsAll_iff_mem_program (path source : String) :
    (∃ nodes r, (Reader.ofSource path source).ReadsAll nodes r) ↔
      (tokenize path source).map Token.spelling ∈ program := by
  rw [← Open.exists_run_iff fun t => lexical_of_mem_tokenize]
  constructor
  · rintro ⟨nodes, r, h⟩
    exact ⟨nodes, (Reader.readsAll_iff.mp h).1⟩
  · rintro ⟨nodes, h⟩
    exact ⟨nodes, _, Reader.readsAll_iff.mpr ⟨h, rfl⟩⟩

end Dwo
