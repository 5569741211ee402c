import Dwo.Proofs.Statement.Run

/-!
# The form of statements

The type of syntax trees admits every combination of parts; reading returns only some of them.
`Node.IsTopLevel` and `Node.IsBodyItem` say which. They follow from an invariant of reading,
`Open.WellFormed`: every step keeps it and completes only statements of the right form
(`Open.WellFormed.step`), so every run does (`Open.WellFormed.run`).

* `IsChain`: operands with signs between them, as they are read from left to right;
* `IsExpression`, `IsInitializer`, `IsArgument`: the lists of nodes that a chain becomes,
  depending on where it stands;
* `Node.IsBodyItem`: the statements of functions, and functions inside of functions;
* `Node.IsTopLevel`: the statements outside of all functions.

A state is well formed if the bodies of its open functions are made of body items and what it
has read of an expression is a chain. Later modules take the form of a statement apart by cases
on these predicates, instead of looking at all syntax trees.
-/

namespace Dwo

/-! ### Expressions -/

/-- Operands joined by signs. -/
inductive IsChain : List Token → Prop where
  | operand {t : Token} : t.isOperand = true → IsChain [t]
  | sign {ts : List Token} {s t : Token} :
      IsChain ts → s.isSign = true → t.isOperand = true → IsChain (ts ++ [s, t])

namespace IsChain

/-- A chain has an operand at least. -/
theorem length_pos {ts : List Token} (h : IsChain ts) : 0 < ts.length := by
  cases h <;> simp

/-- A chain is a single operand, or it has two operands at least and a sign between them. -/
theorem length_eq_one_or {ts : List Token} (h : IsChain ts) :
    ts.length = 1 ∨ 3 ≤ ts.length := by
  cases h with
  | operand => exact .inl rfl
  | @sign ts s t hts =>
    have hpos := hts.length_pos
    right
    rw [List.length_append, List.length_cons, List.length_singleton]
    omega

private theorem isOperand_of_singleton {t : Token} (h : IsChain [t]) : t.isOperand = true := by
  generalize hts : [t] = ts at h
  have hlength : ts.length = 1 := hts ▸ rfl
  cases h with
  | operand ht =>
    obtain rfl := List.singleton_inj.mp hts
    exact ht
  | @sign ts s t hchain =>
    have hpos := hchain.length_pos
    rw [List.length_append, List.length_cons, List.length_singleton] at hlength
    omega

/-- Nothing but operands and signs stands in a chain. -/
theorem isOperand_or_isSign {ts : List Token} (h : IsChain ts) :
    ∀ t ∈ ts, t.isOperand = true ∨ t.isSign = true := by
  induction h with
  | operand ht =>
    intro t hmem
    rw [List.mem_singleton.mp hmem]
    exact .inl ht
  | sign _ hs ht ih =>
    intro u hmem
    rw [List.mem_append, List.mem_cons, List.mem_singleton] at hmem
    rcases hmem with hmem | rfl | rfl
    · exact ih u hmem
    · exact .inr hs
    · exact .inl ht

end IsChain

/-- The parts of an expression: the tokens of a chain. -/
def IsExpression (items : List Node) : Prop :=
  ∃ ts, IsChain ts ∧ items = ts.map Node.token

/-- What can follow the marker of a declaration: an expression or, for a variable, nothing. -/
def IsInitializer (isMutable : Bool) (items : List Node) : Prop :=
  (isMutable = true ∧ items = []) ∨ IsExpression items

/-! ### Statements -/

namespace Node

/-- An argument of a call: a single operand, or an expression with a sign in it. -/
inductive IsArgument : Node → Prop where
  | operand {t : Token} : t.isOperand = true → IsArgument (.token t)
  | expr {ts : List Token} {l : Location} :
      IsChain ts → 3 ≤ ts.length → IsArgument (.expr (ts.map Node.token) l)

/-- A statement of a function. -/
inductive IsBodyItem : Node → Prop where
  | token (t : Token) : IsBodyItem (.token t)
  | varDecl {name : String} {isMutable : Bool} {initializer : List Node} {l : Location} :
      IsInitializer isMutable initializer → IsBodyItem (.varDecl name isMutable initializer l)
  | assignment {name : String} {items : List Node} {l : Location} :
      IsExpression items → IsBodyItem (.assignment name items l)
  | fnCall {name : String} {args : List Node} {l : Location} :
      (∀ arg ∈ args, IsArgument arg) → IsBodyItem (.fnCall name args l)
  | fnDecl {name : String} {body : List Node} {l : Location} :
      (∀ item ∈ body, IsBodyItem item) → IsBodyItem (.fnDecl name [] body l)

/-- A statement outside all functions. -/
inductive IsTopLevel : Node → Prop where
  | importDecl {name : String} {l : Location} : IsTopLevel (.importDecl name none false l)
  | varDecl {name : String} {isMutable : Bool} {initializer : List Node} {l : Location} :
      IsInitializer isMutable initializer → IsTopLevel (.varDecl name isMutable initializer l)
  | fnDecl {name : String} {body : List Node} {l : Location} :
      (∀ item ∈ body, IsBodyItem item) → IsTopLevel (.fnDecl name [] body l)

end Node

/-! ### Constructs in progress -/

/-- The arguments already read are arguments. -/
def Purpose.WellFormed : Purpose → Prop
  | initializer .. | rvalue _ => True
  | argument _ previous => ∀ arg ∈ previous, arg.IsArgument

/-- What has been read of a construct has the form that its phase promises. -/
def Phase.WellFormed : Phase → Prop
  | word t => t.kind = .identifier
  | literal t => t.kind = .integer ∨ t.kind = .string
  | importPath _ text .nothing => text = ""
  | importPath _ text (.colon _) => ∃ front, text = front ++ ":"
  | operand purpose => purpose.WellFormed
  | sign purpose chain =>
    purpose.WellFormed ∧ ∃ ts s, IsChain ts ∧ s.isSign = true ∧ chain.tokens = ts ++ [s]
  | value purpose chain => purpose.WellFormed ∧ IsChain chain.tokens
  | callClosed _ args => ∀ arg ∈ args, arg.IsArgument
  | _ => True

namespace Chain

/-- The tokens of a chain stay in the order in which they are read. -/
@[simp]
theorem tokens_push (c : Chain) (t : Token) : (c.push t).tokens = c.tokens ++ [t] := by
  simp [push, tokens]

private theorem isArgument_argument {c : Chain} (h : IsChain c.tokens) : c.argument.IsArgument := by
  obtain ⟨first, rest⟩ := c
  cases rest with
  | nil =>
    exact .operand (IsChain.isOperand_of_singleton h)
  | cons t rest =>
    refine .expr h (h.length_eq_one_or.resolve_left ?_)
    simp [tokens]

/-- The items of a chain form an expression. -/
theorem isExpression_items {c : Chain} (h : IsChain c.tokens) : IsExpression c.items :=
  ⟨c.tokens, h, rfl⟩

end Chain

/-! ### The invariant -/

/-- What has been read of a statement has the form of a statement. -/
structure Open.WellFormed (s : Open) : Prop extends s.Placed where
  bodies : ∀ f ∈ s.functions, ∀ item ∈ f.body, item.IsBodyItem
  phase : s.phase.WellFormed

/-- The state behind a token has the right form, and so has the statement it completed. -/
def Progress.WellFormed : Progress → Prop
  | reading s => s.WellFormed
  | complete node => node.IsTopLevel

namespace Open

theorem wellFormed_initial : ({} : Open).WellFormed :=
  { placed_idle [] with bodies := List.forall_mem_nil _, phase := True.intro }

private theorem wellFormed_state {p : Progress} (h : p.WellFormed) : p.state.WellFormed := by
  cases p with
  | reading s => exact h
  | complete node => exact wellFormed_initial

private theorem wellFormed_close {fs : List OpenFn} {node : Node}
    (hbodies : ∀ f ∈ fs, ∀ item ∈ f.body, item.IsBodyItem)
    (hitem : fs ≠ [] → node.IsBodyItem) (htop : fs = [] → node.IsTopLevel) :
    (Progress.close fs node).WellFormed := by
  cases fs with
  | nil => exact htop rfl
  | cons f outer =>
    refine { placed_idle _ with bodies := ?_, phase := True.intro }
    rintro g hg item hitem'
    rcases List.mem_cons.mp hg with rfl | hg
    · rcases List.mem_cons.mp hitem' with rfl | hitem'
      · exact hitem (List.cons_ne_nil f outer)
      · exact hbodies f List.mem_cons_self item hitem'
    · exact hbodies g (List.mem_cons_of_mem f hg) item hitem'

/-- **A step keeps the form of what has been read, and completes only statements of the right
form.** -/
theorem WellFormed.step {s : Open} {t : Token} {p : Progress} (h : s.WellFormed)
    (hstep : Step s t p) : p.WellFormed := by
  have hplaced := h.toPlaced.step hstep
  -- Going on with a construct leaves the functions alone.
  have hgo {fs : List OpenFn} {ψ : Phase} (hbodies : ∀ f ∈ fs, ∀ item ∈ f.body, item.IsBodyItem)
      (hplaced : Placed ⟨fs, ψ⟩) (hψ : ψ.WellFormed) :
      (Progress.reading ⟨fs, ψ⟩).WellFormed :=
    { hplaced with bodies := hbodies, phase := hψ }
  cases hstep with
  | fnKeyword | letKeyword | fnName | fnParams | fnHead | letName | letColon | letMutable
  | letImmutable | wordAssign | wordCall => exact hgo h.bodies hplaced True.intro
  | useKeyword => exact hgo h.bodies hplaced rfl
  | pathColon => exact hgo h.bodies hplaced ⟨_, rfl⟩
  | pathName => exact hgo h.bodies hplaced True.intro
  | emptyStatement => exact h
  | word hkind => exact hgo h.bodies hplaced hkind
  | literal hkind => exact hgo h.bodies hplaced hkind
  | letOperand ht => exact hgo h.bodies hplaced ⟨True.intro, .operand ht⟩
  | callEmpty => exact hgo h.bodies hplaced (fun _ h => by cases h)
  | callOperand ht => exact hgo h.bodies hplaced ⟨fun _ h => (by cases h), .operand ht⟩
  | operand ht => exact hgo h.bodies hplaced ⟨h.phase, .operand ht⟩
  | valueSign ht =>
    refine hgo h.bodies hplaced ⟨h.phase.1, _, _, h.phase.2, ht, ?_⟩
    rw [Chain.tokens_push]
  | signOperand ht =>
    obtain ⟨hpurpose, ts, u, hts, hu, hchain⟩ := h.phase
    refine hgo h.bodies hplaced ⟨hpurpose, ?_⟩
    rw [Chain.tokens_push, hchain, List.append_assoc]
    exact .sign hts hu ht
  | argumentComma | argumentEnd =>
    refine hgo h.bodies hplaced ?_
    rintro arg harg
    rcases List.mem_cons.mp harg with rfl | harg
    · exact Chain.isArgument_argument h.phase.2
    · exact h.phase.1 arg harg
  | fnBody =>
    refine hgo ?_ hplaced True.intro
    rintro f hf item hitem
    rcases List.mem_cons.mp hf with rfl | hf
    · cases hitem
    · exact h.bodies f hf item hitem
  | @bodyEnd f outer =>
    have hbody : ∀ item ∈ f.body.reverse, item.IsBodyItem := fun item hitem =>
      h.bodies f List.mem_cons_self item (List.mem_reverse.mp hitem)
    exact wellFormed_close (fun g hg => h.bodies g (List.mem_cons_of_mem f hg))
      (fun _ => .fnDecl hbody) (fun _ => .fnDecl hbody)
  | straySymbol | stray =>
    exact wellFormed_close h.bodies (fun _ => .token _) (fun hfs => by cases hfs)
  | letEnd =>
    exact wellFormed_close h.bodies (fun _ => .varDecl (.inl ⟨rfl, rfl⟩))
      (fun _ => .varDecl (.inl ⟨rfl, rfl⟩))
  | initializerEnd =>
    have hvalue := Chain.isExpression_items h.phase.2
    exact wellFormed_close h.bodies (fun _ => .varDecl (.inr hvalue))
      (fun _ => .varDecl (.inr hvalue))
  -- From here on `Placed` rules out the other of the two places.
  | pathEnd =>
    exact wellFormed_close h.bodies (fun hne => absurd (h.outer _ _ _ rfl) hne)
      (fun _ => .importDecl)
  | wordEnd | literalEnd =>
    exact wellFormed_close h.bodies (fun _ => .token _)
      (fun hfs => absurd hfs (h.inner trivial))
  | rvalueEnd =>
    exact wellFormed_close h.bodies
      (fun _ => .assignment (Chain.isExpression_items h.phase.2))
      (fun hfs => absurd hfs (h.inner trivial))
  | callEnd =>
    exact wellFormed_close h.bodies
      (fun _ => .fnCall fun arg harg => h.phase arg (List.mem_reverse.mp harg))
      (fun hfs => absurd hfs (h.inner trivial))

/-- **A run keeps the form of what has been read, and completes only statements of the right
form.** -/
theorem WellFormed.run {s s' : Open} {ts : List Token} {ns : List Node} (h : s.WellFormed)
    (hrun : Run s ts ns s') : s'.WellFormed ∧ ∀ node ∈ ns, node.IsTopLevel := by
  induction hrun with
  | nil s => exact ⟨h, fun _ h => by cases h⟩
  | @cons s s' t p ts ns hstep _ ih =>
    have hp := h.step hstep
    obtain ⟨hs', hns⟩ := ih (wellFormed_state hp)
    refine ⟨hs', fun node hnode => ?_⟩
    rcases List.mem_append.mp hnode with hnode | hnode
    · cases p with
      | reading => cases hnode
      | complete n =>
        obtain rfl := List.mem_singleton.mp hnode
        exact hp
    · exact hns node hnode

end Open

end Dwo
