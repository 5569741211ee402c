import Dwo.Node.Dump
import Dwo.Proofs.Statement.Whole
import Dwo.Proofs.Token.Spelling

/-!
# Reading elsewhere

The places of tokens are carried along by reading and never looked at. To say so, `relocate f`
applies a map `f` of places to everything that has a place: nodes, notes, errors, and what has
been read so far (for tokens, it is defined next to their spellings). Reading commutes with it,
for one token (`Open.relocate_step`) and for a whole text (`relocate_statements`), whatever the
map is. A listing shows no places, so it does not change (`Node.dump_relocate`).

The lemmas move `relocate` inwards, from a result to what it is made of. A result is a value or
an error, and both are moved (`relocateResult`); a condition on a token is not changed by moving
it, so `relocate` passes through the conditions of a step (`relocateResult_ite`) and reaches the
values and errors at its ends. There is one lemma for each function from which `Open.step` is
put together, and the induction over the tokens of a text is in `relocate_statementsFrom`.

The map is arbitrary. It is used with a map that moves rows, to read a text below another one,
and with a map that makes all places one, to compare two texts that differ in their layout.
-/

namespace Dwo

variable (f : Location → Location)

/-! ### Nodes -/

mutual

/-- A tree at other places. -/
def Node.relocate : Node → Node
  | .endOfFile l => .endOfFile (f l)
  | .token t => .token (t.relocate f)
  | .importDecl name newName isLocal l => .importDecl name newName isLocal (f l)
  | .unaryOp l => .unaryOp (f l)
  | .binaryOp l => .binaryOp (f l)
  | .fnParams l => .fnParams (f l)
  | .expr items l => .expr (relocateAll items) (f l)
  | .varDecl name isMutable initializer l =>
    .varDecl name isMutable (relocateAll initializer) (f l)
  | .assignment name items l => .assignment name (relocateAll items) (f l)
  | .fnDecl name params body l => .fnDecl name (relocateAll params) (relocateAll body) (f l)
  | .fnCall name args l => .fnCall name (relocateAll args) (f l)

/-- Trees at other places. -/
def Node.relocateAll : List Node → List Node
  | [] => []
  | node :: nodes => node.relocate :: relocateAll nodes

end

namespace Node

/-- The recursion over a body is a map. -/
@[simp]
theorem relocateAll_eq (nodes : List Node) : relocateAll f nodes = nodes.map (relocate f) := by
  induction nodes with
  | nil => rw [relocateAll, List.map_nil]
  | cons node nodes ih => rw [relocateAll, List.map_cons, ih]

/-- A moved node is reported at the moved place. -/
@[simp]
theorem location_relocate (node : Node) : (node.relocate f).location = f node.location := by
  cases node <;> simp [relocate, location]

mutual

private theorem dumpAt_relocate (depth : Nat) :
    (node : Node) → (node.relocate f).dumpAt depth = node.dumpAt depth
  | .endOfFile _ | .token _ | .unaryOp _ | .binaryOp _ | .fnParams _ => by simp [relocate]
  | .importDecl _ newName _ _ => by cases newName <;> simp [relocate]
  | .expr items _ | .varDecl _ _ items _ | .assignment _ items _ | .fnCall _ items _ => by
    have hitems := dumpItems_relocate items
    simp [relocate, hitems]
  | .fnDecl _ params body _ => by
    have hparams := dumpItems_relocate params
    have hbody := dumpLines_relocate (depth + 1) body
    simp [relocate, hparams, hbody]

private theorem dumpItems_relocate : (items : List Node) →
    dumpItems (items.map (relocate f)) = dumpItems items
  | [] => rfl
  | [item] => dumpAt_relocate 0 item
  | item :: next :: items => by
    have hitem := dumpAt_relocate 0 item
    have hitems := dumpItems_relocate (next :: items)
    simp only [List.map_cons, dumpItems] at hitems ⊢
    rw [hitem, hitems]

private theorem dumpLines_relocate (depth : Nat) : (items : List Node) →
    dumpLines depth (items.map (relocate f)) = dumpLines depth items
  | [] => rfl
  | item :: items => by
    have hitem := dumpAt_relocate depth item
    have hitems := dumpLines_relocate depth items
    simp only [List.map_cons, dumpLines]
    rw [hitem, hitems]

end

/-- **A listing shows no places.** -/
@[simp]
theorem dump_relocate (node : Node) : (node.relocate f).dump = node.dump :=
  dumpAt_relocate f 0 node

end Node

/-! ### Errors -/

/-- A note on another place. -/
def Note.relocate (n : Note) : Note :=
  { n with location := f n.location }

/-- A failure at another place. -/
def Failure.relocate {κ : Type} (e : Failure κ) : Failure κ where
  cause := e.cause
  location := f e.location
  notes := e.notes.map (Note.relocate f)

/-- A result at other places, where `g` says what this means for a value. -/
def relocateResult {κ α : Type} (g : α → α) :
    Except (Failure κ) α → Except (Failure κ) α
  | .ok a => .ok (g a)
  | .error e => .error (e.relocate f)

@[simp]
theorem relocateResult_ok {κ α : Type} (g : α → α) (a : α) :
    relocateResult f g (.ok a : Except (Failure κ) α) = .ok (g a) := rfl

@[simp]
theorem relocateResult_error {κ α : Type} (g : α → α) (e : Failure κ) :
    relocateResult f g (.error e) = .error (e.relocate f) := rfl

@[simp]
theorem relocateResult_ite {κ α : Type} (g : α → α) (c : Prop) [Decidable c]
    (x y : Except (Failure κ) α) :
    relocateResult f g (if c then x else y) =
      if c then relocateResult f g x else relocateResult f g y :=
  apply_ite _ _ _ _

/-! ### What has been read so far -/

def Chain.relocate (c : Chain) : Chain :=
  ⟨c.first.relocate f, c.rest.map (Token.relocate f)⟩

def Purpose.relocate : Purpose → Purpose
  | initializer keyword name isMutable => initializer (f keyword) (name.relocate f) isMutable
  | rvalue name => rvalue (name.relocate f)
  | argument name previous => argument (name.relocate f) (previous.map (Node.relocate f))

def PathEnd.relocate : PathEnd → PathEnd
  | nothing => nothing
  | name => name
  | colon l => colon (f l)

def Phase.relocate : Phase → Phase
  | idle => idle
  | fnKeyword keyword => fnKeyword (f keyword)
  | fnName keyword name => fnName (f keyword) (name.relocate f)
  | fnParams keyword name => fnParams (f keyword) (name.relocate f)
  | fnHead keyword name => fnHead (f keyword) (name.relocate f)
  | letKeyword keyword => letKeyword (f keyword)
  | letName keyword name => letName (f keyword) (name.relocate f)
  | letColon keyword name => letColon (f keyword) (name.relocate f)
  | letMarker keyword name isMutable => letMarker (f keyword) (name.relocate f) isMutable
  | importPath keyword text last => importPath (f keyword) text (last.relocate f)
  | word name => word (name.relocate f)
  | literal token => literal (token.relocate f)
  | callOpen name => callOpen (name.relocate f)
  | operand purpose => operand (purpose.relocate f)
  | sign purpose chain => sign (purpose.relocate f) (chain.relocate f)
  | value purpose chain => value (purpose.relocate f) (chain.relocate f)
  | callClosed name args => callClosed (name.relocate f) (args.map (Node.relocate f))

def OpenFn.relocate (g : OpenFn) : OpenFn :=
  ⟨f g.keyword, g.name.relocate f, g.body.map (Node.relocate f)⟩

/-- The state of reading a text that stands elsewhere. -/
def Open.relocate (s : Open) : Open :=
  ⟨s.functions.map (OpenFn.relocate f), s.phase.relocate f⟩

def Progress.relocate : Progress → Progress
  | reading s => reading (s.relocate f)
  | complete node => complete (node.relocate f)

namespace Chain

private theorem relocate_items (c : Chain) :
    c.items.map (Node.relocate f) = (c.relocate f).items := by
  simp [items, tokens, relocate, Node.relocate, Function.comp_def]

private theorem relocate_argument (c : Chain) :
    c.argument.relocate f = (c.relocate f).argument := by
  obtain ⟨first, rest⟩ := c
  cases rest with
  | nil => rw [argument, Node.relocate]; rfl
  | cons t rest =>
    rw [argument, Node.relocate, Node.relocateAll_eq, relocate_items]
    rfl

end Chain

namespace Phase

private theorem relocate_notes (φ : Phase) :
    φ.notes.map (Note.relocate f) = (φ.relocate f).notes := by
  cases φ with
  | operand purpose | sign purpose | value purpose => cases purpose <;> rfl
  | _ => rfl

private theorem relocate_endNotes (φ : Phase) :
    φ.endNotes.map (Note.relocate f) = (φ.relocate f).endNotes := by
  cases φ with
  | operand purpose | sign purpose | value purpose => cases purpose <;> rfl
  | _ => rfl

private theorem expected_relocate (φ : Phase) : (φ.relocate f).expected = φ.expected := by
  cases φ with
  | value purpose => cases purpose <;> rfl
  | _ => rfl

end Phase

/-! ### Reading a token -/

private theorem Progress.relocate_close (fs : List OpenFn) (node : Node) :
    (Progress.close fs node).relocate f =
      Progress.close (fs.map (OpenFn.relocate f)) (node.relocate f) := by
  cases fs <;> rfl

namespace Open

variable (s : Open) (t : Token)

private theorem phase_relocate : (s.relocate f).phase = s.phase.relocate f := rfl

private theorem relocate_fnNotes : s.fnNotes.map (Note.relocate f) = (s.relocate f).fnNotes := by
  simp only [fnNotes, relocate, List.map_map]
  rfl

/-- Moving an error moves the place it points at and the places of its notes. -/
theorem relocate_fail (cause : ParseCause) (l : Location) :
    (s.fail cause l).relocate f = (s.relocate f).fail cause (f l) := by
  simp only [fail, Failure.relocate, List.map_append, relocate_fnNotes, Phase.relocate_notes]
  rfl

/-- The complaint about a moved token is the complaint about the token, moved. -/
private theorem relocate_unexpected :
    (s.unexpected t).relocate f = (s.relocate f).unexpected (t.relocate f) := by
  rw [unexpected, relocate_fail, unexpected, phase_relocate, Phase.expected_relocate]
  rfl

private theorem relocate_unexpectedEnd (l : Location) :
    (s.unexpectedEnd l).relocate f = (s.relocate f).unexpectedEnd (f l) := by
  simp only [unexpectedEnd, Failure.relocate, List.map_append, relocate_fnNotes,
    Phase.relocate_endNotes, phase_relocate, Phase.expected_relocate]

private theorem relocate_enter (φ : Phase) :
    relocateResult f (Progress.relocate f) (s.enter φ) =
      (s.relocate f).enter (φ.relocate f) := rfl

private theorem relocate_closed (node : Node) :
    relocateResult f (Progress.relocate f) (s.close node) =
      (s.relocate f).close (node.relocate f) := by
  rw [close, relocateResult_ok, Progress.relocate_close]
  rfl

private theorem relocate_stepTop :
    relocateResult f (Progress.relocate f) (s.stepTop t) =
      (s.relocate f).stepTop (t.relocate f) := by
  simp only [stepTop, relocateResult_ite, relocateResult_error, relocate_enter, relocate_fail,
    Token.isKeyword_relocate]
  rfl

private theorem relocate_stepBody (g : OpenFn) (outer : List OpenFn) :
    relocateResult f (Progress.relocate f) (s.stepBody g outer t) =
      (s.relocate f).stepBody (g.relocate f) (outer.map (OpenFn.relocate f)) (t.relocate f) := by
  have hfunction : (Node.fnDecl g.name.text [] g.body.reverse g.name.location).relocate f =
      .fnDecl (g.relocate f).name.text [] (g.relocate f).body.reverse
        (g.relocate f).name.location := by
    simp [Node.relocate, OpenFn.relocate]
  have htoken : (Node.token t).relocate f = .token (t.relocate f) := by rw [Node.relocate]
  simp only [stepBody, relocateResult_ite, relocateResult_ok, Progress.relocate_close, hfunction,
    relocate_enter, Token.isSymbol_relocate, Token.isKeyword_relocate, Token.kind_relocate]
  cases t.kind with
  | identifier | integer | string => rfl
  | symbol | unknown | endOfFile =>
    simp only [relocate_closed, htoken]
    rfl

private theorem relocate_stepPath (keyword : Location) (text : String) (last : PathEnd) :
    relocateResult f (Progress.relocate f) (s.stepPath keyword text last t) =
      (s.relocate f).stepPath (f keyword) text (last.relocate f) (t.relocate f) := by
  have himport : (Node.importDecl text none false keyword).relocate f =
      .importDecl text none false (f keyword) := by rw [Node.relocate]
  simp only [stepPath, relocateResult_ite, relocateResult_error, relocate_unexpected,
    Token.isSymbol_relocate, Token.kind_relocate]
  cases last with
  | nothing | colon =>
    simp only [relocateResult_error, relocate_fail, relocate_enter]
    rfl
  | name =>
    simp only [relocateResult_error, relocate_fail, relocate_enter, relocate_closed, himport]
    rfl

private theorem relocate_stepOperand (purpose : Purpose) :
    relocateResult f (Progress.relocate f) (s.stepOperand purpose t) =
      (s.relocate f).stepOperand (purpose.relocate f) (t.relocate f) := by
  simp only [stepOperand, relocateResult_ite, relocateResult_error, relocate_enter,
    relocate_unexpected, Token.isOperand_relocate]
  rfl

private theorem relocate_stepChain (purpose : Purpose) (chain : Chain) :
    relocateResult f (Progress.relocate f) (s.stepChain purpose chain t) =
      (s.relocate f).stepChain (purpose.relocate f) (chain.relocate f) (t.relocate f) := by
  have hitems := Chain.relocate_items f chain
  have hargument := Chain.relocate_argument f chain
  simp only [stepChain, relocateResult_ite, relocate_enter, Token.isSign_relocate]
  cases purpose with
  | initializer keyword name isMutable | rvalue name =>
    simp only [relocateResult_ite, relocateResult_error, relocate_unexpected, relocate_closed,
      Node.relocate, Node.relocateAll_eq, hitems, Token.isSymbol_relocate]
    rfl
  | argument name previous =>
    simp only [relocateResult_ite, relocateResult_error, relocate_unexpected, relocate_enter,
      Phase.relocate, Purpose.relocate, List.map_cons, hargument, Token.isSymbol_relocate]
    rfl

/-- **Reading a token does not look at places.** -/
theorem relocate_step :
    relocateResult f (Progress.relocate f) (s.step t) = (s.relocate f).step (t.relocate f) := by
  obtain ⟨fs, phase⟩ := s
  cases phase with
  | idle =>
    cases fs with
    | nil => exact relocate_stepTop f _ t
    | cons g outer => exact relocate_stepBody f _ t g outer
  | importPath keyword text last => exact relocate_stepPath f _ t keyword text last
  | value purpose chain => exact relocate_stepChain f _ t purpose chain
  | operand purpose => exact relocate_stepOperand f _ t purpose
  -- These phases either go on to the next one or fail at the token.
  | fnKeyword | fnName | fnHead | letKeyword | letName | letColon | sign =>
    simp only [step, relocateResult_ite, relocateResult_ok, relocateResult_error, relocate_enter,
      relocate_unexpected]
    rfl
  | fnParams keyword name =>
    simp only [step, relocateResult_ite, relocateResult_error, relocate_enter, relocate_fail,
      relocate_unexpected]
    rfl
  | letMarker keyword name isMutable =>
    simp only [step, relocateResult_ite, relocateResult_error, relocate_closed, relocate_fail,
      relocate_stepOperand, Node.relocate, Node.relocateAll]
    rfl
  | word name =>
    simp only [step, relocateResult_ite, relocateResult_error, relocate_enter, relocate_closed,
      relocate_fail, Node.relocate]
    rfl
  | literal token =>
    simp only [step, relocateResult_ite, relocateResult_error, relocate_closed,
      relocate_unexpected, Node.relocate]
    rfl
  | callOpen name =>
    simp only [step, relocateResult_ite, relocate_enter, relocate_stepOperand]
    rfl
  | callClosed name args =>
    simp only [step, relocateResult_ite, relocateResult_error, relocate_closed,
      relocate_unexpected, Node.relocate, Node.relocateAll_eq, List.map_reverse]
    rfl

private theorem isInitial_relocate : (s.relocate f).isInitial = s.isInitial := by
  obtain ⟨fs, phase⟩ := s
  cases fs with
  | nil => cases phase <;> rfl
  | cons g outer => rfl

end Open

/-! ### Whole texts -/

/-- The statements of a text that stands elsewhere. -/
def Statements.relocate : Statements → Statements
  | closed l => closed (f l)
  | failed e => failed (e.relocate f)
  | next node rest => next (node.relocate f) rest.relocate

/-- Run lemma: moving the tokens moves the statements that are read from them. -/
private theorem relocate_statementsFrom (closing : Location) (s : Open) (tokens : List Token) :
    (statementsFrom closing s tokens).relocate f =
      statementsFrom (f closing) (s.relocate f) (tokens.map (Token.relocate f)) := by
  induction tokens generalizing s with
  | nil =>
    rw [List.map_nil, statementsFrom, statementsFrom, Open.isInitial_relocate,
      ← Open.relocate_unexpectedEnd]
    split <;> rfl
  | cons t tokens ih =>
    have hstep := Open.relocate_step f s t
    rw [List.map_cons, statementsFrom, statementsFrom, ← hstep]
    cases s.step t with
    | error e => rfl
    | ok p =>
      cases p with
      | reading s' => exact ih s'
      | complete node => exact congrArg (Statements.next (node.relocate f)) (ih {})

/-- **Reading does not look at places**: the statements of tokens that stand elsewhere, their error
included, are the same statements elsewhere. -/
theorem relocate_statements (closing : Location) (tokens : List Token) :
    (statements closing tokens).relocate f =
      statements (f closing) (tokens.map (Token.relocate f)) :=
  relocate_statementsFrom f closing {} tokens

end Dwo
