import Dwo.Proofs.Statement.Acceptance

/-!
# Constructs in progress

Behind the first tokens of a text, some functions are open, and another construct may have been
begun in the innermost of them. `InProgress` tells which ones from the tokens alone: the grammar
says where a statement can start (`Within`), and a construct that starts there is in progress as
long as the symbol that ends it has not been read.

States of reading remember what is in progress. Behind tokens that can be read there is always
something in progress in this sense (`Open.exists_inProgress`), and whatever it is, the state has
the remarks on it (`Open.notesAt_of_inProgress`). That a whole statement leaves the functions around
it open, and no others, is proved with triples (`Open.Leaves`), by induction on the statement.

* `Within`: the places where a statement can start, with the keywords of the functions around
  it;
* `Construct`: the constructs that errors remark on;
* `stackNotes`: the remarks on what is in progress, which is what the notes of an error are
  compared with;
* `Open.Continues`: from one state to another, the same construct is in progress.

The first half of the file bounds the languages of the constructs: none of them holds its own
terminator before its end (`declaration_le`, `call_le` and so on), so as long as the terminator
has not been read the construct goes on (`Open.Run.continues`). The second half follows whole
statements.
-/

namespace Dwo

open scoped Computability
open Grammar

/-! ### What is in progress -/

/-- Behind the tokens `ts`, a statement can start, inside the functions with the keywords `fns`,
innermost first. -/
inductive Within : (ts fns : List Token) → Prop where
  | program {ts : List Token} : ts.map Token.spelling ∈ program → Within ts []
  | body {ts fns head items : List Token} {k : Token} :
      Within ts fns → (k :: head).map Token.spelling ∈ fnHead →
        items.map Token.spelling ∈ item∗ → Within (ts ++ (k :: head ++ items)) (k :: fns)

/-- A construct other than a function, with its first token. -/
inductive Construct where
  /-- A declaration of a variable, from its `let` on. -/
  | declaration (keyword : Token)
  /-- An import, from its `use` on. -/
  | inclusion (keyword : Token)
  /-- An assignment, if its sign has been read. -/
  | assignment (name : Token)
  /-- A call, if its parenthesis has been read. -/
  | call (name : Token)
  /-- A name with nothing behind it. -/
  | hanging (name : Token)

/-- Behind the tokens `ts`, the functions with the keywords `fns` are in progress, innermost first,
and in the innermost of them this construct, if there is one. -/
inductive InProgress : (ts fns : List Token) → Option Construct → Prop where
  /-- Between two statements. -/
  | nothing {ts fns : List Token} : Within ts fns → InProgress ts fns none
  /-- In the head of a function. -/
  | function {ts fns more : List Token} {k : Token} :
      Within ts fns → k.spelling = .word "fn" → .symbol "\x7b" ∉ more.map Token.spelling →
        InProgress (ts ++ k :: more) (k :: fns) none
  | declaration {ts fns more : List Token} {k : Token} :
      Within ts fns → k.spelling = .word "let" → .symbol ";" ∉ more.map Token.spelling →
        InProgress (ts ++ k :: more) fns (some (.declaration k))
  | inclusion {ts more : List Token} {k : Token} :
      Within ts [] → k.spelling = .word "use" → .symbol ";" ∉ more.map Token.spelling →
        InProgress (ts ++ k :: more) [] (some (.inclusion k))
  | assignment {ts fns more : List Token} {name sign : Token} :
      Within ts fns → fns ≠ [] → [name.spelling] ∈ word → sign.spelling = .symbol "=" →
        .symbol ";" ∉ more.map Token.spelling →
          InProgress (ts ++ name :: sign :: more) fns (some (.assignment name))
  | call {ts fns more : List Token} {name paren : Token} :
      Within ts fns → fns ≠ [] → [name.spelling] ∈ word → paren.spelling = .symbol "(" →
        .symbol ";" ∉ more.map Token.spelling →
          InProgress (ts ++ name :: paren :: more) fns (some (.call name))
  | hanging {ts fns : List Token} {name : Token} :
      Within ts fns → fns ≠ [] → [name.spelling] ∈ word →
        InProgress (ts ++ [name]) fns (some (.hanging name))
  /-- A literal with nothing behind it is not remarked on. -/
  | literal {ts fns : List Token} {t : Token} :
      Within ts fns → fns ≠ [] → [t.spelling] ∈ integer + string → InProgress (ts ++ [t]) fns none

/-- The remark on a construct in progress. A name with nothing behind it is remarked on only if the
text ends there. -/
def Construct.notes (atEnd : Bool) : Construct → List Note
  | declaration keyword => [⟨keyword.location, "variable declaration starts here"⟩]
  | inclusion keyword => [⟨keyword.location, "import statement starts here"⟩]
  | assignment name =>
    [⟨name.location, "invalid rvalue in assignment to `" ++ name.text ++ "`"⟩]
  | call name => [⟨name.location, "function call starts here"⟩]
  | hanging name => if atEnd then [⟨name.location, "hanging statement starts here"⟩] else []

/-- The remarks on all that is in progress, from the innermost construct on. -/
def stackNotes (atEnd : Bool) (fns : List Token) (c : Option Construct) : List Note :=
  c.elim [] (Construct.notes atEnd) ++
    fns.map fun k => ⟨k.location, "function declaration starts here"⟩

/-! ### Symbols that end a construct -/

namespace Grammar

/-- The sequences in which `x` does not occur. -/
def without (x : Spelling) : Language Spelling := {ss | x ∉ ss}

section

variable {x : Spelling} {l m h : Language Spelling}

private theorem terminal_le_without {p : Spelling → Prop} (hp : ¬ p x) :
    terminal p ≤ without x := by
  rintro _ ⟨s, hs, rfl⟩ hmem
  rw [List.mem_singleton.mp hmem] at hp
  exact hp hs

private theorem one_le_without : 1 ≤ without x := by
  rintro _ rfl
  exact List.not_mem_nil

private theorem mul_le_without (hl : l ≤ without x) (hm : m ≤ without x) : l * m ≤ without x := by
  rintro _ ⟨ss, hss, us, hus, rfl⟩ hmem
  rcases List.mem_append.mp hmem with hmem | hmem
  · exact hl hss hmem
  · exact hm hus hmem

private theorem kstar_le_without (hl : l ≤ without x) : l∗ ≤ without x :=
  kstar_le_of_mul_le_left one_le_without (mul_le_without le_rfl hl)

private theorem le_mul_without : h ≤ h * without x := by
  calc h = h * 1 := (mul_one h).symm
    _ ≤ h * without x := by
        gcongr
        exact one_le_without

private theorem mul_le_mul_without (hl : l ≤ h * without x) (hm : m ≤ without x) :
    l * m ≤ h * without x := by
  calc l * m ≤ h * without x * m := by gcongr
    _ = h * (without x * m) := mul_assoc _ _ _
    _ ≤ h * without x := by
        gcongr
        exact mul_le_without le_rfl hm

end

section

variable {text : String}

private theorem name_le_without : name ≤ without (.symbol text) :=
  terminal_le_without (by simp [Spelling.symbol])

private theorem symbol_le_without {other : String} (h : text ≠ other) :
    symbol other ≤ without (.symbol text) :=
  terminal_le_without (by simpa using h)

private theorem operand_le_without : operand ≤ without (.symbol text) := by
  rw [operand_eq_terminal]
  exact terminal_le_without (by simp [Spelling.symbol])

private theorem sign_le_without : sign ≤ without (.symbol ";") := by
  rw [sign_eq_terminal]
  exact terminal_le_without (by simp)

private theorem expression_le_without : expression ≤ without (.symbol ";") :=
  mul_le_without operand_le_without
    (kstar_le_without (mul_le_without sign_le_without operand_le_without))

private theorem path_le_without : path ≤ without (.symbol ";") :=
  mul_le_without name_le_without
    (kstar_le_without (mul_le_without (symbol_le_without (by simp)) name_le_without))

private theorem arguments_le_without : arguments ≤ without (.symbol ";") :=
  add_le one_le_without (mul_le_without expression_le_without
    (kstar_le_without (mul_le_without (symbol_le_without (by simp)) expression_le_without)))

private theorem letHead_le {marker : String} (h : ";" ≠ marker) :
    keyword "let" * name * symbol ":" * symbol marker ≤ keyword "let" * without (.symbol ";") :=
  mul_le_mul_without (mul_le_mul_without (mul_le_mul_without le_mul_without name_le_without)
    (symbol_le_without (by simp))) (symbol_le_without h)

end

/-- A sequence that opens with a terminal is one token in front of the others. -/
theorem cons_mem_terminal_mul {p : Spelling → Prop} {l : Language Spelling} {s : Spelling}
    {ss : List Spelling} : s :: ss ∈ terminal p * l ↔ p s ∧ ss ∈ l := by
  constructor
  · intro h
    obtain ⟨_, ⟨_, hp, rfl⟩, _, hl, hsplit⟩ := Language.mem_mul.mp h
    obtain ⟨rfl, rfl⟩ := List.cons.inj hsplit
    exact ⟨hp, hl⟩
  · rintro ⟨hp, hl⟩
    have hs : [s] ∈ terminal p := ⟨s, hp, rfl⟩
    exact Language.append_mem_mul hs hl

private theorem fnHead_le : fnHead ≤ keyword "fn" * (without (.symbol "\x7b") * symbol "\x7b") := by
  rw [← mul_assoc]
  refine mul_le_mul_left ?_ _
  exact mul_le_mul_without (mul_le_mul_without (mul_le_mul_without le_mul_without name_le_without)
    (symbol_le_without (by simp))) (symbol_le_without (by simp))

/-- The tokens that begin a statement of a body which ends with a semicolon. -/
def opener : Language Spelling := keyword "let" + word + integer + string

/-- The tokens that are a statement of a body by themselves. -/
def lone : Language Spelling := symbol ";" + straySymbol + unknown

private theorem declaration_le :
    declaration ≤ keyword "let" * without (.symbol ";") * symbol ";" := by
  refine add_le (mul_le_mul_left ?_ _) (mul_le_mul_left ?_ _)
  · exact mul_le_mul_without (letHead_le (by simp)) (add_le one_le_without expression_le_without)
  · exact mul_le_mul_without (letHead_le (by simp)) expression_le_without

private theorem assignment_le : assignment ≤ word * without (.symbol ";") * symbol ";" := by
  refine mul_le_mul_left ?_ _
  exact mul_le_mul_without (mul_le_mul_without le_mul_without (symbol_le_without (by simp)))
    expression_le_without

private theorem call_le : call ≤ word * without (.symbol ";") * symbol ";" := by
  refine mul_le_mul_left ?_ _
  exact mul_le_mul_without (mul_le_mul_without (mul_le_mul_without le_mul_without
    (symbol_le_without (by simp))) arguments_le_without) (symbol_le_without (by simp))

/-- A simple statement of a body is a single token, or a semicolon ends it and stands nowhere else
in it. -/
theorem simpleItem_le :
    simpleItem ≤ lone + opener * without (.symbol ";") * symbol ";" := by
  have hword : word ≤ opener := le_add_self.trans (le_self_add.trans le_self_add)
  have hended {l m : Language Spelling} (hm : m ≤ opener)
      (hl : l ≤ m * without (.symbol ";") * symbol ";") :
      l ≤ lone + opener * without (.symbol ";") * symbol ";" := by
    grw [hl, hm]
    exact le_add_self
  have hsingle {l : Language Spelling} (hl : l ≤ opener) :
      l * symbol ";" ≤ lone + opener * without (.symbol ";") * symbol ";" :=
    hended hl (mul_le_mul_left le_mul_without _)
  have hlone {l : Language Spelling} (hl : l ≤ lone) :
      l ≤ lone + opener * without (.symbol ";") * symbol ";" := hl.trans le_self_add
  refine add_le (add_le (add_le (add_le (add_le (add_le (add_le (add_le ?_ ?_) ?_) ?_) ?_) ?_) ?_)
    ?_) ?_
  · exact hlone (le_self_add.trans le_self_add)
  · exact hended (le_self_add.trans (le_self_add.trans le_self_add)) declaration_le
  · exact hended hword assignment_le
  · exact hended hword call_le
  · exact hsingle hword
  · exact hsingle (le_add_self.trans le_self_add)
  · exact hsingle le_add_self
  · exact hlone (le_add_self.trans le_self_add)
  · exact hlone le_add_self

end Grammar

/-! ### Steps inside a construct -/

namespace Phase

/-- The keyword of the function whose head is being read. -/
def fn? : Phase → Option Location
  | fnKeyword k | fnName k _ | fnParams k _ | fnHead k _ => some k
  | _ => none

/-- The symbol that ends the construct in progress, or the head of the function. -/
def terminator (φ : Phase) : Spelling :=
  .symbol (if φ.fn?.isSome then "\x7b" else ";")

end Phase

namespace Open

/-- The places of the keywords of the functions whose bodies are open. -/
def keywords (s : Open) : List Location := s.functions.map OpenFn.keyword

/-- Behind a construct, the keywords are those of the functions around it. -/
theorem keywords_close (fs : List OpenFn) (node : Node) :
    (Progress.close fs node).state.keywords = fs.map OpenFn.keyword := by
  cases fs <;> rfl

/-- Behind a construct, the reader is idle. -/
theorem phase_close (fs : List OpenFn) (node : Node) :
    (Progress.close fs node).state.phase = .idle := by
  cases fs <;> rfl

/-- The same construct is in progress inside the same functions. Only a name, which has no remark,
can still become the start of something else. -/
structure Continues (s s' : Open) : Prop where
  keywords : s'.keywords = s.keywords
  phase_ne : s'.phase ≠ .idle
  fn? : s'.phase.fn? = s.phase.fn?
  notes : s.phase.notes ≠ [] → s'.phase.notes = s.phase.notes

theorem Continues.trans {s s' s'' : Open} (h : s.Continues s') (h' : s'.Continues s'') :
    s.Continues s'' where
  keywords := h'.keywords.trans h.keywords
  phase_ne := h'.phase_ne
  fn? := h'.fn?.trans h.fn?
  notes hne := (h'.notes (h.notes hne ▸ hne)).trans (h.notes hne)

/-- A construct that is in progress goes on up to the symbol that ends it. -/
theorem Step.continues {s : Open} {t : Token} {p : Progress} (h : Step s t p)
    (hs : s.phase ≠ .idle) (ht : t.spelling ≠ s.phase.terminator) : s.Continues p.state := by
  cases h with
  -- Nothing is in progress yet, or the token is the one that ends the construct.
  | fnKeyword | letKeyword | useKeyword | bodyEnd | emptyStatement | word | literal | straySymbol
  | stray => exact absurd rfl hs
  | letEnd h | pathEnd h | wordEnd h | literalEnd h | initializerEnd h | rvalueEnd h | callEnd h
  | fnBody h => exact absurd h ht
  | wordAssign | wordCall => exact ⟨rfl, by simp [Progress.state], rfl, fun hne => absurd rfl hne⟩
  | _ => exact ⟨rfl, by simp [Progress.state], rfl, fun _ => rfl⟩

/-- That symbol ends the construct, and a head of a function becomes an open body. -/
theorem Step.ends {s : Open} {t : Token} {p : Progress} (h : Step s t p)
    (hs : s.phase ≠ .idle) (ht : t.spelling = s.phase.terminator) :
    p.state.phase = .idle ∧ p.state.keywords = s.phase.fn?.toList ++ s.keywords := by
  have hkind : t.kind = .symbol := congrArg Spelling.kind ht
  cases h with
  | fnKeyword | letKeyword | useKeyword | bodyEnd | emptyStatement | word | literal | straySymbol
  | stray => exact absurd rfl hs
  | letEnd | pathEnd | wordEnd | literalEnd | initializerEnd | rvalueEnd | callEnd =>
    exact ⟨phase_close _ _, keywords_close _ _⟩
  | fnBody => exact ⟨rfl, rfl⟩
  -- All other steps inside a construct are made by another token.
  | fnName h | letName h | pathName _ h => cases h.symm.trans hkind
  | letOperand h | callOperand h | operand h | signOperand h =>
    simp [Token.isOperand, hkind, Kind.isOperand] at h
  | valueSign h =>
    rcases Token.isSign_iff.mp h with h | h <;> simp [h, Phase.terminator, Phase.fn?] at ht
  | fnParams h | fnHead h | letColon h | letMutable h | letImmutable h | pathColon h
  | wordAssign h | wordCall h | callEmpty h | argumentComma h | argumentEnd h =>
    simp [h, Phase.terminator, Phase.fn?] at ht

/-- Until its terminator is read, a construct stays in progress. -/
private theorem Run.continues {s s' : Open} {ts : List Token} {ns : List Node} (h : Run s ts ns s')
    (hs : s.phase ≠ .idle) (hts : s.phase.terminator ∉ ts.map Token.spelling) :
    s.Continues s' := by
  induction h with
  | nil s => exact ⟨rfl, hs, rfl, fun _ => rfl⟩
  | @cons s s' t p ts ns hstep _ ih =>
    rw [List.map_cons, List.mem_cons, not_or] at hts
    have hfirst := hstep.continues hs (Ne.symm hts.1)
    refine hfirst.trans (ih hfirst.phase_ne ?_)
    rw [Phase.terminator, hfirst.fn?]
    exact hts.2

/-! ### Runs over whole constructs -/

/-- From a state in `P`, reading a sequence in `l` leaves a state in `Q`, if it can be read. -/
def Leaves (P : Set Open) (l : Language Spelling) (Q : Set Open) : Prop :=
  ∀ s ∈ P, ∀ ts ns s', ts.map Token.spelling ∈ l → Run s ts ns s' → s' ∈ Q

namespace Leaves

variable {P Q R : Set Open} {l m : Language Spelling}

private theorem of_passes (h : Passes P l Q) : Leaves P l Q := by
  intro s hs ts ns s' hts hrun
  obtain ⟨_, _, hmem, hrun'⟩ := h s hs ts hts
  obtain ⟨-, rfl⟩ := hrun.unique hrun'
  exact hmem

/-- Two constructs in a row leave what the second of them leaves. -/
theorem mul (hl : Leaves P l Q) (hm : Leaves Q m R) : Leaves P (l * m) R := by
  intro s hs ts ns s' hts hrun
  obtain ⟨_, hfront, _, hback, hsplit⟩ := Language.mem_mul.mp hts
  obtain ⟨us, vs, rfl, rfl, rfl⟩ := List.map_eq_append_iff.mp hsplit.symm
  obtain ⟨_, s₁, _, -, hus, hvs⟩ := hrun.of_append
  exact hm s₁ (hl s hs us _ s₁ hfront hus) vs _ s' hback hvs

/-- An alternative leaves what each of its sides leaves. -/
theorem add (hl : Leaves P l Q) (hm : Leaves P m Q) : Leaves P (l + m) Q := by
  rintro s hs ts ns s' (hts | hts) hrun
  · exact hl s hs ts ns s' hts hrun
  · exact hm s hs ts ns s' hts hrun

theorem mono (hlm : m ≤ l) (hl : Leaves P l Q) : Leaves P m Q :=
  fun s hs ts ns s' hts hrun => hl s hs ts ns s' (hlm hts) hrun

private theorem iUnion {ι : Type} {P Q : ι → Set Open} (h : ∀ i, Leaves (P i) l (Q i)) :
    Leaves (⋃ i, P i) l (⋃ i, Q i) := by
  intro s hs ts ns s' hts hrun
  obtain ⟨i, hi⟩ := Set.mem_iUnion.mp hs
  exact Set.mem_iUnion.mpr ⟨i, h i s hi ts ns s' hts hrun⟩

/-- A row of constructs leaves what each of them leaves. -/
theorem flatten {items : List (List Spelling)} (h : ∀ ss ∈ items, Leaves P {ss} P) :
    Leaves P {items.flatten} P := by
  induction items with
  | nil =>
    intro s hs ts ns s' hts hrun
    obtain rfl := List.map_eq_nil_iff.mp hts
    cases hrun
    exact hs
  | cons ss items ih =>
    have hrest := ih fun us hus => h us (List.mem_cons_of_mem ss hus)
    refine ((h ss List.mem_cons_self).mul hrest).mono ?_
    exact Set.singleton_subset_iff.mpr (Language.append_mem_mul rfl rfl)

/-- What one token leaves. -/
theorem terminal {p : Spelling → Prop}
    (h : ∀ s ∈ P, ∀ t q, p t.spelling → Step s t q → q.state ∈ Q) :
    Leaves P (Grammar.terminal p) Q := by
  rintro s hs ts ns s' ⟨_, ht, hts⟩ hrun
  obtain ⟨t, rfl, rfl⟩ := List.map_eq_singleton_iff.mp hts
  obtain _ | ⟨hstep, hnil⟩ := hrun
  cases hnil
  exact h s hs t _ ht hstep

end Leaves

/-- No construct is in progress, and the functions with the keywords at `ks` are open. -/
def Rests (ks : List Location) : Set Open :=
  {s | s.phase = .idle ∧ s.keywords = ks}

/-- A construct is in progress, which has the keyword at `k` if it is a function, inside the
functions with the keywords at `ks`. -/
def Begun (k : Option Location) (ks : List Location) : Set Open :=
  {s | s.phase ≠ .idle ∧ s.phase.fn? = k ∧ s.keywords = ks}

private theorem exists_cons_of_rests {k : Location} {ks : List Location} {s : Open}
    (h : s ∈ Rests (k :: ks)) :
    ∃ f outer, s = ⟨f :: outer, .idle⟩ ∧ f.keyword = k ∧ outer.map OpenFn.keyword = ks := by
  obtain ⟨fs, φ⟩ := s
  obtain ⟨rfl, hks⟩ := h
  obtain ⟨f, outer, rfl, hf, houter⟩ := List.map_eq_cons_iff.mp hks
  exact ⟨f, outer, rfl, hf, houter⟩

/-- A construct that has been begun is read to its end. -/
theorem leaves_begun {k : Option Location} {ks : List Location} {text : String}
    (h : text = if k.isSome then "\x7b" else ";") :
    Leaves (Begun k ks) (without (.symbol text) * symbol text) (Rests (k.toList ++ ks)) := by
  rintro s ⟨hs, rfl, rfl⟩ ts ns s' hts hrun
  obtain ⟨_, hfront, _, ⟨_, rfl, rfl⟩, hsplit⟩ := Language.mem_mul.mp hts
  obtain ⟨front, last, rfl, rfl, hlast⟩ := List.map_eq_append_iff.mp hsplit.symm
  obtain ⟨t, rfl, ht⟩ := List.map_eq_singleton_iff.mp hlast
  -- All tokens but the last go on with the construct.
  obtain ⟨_, s₁, p, hbefore, hstep, -, rfl⟩ := hrun.of_concat
  rw [h] at hfront ht
  have hcontinues := hbefore.continues hs hfront
  rw [← hcontinues.fn?, ← hcontinues.keywords]
  refine hstep.ends hcontinues.phase_ne ?_
  rw [Phase.terminator, hcontinues.fn?]
  exact ht

section

variable {k : Location} {ks : List Location}

private theorem leaves_let : Leaves (Rests ks) (keyword "let") (Begun none ks) := by
  refine Leaves.terminal ?_
  rintro ⟨fs, _⟩ ⟨rfl, rfl⟩ t p ht hstep
  obtain rfl := hstep.unique (.letKeyword ht)
  exact ⟨by simp [Progress.state], rfl, rfl⟩

private theorem leaves_opener : Leaves (Rests (k :: ks)) opener (Begun none (k :: ks)) := by
  have hliteral {kind : Kind} (hkind : kind = .integer ∨ kind = .string) :
      Leaves (Rests (k :: ks)) (terminal (·.kind = kind)) (Begun none (k :: ks)) := by
    refine Leaves.terminal ?_
    intro s hs t p ht hstep
    obtain ⟨f, outer, rfl, rfl, rfl⟩ := exists_cons_of_rests hs
    have ht : t.kind = kind := ht
    obtain rfl := hstep.unique (.literal (ht ▸ hkind))
    exact ⟨by simp [Progress.state], rfl, rfl⟩
  have hword : Leaves (Rests (k :: ks)) word (Begun none (k :: ks)) := by
    refine Leaves.terminal ?_
    rintro s hs t p ⟨hkind, hlet, hfn⟩ hstep
    obtain ⟨f, outer, rfl, rfl, rfl⟩ := exists_cons_of_rests hs
    obtain rfl := hstep.unique (.word hkind hlet hfn)
    exact ⟨by simp [Progress.state], rfl, rfl⟩
  exact ((leaves_let.add hword).add (hliteral (.inl rfl))).add (hliteral (.inr rfl))

private theorem leaves_lone : Leaves (Rests (k :: ks)) lone (Rests (k :: ks)) := by
  have hempty : Leaves (Rests (k :: ks)) (symbol ";") (Rests (k :: ks)) := by
    refine Leaves.terminal ?_
    intro s hs t p ht hstep
    obtain ⟨f, outer, rfl, rfl, rfl⟩ := exists_cons_of_rests hs
    obtain rfl := hstep.unique (.emptyStatement ht)
    exact ⟨rfl, rfl⟩
  have hsymbol : Leaves (Rests (k :: ks)) straySymbol (Rests (k :: ks)) := by
    refine Leaves.terminal ?_
    rintro s hs t p ⟨hkind, hsemicolon, hbrace⟩ hstep
    obtain ⟨f, outer, rfl, rfl, rfl⟩ := exists_cons_of_rests hs
    obtain rfl := hstep.unique (.straySymbol hkind hsemicolon hbrace)
    exact ⟨rfl, rfl⟩
  have hunknown : Leaves (Rests (k :: ks)) unknown (Rests (k :: ks)) := by
    refine Leaves.terminal ?_
    intro s hs t p ht hstep
    obtain ⟨f, outer, rfl, rfl, rfl⟩ := exists_cons_of_rests hs
    obtain rfl := hstep.unique (.stray (.inl ht))
    exact ⟨rfl, rfl⟩
  exact (hempty.add hsymbol).add hunknown

private theorem leaves_simpleItem : Leaves (Rests (k :: ks)) simpleItem (Rests (k :: ks)) := by
  refine (leaves_lone.add ?_).mono simpleItem_le
  rw [mul_assoc]
  exact leaves_opener.mul (leaves_begun rfl)

/-- A head of a function opens its body. -/
theorem rests_of_fnHead {t : Token} {head : List Token} {ns : List Node} {s s' : Open}
    (hs : s ∈ Rests ks) (hhead : (t :: head).map Token.spelling ∈ fnHead)
    (hrun : Run s (t :: head) ns s') : s' ∈ Rests (t.location :: ks) := by
  obtain ⟨fs, _⟩ := s
  obtain ⟨rfl, rfl⟩ := hs
  obtain ⟨ht, hrest⟩ := cons_mem_terminal_mul.mp (fnHead_le hhead)
  obtain _ | ⟨hstep, hrun⟩ := hrun
  obtain rfl := hstep.unique (.fnKeyword ht)
  refine leaves_begun (k := some t.location) rfl _ ?_ head _ s' hrest hrun
  exact ⟨by simp [Progress.state], rfl, rfl⟩

/-- The head of a function adds its keyword to those that are open. -/
private theorem leaves_fnHead : Leaves (Rests ks) fnHead (⋃ k, Rests (k :: ks)) := by
  rintro s hs (_ | ⟨t, head⟩) ns s' hts hrun
  · obtain ⟨_, ⟨_, _, rfl⟩, _, _, hnil⟩ := Language.mem_mul.mp (fnHead_le hts)
    cases hnil
  · exact Set.mem_iUnion.mpr ⟨t.location, rests_of_fnHead hs hts hrun⟩

/-- The closing brace takes the innermost keyword away. -/
private theorem leaves_bodyEnd : Leaves (⋃ k, Rests (k :: ks)) (symbol "\x7d") (Rests ks) := by
  refine Leaves.terminal ?_
  intro s hs t p ht hstep
  obtain ⟨k, hk⟩ := Set.mem_iUnion.mp hs
  obtain ⟨f, outer, rfl, -, rfl⟩ := exists_cons_of_rests hk
  obtain rfl := hstep.unique (.bodyEnd ht)
  exact ⟨phase_close _ _, keywords_close _ _⟩

/-- A whole statement leaves the functions around it open, and no others. -/
theorem leaves_of_isItem {ss : List Spelling} (h : IsItem ss) :
    Leaves (Rests (k :: ks)) {ss} (Rests (k :: ks)) := by
  -- A function is read inside one more function than the statements of its body are.
  induction h generalizing k ks with
  | simple hss => exact leaves_simpleItem.mono (Set.singleton_subset_iff.mpr hss)
  | @function head items hhead _ ih =>
    have hbody : Leaves (⋃ k', Rests (k' :: k :: ks)) {items.flatten}
        (⋃ k', Rests (k' :: k :: ks)) :=
      Leaves.iUnion fun k' => Leaves.flatten fun ss hss => ih ss hss
    refine ((leaves_fnHead.mul hbody).mul leaves_bodyEnd).mono ?_
    exact Set.singleton_subset_iff.mpr (Language.append_mem_mul
      (Language.append_mem_mul hhead rfl) ⟨_, rfl, rfl⟩)

/-- Whole items leave the open functions as they are. -/
private theorem leaves_items : Leaves (Rests (k :: ks)) item∗ (Rests (k :: ks)) := by
  rintro s hs ts ns s' ⟨items, hts, hitems⟩ hrun
  exact Leaves.flatten (fun ss hss => leaves_of_isItem (hitems ss hss)) s hs ts ns s' hts hrun

/-- **Where a statement can start, exactly the functions that are in progress are open.** -/
theorem rests_of_within {ts fns : List Token} {ns : List Node} {s : Open} (h : Within ts fns)
    (hrun : Run {} ts ns s) : s ∈ Rests (fns.map Token.location) := by
  induction h generalizing ns s with
  | program hts =>
    obtain ⟨hfs, hphase⟩ := Leaves.of_passes passes_program {} ⟨rfl, rfl⟩ _ _ _ hts hrun
    refine ⟨hphase, ?_⟩
    rw [keywords, List.length_eq_zero_iff.mp hfs]
    rfl
  | body _ hhead hitems ih =>
    obtain ⟨_, s₁, _, -, hfront, hrun⟩ := hrun.of_append
    obtain ⟨_, s₂, _, -, hfn, hbody⟩ := hrun.of_append
    exact leaves_items s₂ (rests_of_fnHead (ih hfront) hhead hfn) _ _ s hitems hbody

end

/-! ### What a state remembers -/

/-- The remarks on the constructs that are open in a state. -/
def notesAt (atEnd : Bool) (s : Open) : List Note :=
  (if atEnd then s.phase.endNotes else s.phase.notes) ++ s.fnNotes

/-- There is one note for each function that is open, in the order of their keywords. -/
theorem fnNotes_eq (s : Open) : s.fnNotes = s.keywords.map fnNote := by
  rw [fnNotes, keywords, List.map_map]
  rfl

private theorem fnNotes_of_keywords {fns : List Token} {s : Open}
    (h : s.keywords = fns.map Token.location) :
    s.fnNotes = fns.map fun k => ⟨k.location, "function declaration starts here"⟩ := by
  rw [fnNotes_eq, h, List.map_map]
  rfl

/-- A construct that has been begun is remembered by the same remark up to its end. -/
theorem Run.notesAt_eq {s s' : Open} {ts fns : List Token} {ns : List Node} {n : Note}
    (hrun : Run s ts ns s') (hts : s.phase.terminator ∉ ts.map Token.spelling)
    (hn : s.phase.notes = [n]) (hfns : s.keywords = fns.map Token.location) (atEnd : Bool) :
    s'.notesAt atEnd =
      n :: fns.map fun k => ⟨k.location, "function declaration starts here"⟩ := by
  have hs : s.phase ≠ .idle := by
    intro hidle
    rw [hidle] at hn
    cases hn
  have hcontinues := hrun.continues hs hts
  have hnotes : s'.phase.notes = [n] := by
    rw [hcontinues.notes (by simp [hn]), hn]
  have hend : s'.phase.endNotes = [n] := by
    rw [← hnotes]
    cases hphase : s'.phase with
    | word =>
      rw [hphase] at hnotes
      cases hnotes
    | _ => rfl
  rw [notesAt, hnotes, hend, ite_self, fnNotes_of_keywords (hcontinues.keywords.trans hfns)]
  rfl

/-- A name where a statement can start in a body. -/
theorem exists_run_of_word {ts fns rest : List Token} {name : Token} {ns : List Node} {s : Open}
    (hwithin : Within ts fns) (hne : fns ≠ []) (hname : [name.spelling] ∈ word)
    (hrun : Run {} (ts ++ name :: rest) ns s) :
    ∃ fs ns', keywords ⟨fs, .word name⟩ = fns.map Token.location ∧
      Run ⟨fs, .word name⟩ rest ns' s := by
  obtain ⟨_, s₁, _, -, hfront, hrun⟩ := hrun.of_append
  have hrests := rests_of_within hwithin hfront
  obtain ⟨k, fns, rfl⟩ := List.exists_cons_of_ne_nil hne
  obtain ⟨f, outer, rfl, -, -⟩ := exists_cons_of_rests hrests
  obtain ⟨_, ⟨hkind, hlet, hfn⟩, heq⟩ := hname
  obtain rfl := List.singleton_inj.mp heq
  obtain _ | ⟨hstep, hrun⟩ := hrun
  obtain rfl := hstep.unique (.word hkind hlet hfn)
  exact ⟨_, _, hrests.2, hrun⟩

/-- **A state remembers what is in progress.** -/
theorem notesAt_of_inProgress {ts fns : List Token} {c : Option Construct} {ns : List Node}
    {s : Open} (h : InProgress ts fns c) (hrun : Run {} ts ns s) (atEnd : Bool) :
    s.notesAt atEnd = stackNotes atEnd fns c := by
  -- The state where the construct starts is known, its first tokens lead to a phase with the remark
  -- on it, and the tokens behind them do not end it.
  cases h with
  | nothing hwithin =>
    obtain ⟨hphase, hfns⟩ := rests_of_within hwithin hrun
    rw [notesAt, hphase, fnNotes_of_keywords hfns]
    cases atEnd <;> rfl
  | function hwithin hk hmore =>
    obtain ⟨_, ⟨fs, _⟩, _, -, hfront, hrun⟩ := hrun.of_append
    obtain ⟨rfl, hfns⟩ := rests_of_within hwithin hfront
    obtain _ | ⟨hstep, hrun⟩ := hrun
    obtain rfl := hstep.unique (.fnKeyword hk)
    exact hrun.notesAt_eq hmore rfl hfns atEnd
  | declaration hwithin hk hmore =>
    obtain ⟨_, ⟨fs, _⟩, _, -, hfront, hrun⟩ := hrun.of_append
    obtain ⟨rfl, hfns⟩ := rests_of_within hwithin hfront
    obtain _ | ⟨hstep, hrun⟩ := hrun
    obtain rfl := hstep.unique (.letKeyword hk)
    exact hrun.notesAt_eq hmore rfl hfns atEnd
  | inclusion hwithin hk hmore =>
    obtain ⟨_, ⟨fs, _⟩, _, -, hfront, hrun⟩ := hrun.of_append
    obtain ⟨rfl, hfns⟩ := rests_of_within hwithin hfront
    obtain rfl : fs = [] := List.map_eq_nil_iff.mp hfns
    obtain _ | ⟨hstep, hrun⟩ := hrun
    obtain rfl := hstep.unique (.useKeyword hk)
    exact hrun.notesAt_eq hmore rfl hfns atEnd
  | assignment hwithin hne hname hsign hmore =>
    obtain ⟨fs, _, hfns, hrun⟩ := exists_run_of_word hwithin hne hname hrun
    obtain _ | ⟨hstep, hrun⟩ := hrun
    obtain rfl := hstep.unique (.wordAssign hsign)
    exact hrun.notesAt_eq hmore rfl hfns atEnd
  | call hwithin hne hname hparen hmore =>
    obtain ⟨fs, _, hfns, hrun⟩ := exists_run_of_word hwithin hne hname hrun
    obtain _ | ⟨hstep, hrun⟩ := hrun
    obtain rfl := hstep.unique (.wordCall hparen)
    exact hrun.notesAt_eq hmore rfl hfns atEnd
  | hanging hwithin hne hname =>
    obtain ⟨fs, _, hfns, hrun⟩ := exists_run_of_word hwithin hne hname hrun
    cases hrun
    rw [notesAt, fnNotes_of_keywords hfns]
    cases atEnd <;> rfl
  | @literal _ fns t hwithin hne ht =>
    obtain ⟨_, s₁, p, hfront, hstep, -, rfl⟩ := hrun.of_concat
    have hrests := rests_of_within hwithin hfront
    obtain ⟨k, fns, rfl⟩ := List.exists_cons_of_ne_nil hne
    obtain ⟨f, outer, rfl, -, -⟩ := exists_cons_of_rests hrests
    have hkind : t.kind = .integer ∨ t.kind = .string := by
      rcases ht with ⟨_, hkind, heq⟩ | ⟨_, hkind, heq⟩
      · obtain rfl := List.singleton_inj.mp heq
        exact .inl hkind
      · obtain rfl := List.singleton_inj.mp heq
        exact .inr hkind
    obtain rfl := hstep.unique (.literal hkind)
    have hnotes := fnNotes_of_keywords (s := ⟨f :: outer, .literal t⟩) hrests.2
    cases atEnd <;> exact hnotes

end Open

/-! ### There is always something in progress -/

/-- The first tokens of the construct that an expression belongs to. -/
def Purpose.head : Purpose → Language Spelling
  | initializer .. => keyword "let"
  | rvalue _ => word * symbol "="
  | argument .. => word * symbol "("

private theorem Purpose.lead_le (purpose : Purpose) :
    purpose.lead ≤ purpose.head * without (.symbol ";") := by
  cases purpose with
  | initializer k n isMutable => cases isMutable <;> exact letHead_le (by simp)
  | rvalue => exact le_mul_without
  | argument =>
    exact mul_le_mul_without le_mul_without
      (kstar_le_without (mul_le_without expression_le_without (symbol_le_without (by simp))))

namespace Phase

/-- The first tokens of the construct in progress. -/
def head : Phase → Language Spelling
  | idle => 1
  | fnKeyword _ | fnName .. | fnParams .. | fnHead .. => keyword "fn"
  | letKeyword _ | letName .. | letColon .. | letMarker .. => keyword "let"
  | importPath .. => keyword "use"
  | word _ => Grammar.word
  | literal _ => integer + string
  | callOpen _ | callClosed .. => Grammar.word * symbol "("
  | operand purpose | sign purpose _ | value purpose _ => purpose.head

/-- What has been read of a construct does not hold the symbol that ends it. -/
theorem lead_le (φ : Phase) : φ.lead ≤ φ.head * without φ.terminator := by
  cases φ with
  | idle | fnKeyword | letKeyword | word | literal | callOpen => exact le_mul_without
  | fnName | letName => exact mul_le_mul_without le_mul_without name_le_without
  | fnParams =>
    exact mul_le_mul_without (mul_le_mul_without le_mul_without name_le_without)
      (symbol_le_without (by simp [fn?]))
  | fnHead =>
    exact mul_le_mul_without (mul_le_mul_without (mul_le_mul_without le_mul_without name_le_without)
      (symbol_le_without (by simp [fn?]))) (symbol_le_without (by simp [fn?]))
  | letColon =>
    exact mul_le_mul_without (mul_le_mul_without le_mul_without name_le_without)
      (symbol_le_without (by simp [fn?]))
  | letMarker k n isMutable => exact (Purpose.initializer k n isMutable).lead_le
  | importPath k text last =>
    have hpath : keyword "use" * path ≤ keyword "use" * without (.symbol ";") :=
      mul_le_mul_without le_mul_without path_le_without
    cases last with
    | nothing => exact le_mul_without
    | name => exact hpath
    | colon => exact mul_le_mul_without hpath (symbol_le_without (by simp [fn?]))
  | operand purpose => exact purpose.lead_le
  | sign purpose =>
    exact mul_le_mul_without (mul_le_mul_without purpose.lead_le expression_le_without)
      sign_le_without
  | value purpose => exact mul_le_mul_without purpose.lead_le expression_le_without
  | callClosed =>
    exact mul_le_mul_without (mul_le_mul_without le_mul_without arguments_le_without)
      (symbol_le_without (by simp [fn?]))

end Phase

/-- Tokens whose spellings start with that of one token. -/
theorem exists_cons_of_mem_terminal_mul {p : Spelling → Prop} {l : Language Spelling}
    {ts : List Token} (h : ts.map Token.spelling ∈ terminal p * l) :
    ∃ t rest, ts = t :: rest ∧ p t.spelling ∧ rest.map Token.spelling ∈ l := by
  cases ts with
  | nil =>
    obtain ⟨_, ⟨_, -, rfl⟩, _, -, hnil⟩ := Language.mem_mul.mp h
    cases hnil
  | cons t rest =>
    obtain ⟨ht, hrest⟩ := cons_mem_terminal_mul.mp h
    exact ⟨t, rest, rfl, ht, hrest⟩

namespace Open

/-- What has been read of the functions that are open. -/
theorem exists_within {fs : List OpenFn} {ts : List Token}
    (h : ts.map Token.spelling ∈ program * frames fs) :
    ∃ fns, Within ts fns ∧ (fns = [] ↔ fs = []) := by
  induction fs generalizing ts with
  | nil =>
    rw [frames, mul_one] at h
    exact ⟨[], .program h, by simp⟩
  | cons f outer ih =>
    rw [frames, ← mul_assoc] at h
    obtain ⟨_, hfront, _, hbody, hsplit⟩ := Language.mem_mul.mp h
    obtain ⟨front, body, rfl, rfl, rfl⟩ := List.map_eq_append_iff.mp hsplit.symm
    obtain ⟨_, hhead, _, hitems, hsplit⟩ := Language.mem_mul.mp hbody
    obtain ⟨head, items, rfl, rfl, rfl⟩ := List.map_eq_append_iff.mp hsplit.symm
    obtain ⟨k, more, rfl, -, -⟩ := exists_cons_of_mem_terminal_mul (fnHead_le hhead)
    obtain ⟨fns, hwithin, -⟩ := ih hfront
    exact ⟨k :: fns, .body hwithin hhead hitems, by simp⟩

/-- The construct that an expression belongs to. -/
theorem exists_inProgress_of_purpose {ts fns piece : List Token} (purpose : Purpose)
    (hwithin : Within ts fns) (hne : purpose.IsInner → fns ≠ [])
    (h : piece.map Token.spelling ∈ purpose.head * without (.symbol ";")) :
    ∃ c, InProgress (ts ++ piece) fns c := by
  cases purpose with
  | initializer =>
    obtain ⟨k, more, rfl, hk, hmore⟩ := exists_cons_of_mem_terminal_mul h
    exact ⟨_, .declaration hwithin hk hmore⟩
  | rvalue =>
    rw [Purpose.head, mul_assoc] at h
    obtain ⟨name, _, rfl, hname, h⟩ := exists_cons_of_mem_terminal_mul h
    obtain ⟨sign, more, rfl, hsign, hmore⟩ := exists_cons_of_mem_terminal_mul h
    exact ⟨_, .assignment hwithin (hne trivial) ⟨_, hname, rfl⟩ hsign hmore⟩
  | argument =>
    rw [Purpose.head, mul_assoc] at h
    obtain ⟨name, _, rfl, hname, h⟩ := exists_cons_of_mem_terminal_mul h
    obtain ⟨paren, more, rfl, hparen, hmore⟩ := exists_cons_of_mem_terminal_mul h
    exact ⟨_, .call hwithin (hne trivial) ⟨_, hname, rfl⟩ hparen hmore⟩

/-- **Behind what has been read, something is in progress.** -/
theorem exists_inProgress {ts : List Token} {ns : List Node} {s : Open}
    (hts : ∀ t ∈ ts, t.spelling.Lexical) (hrun : Run {} ts ns s) :
    ∃ fns c, InProgress ts fns c := by
  have hplaced := (placed_idle []).run hrun
  have hmem := map_spelling_mem_of_run hts hrun
  obtain ⟨fs, φ⟩ := s
  rw [lead, ← mul_assoc] at hmem
  obtain ⟨_, hfront, _, hpiece, hsplit⟩ := Language.mem_mul.mp hmem
  obtain ⟨front, piece, rfl, rfl, rfl⟩ := List.map_eq_append_iff.mp hsplit.symm
  obtain ⟨fns, hwithin, hnil⟩ := exists_within hfront
  -- The phase tells the construct, and what has been read of it tells its first tokens.
  have hinner (h : φ.IsInner) : fns ≠ [] := fun hfns => hplaced.inner h (hnil.mp hfns)
  have hhead := φ.lead_le hpiece
  cases φ with
  | idle =>
    obtain rfl := List.map_eq_nil_iff.mp ((Language.mem_one _).mp hpiece)
    rw [List.append_nil]
    exact ⟨fns, none, .nothing hwithin⟩
  | fnKeyword | fnName | fnParams | fnHead =>
    obtain ⟨k, more, rfl, hk, hmore⟩ := exists_cons_of_mem_terminal_mul hhead
    exact ⟨k :: fns, none, .function hwithin hk hmore⟩
  | letKeyword k | letName k | letColon k | letMarker k =>
    exact ⟨fns, exists_inProgress_of_purpose (.initializer k default true) hwithin False.elim hhead⟩
  | importPath =>
    obtain ⟨k, more, rfl, hk, hmore⟩ := exists_cons_of_mem_terminal_mul hhead
    obtain rfl := hnil.mpr (hplaced.outer _ _ _ rfl)
    exact ⟨[], _, .inclusion hwithin hk hmore⟩
  | word =>
    obtain ⟨_, hname, hpiece⟩ := hpiece
    obtain ⟨name, rfl, rfl⟩ := List.map_eq_singleton_iff.mp hpiece
    exact ⟨fns, _, .hanging hwithin (hinner trivial) ⟨_, hname, rfl⟩⟩
  | literal =>
    have hone : ∃ t, piece = [t] := by
      rcases hpiece with ⟨_, -, hpiece⟩ | ⟨_, -, hpiece⟩ <;>
        exact (List.map_eq_singleton_iff.mp hpiece).imp fun _ h => h.1
    obtain ⟨t, rfl⟩ := hone
    exact ⟨fns, none, .literal hwithin (hinner trivial) hpiece⟩
  | callOpen name | callClosed name =>
    exact ⟨fns, exists_inProgress_of_purpose (.argument name []) hwithin hinner hhead⟩
  | operand purpose | sign purpose | value purpose =>
    exact ⟨fns, exists_inProgress_of_purpose purpose hwithin hinner hhead⟩

end Open

end Dwo
