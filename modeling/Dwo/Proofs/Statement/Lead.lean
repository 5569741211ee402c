import Dwo.Proofs.Statement.Grammar

/-!
# What has been read is part of a program

Each state of reading has the language `Open.lead` of what can have been read of the current
statement. A step appends its token to that language (`Open.lead_step`), so what has been read
from the start of a text is always a program followed by the lead of the state
(`Open.map_spelling_mem_of_run`).

The lead of a state is put together from two parts: the heads of the functions that are open
with their finished items (`Open.frames`), and the beginning of the construct that is in
progress (`Phase.lead`, `Purpose.lead`). Most tokens only lengthen the second part, and the
lemmas `lead_mul_le` and `lead_begin_le` reduce such a step to an inclusion between two phases.
The tokens that end a construct turn its lead into an item or a statement, which moves to the
first part (`lead_mul_close_le`). A state with nothing open has the lead `1`, so tokens that are
read to their end form a program.
-/

namespace Dwo

open scoped Computability
open Grammar

/-! ### What a state has read -/

/-- What has been read in front of an expression. -/
def Purpose.lead : Purpose → Language Spelling
  | initializer _ _ true => keyword "let" * name * symbol ":" * symbol "="
  | initializer _ _ false => keyword "let" * name * symbol ":" * symbol ":"
  | rvalue _ => word * symbol "="
  | argument .. => word * symbol "(" * (expression * symbol ",")∗

/-- What has been read of the construct in progress. -/
def Phase.lead : Phase → Language Spelling
  | idle => 1
  | fnKeyword _ => keyword "fn"
  | fnName .. => keyword "fn" * name
  | fnParams .. => keyword "fn" * name * symbol "("
  | fnHead .. => keyword "fn" * name * symbol "(" * symbol ")"
  | letKeyword _ => keyword "let"
  | letName .. => keyword "let" * name
  | letColon .. => keyword "let" * name * symbol ":"
  | letMarker k n isMutable => (Purpose.initializer k n isMutable).lead
  | importPath _ _ .nothing => keyword "use"
  | importPath _ _ .name => keyword "use" * path
  | importPath _ _ (.colon _) => keyword "use" * path * symbol ":"
  | word _ => Grammar.word
  | literal _ => integer + string
  | callOpen _ => Grammar.word * symbol "("
  | operand purpose => purpose.lead
  | sign purpose _ => purpose.lead * expression * Grammar.sign
  | value purpose _ => purpose.lead * expression
  | callClosed .. => Grammar.word * symbol "(" * arguments * symbol ")"

namespace Open

/-- What has been read of the functions that are still open: their heads and some items. -/
def frames : List OpenFn → Language Spelling
  | [] => 1
  | _ :: outer => frames outer * (fnHead * item∗)

/-- What has been read of the current statement. -/
def lead (s : Open) : Language Spelling :=
  frames s.functions * s.phase.lead

/-- A token that only changes the phase is checked on the lead of the phase. -/
private theorem lead_mul_le {fs : List OpenFn} {φ ψ : Phase} {l : Language Spelling}
    (h : φ.lead * l ≤ ψ.lead) :
    program * lead ⟨fs, φ⟩ * l ≤ program * lead ⟨fs, ψ⟩ := by
  calc program * (frames fs * φ.lead) * l = program * (frames fs * (φ.lead * l)) := by
        simp only [mul_assoc]
    _ ≤ program * (frames fs * ψ.lead) := by gcongr

/-- A statement that has been read is an item of the innermost body, or a statement of the
program if there is none. -/
private theorem lead_close_le {fs : List OpenFn} {node : Node} {l : Language Spelling}
    (hitem : fs ≠ [] → l ≤ item) (hstatement : fs = [] → l ≤ statement) :
    program * (frames fs * l) ≤ program * (Progress.close fs node).state.lead := by
  cases fs with
  | nil =>
    calc program * (1 * l) ≤ program * (1 * statement) := by
          gcongr
          exact hstatement rfl
      _ = statement∗ * statement := by rw [one_mul, program]
      _ ≤ program * (1 * 1) := by
          rw [one_mul, mul_one, program]
          exact kstar_mul_le_kstar
  | cons f outer =>
    have hbody : fnHead * item∗ * l ≤ fnHead * item∗ := by
      rw [mul_assoc]
      gcongr
      grw [hitem (List.cons_ne_nil f outer)]
      exact kstar_mul_le_kstar
    calc program * (frames outer * (fnHead * item∗) * l)
          = program * (frames outer * (fnHead * item∗ * l)) := by simp only [mul_assoc]
      _ ≤ program * (frames outer * (fnHead * item∗)) := by gcongr
      _ = program * (frames outer * (fnHead * item∗) * 1) := by rw [mul_one]

/-- A token that closes a construct turns its lead into an item or a statement. -/
private theorem lead_mul_close_le {fs : List OpenFn} {φ : Phase} {node : Node}
    {l : Language Spelling} (hitem : fs ≠ [] → φ.lead * l ≤ item)
    (hstatement : fs = [] → φ.lead * l ≤ statement) :
    program * lead ⟨fs, φ⟩ * l ≤ program * (Progress.close fs node).state.lead := by
  calc program * (frames fs * φ.lead) * l = program * (frames fs * (φ.lead * l)) := by
        simp only [mul_assoc]
    _ ≤ program * (Progress.close fs node).state.lead := lead_close_le hitem hstatement

private theorem lead_begin_le {fs : List OpenFn} {ψ : Phase} {l : Language Spelling}
    (h : l ≤ ψ.lead) : program * lead ⟨fs, .idle⟩ * l ≤ program * lead ⟨fs, ψ⟩ := by
  refine lead_mul_le ?_
  rw [Phase.lead, one_mul]
  exact h

private theorem lead_mul_simple_le {fs : List OpenFn} {φ : Phase} {node : Node}
    {l : Language Spelling} (hfs : fs ≠ []) (h : φ.lead * l ≤ simpleItem) :
    program * lead ⟨fs, φ⟩ * l ≤ program * (Progress.close fs node).state.lead :=
  lead_mul_close_le (fun _ => h.trans simpleItem_le_item) (fun hnil => absurd hnil hfs)

end Open

/-! ### Tokens inside a construct -/

section Tokens

variable {t : Token}

private theorem lead_pathName {k : Location} {text : String} {last : PathEnd}
    (hlast : last ≠ .name) (h : t.kind = .identifier) :
    (Phase.importPath k text last).lead * {[t.spelling]} ≤ keyword "use" * path := by
  cases last with
  | name => exact absurd rfl hlast
  | nothing =>
    calc keyword "use" * {[t.spelling]} ≤ keyword "use" * name := mul_singleton_le h
      _ ≤ keyword "use" * path := by grw [name_le_path]
  | colon l =>
    calc keyword "use" * path * symbol ":" * {[t.spelling]}
          ≤ keyword "use" * path * symbol ":" * name := mul_singleton_le h
      _ = keyword "use" * (path * symbol ":" * name) := by simp only [mul_assoc]
      _ ≤ keyword "use" * path := by grw [path_mul_le]

private theorem lead_operand {l : Language Spelling} (h : t.isOperand = true) :
    l * {[t.spelling]} ≤ l * expression := by
  grw [singleton_le_operand h, operand_le_expression]

private theorem lead_signOperand {l : Language Spelling} (h : t.isOperand = true) :
    l * expression * sign * {[t.spelling]} ≤ l * expression := by
  calc l * expression * sign * {[t.spelling]} ≤ l * expression * sign * operand := by
        grw [singleton_le_operand h]
    _ = l * (expression * sign * operand) := by simp only [mul_assoc]
    _ ≤ l * expression := by grw [expression_mul_le]

private theorem lead_callEmpty (h : t.spelling = .symbol ")") :
    word * symbol "(" * {[t.spelling]} ≤ word * symbol "(" * arguments * symbol ")" := by
  calc word * symbol "(" * {[t.spelling]} ≤ word * symbol "(" * symbol ")" := mul_singleton_le h
    _ = word * symbol "(" * 1 * symbol ")" := by rw [mul_one]
    _ ≤ word * symbol "(" * arguments * symbol ")" := by
        gcongr
        exact le_self_add

private theorem lead_callOperand (h : t.isOperand = true) :
    word * symbol "(" * {[t.spelling]} ≤
      word * symbol "(" * (expression * symbol ",")∗ * expression := by
  calc word * symbol "(" * {[t.spelling]} ≤ word * symbol "(" * expression := lead_operand h
    _ = word * symbol "(" * 1 * expression := by rw [mul_one]
    _ ≤ word * symbol "(" * (expression * symbol ",")∗ * expression := by
        gcongr
        exact one_le_kstar

private theorem lead_argumentComma (h : t.spelling = .symbol ",") :
    word * symbol "(" * (expression * symbol ",")∗ * expression * {[t.spelling]} ≤
      word * symbol "(" * (expression * symbol ",")∗ := by
  calc word * symbol "(" * (expression * symbol ",")∗ * expression * {[t.spelling]}
        ≤ word * symbol "(" * (expression * symbol ",")∗ * expression * symbol "," :=
          mul_singleton_le h
    _ = word * symbol "(" * ((expression * symbol ",")∗ * (expression * symbol ",")) := by
        simp only [mul_assoc]
    _ ≤ word * symbol "(" * (expression * symbol ",")∗ := by
        gcongr
        exact kstar_mul_le_kstar

private theorem lead_argumentEnd (h : t.spelling = .symbol ")") :
    word * symbol "(" * (expression * symbol ",")∗ * expression * {[t.spelling]} ≤
      word * symbol "(" * arguments * symbol ")" := by
  calc word * symbol "(" * (expression * symbol ",")∗ * expression * {[t.spelling]}
        ≤ word * symbol "(" * (expression * symbol ",")∗ * expression * symbol ")" :=
          mul_singleton_le h
    _ = word * symbol "(" * ((expression * symbol ",")∗ * expression) * symbol ")" := by
        simp only [mul_assoc]
    _ ≤ word * symbol "(" * arguments * symbol ")" := by
        gcongr
        exact kstar_mul_expression_le.trans le_add_self

/-! ### Tokens that end a construct -/

private theorem lead_letEnd (h : t.spelling = .symbol ";") :
    keyword "let" * name * symbol ":" * symbol "=" * {[t.spelling]} ≤ declaration := by
  calc keyword "let" * name * symbol ":" * symbol "=" * {[t.spelling]}
        ≤ keyword "let" * name * symbol ":" * symbol "=" * symbol ";" := mul_singleton_le h
    _ = keyword "let" * name * symbol ":" * symbol "=" * 1 * symbol ";" := by rw [mul_one]
    _ ≤ keyword "let" * name * symbol ":" * symbol "=" * (1 + expression) * symbol ";" := by
        gcongr
        exact le_self_add
    _ ≤ declaration := le_self_add

private theorem lead_initializerEnd {k : Location} {n : Token} {isMutable : Bool}
    (h : t.spelling = .symbol ";") :
    (Purpose.initializer k n isMutable).lead * expression * {[t.spelling]} ≤ declaration := by
  cases isMutable with
  | true =>
    calc keyword "let" * name * symbol ":" * symbol "=" * expression * {[t.spelling]}
          ≤ keyword "let" * name * symbol ":" * symbol "=" * expression * symbol ";" :=
            mul_singleton_le h
      _ ≤ keyword "let" * name * symbol ":" * symbol "=" * (1 + expression) * symbol ";" := by
          gcongr
          exact le_add_self
      _ ≤ declaration := le_self_add
  | false =>
    calc keyword "let" * name * symbol ":" * symbol ":" * expression * {[t.spelling]}
          ≤ keyword "let" * name * symbol ":" * symbol ":" * expression * symbol ";" :=
            mul_singleton_le h
      _ ≤ declaration := le_add_self

private theorem lead_literalEnd (h : t.spelling = .symbol ";") :
    (integer + string) * {[t.spelling]} ≤ simpleItem := by
  calc (integer + string) * {[t.spelling]} ≤ (integer + string) * symbol ";" :=
        mul_singleton_le h
    _ = integer * symbol ";" + string * symbol ";" := add_mul _ _ _
    _ ≤ simpleItem := by
        rintro ss (h | h)
        · exact mem_simpleItem.mpr (by tauto)
        · exact mem_simpleItem.mpr (by tauto)

end Tokens

/-! ### Steps and runs -/

namespace Open

/-- **A step appends its token to what has been read.** -/
theorem lead_step {s : Open} {t : Token} {p : Progress} (hs : s.Placed)
    (ht : t.spelling.Lexical) (h : Step s t p) :
    program * s.lead * {[t.spelling]} ≤ program * p.state.lead := by
  cases h with
  -- A construct begins.
  | fnKeyword h | letKeyword h | useKeyword h => exact lead_begin_le (singleton_le_terminal h)
  | word hkind hlet hfn => exact lead_begin_le (singleton_le_terminal ⟨hkind, hlet, hfn⟩)
  | literal hkind =>
    refine lead_begin_le ?_
    rcases hkind with hkind | hkind
    · exact (singleton_le_terminal hkind).trans le_self_add
    · exact (singleton_le_terminal hkind).trans le_add_self
  -- A construct goes on.
  | fnName h | letName h | fnParams h | fnHead h | letColon h | letMutable h | letImmutable h
  | pathColon h | wordAssign h | wordCall h => exact lead_mul_le (mul_singleton_le h)
  | pathName hlast h => exact lead_mul_le (lead_pathName hlast h)
  | callEmpty h => exact lead_mul_le (lead_callEmpty h)
  | callOperand h => exact lead_mul_le (lead_callOperand h)
  | letOperand h | operand h => exact lead_mul_le (lead_operand h)
  | signOperand h => exact lead_mul_le (lead_signOperand h)
  | valueSign h => exact lead_mul_le (mul_le_mul_right (singleton_le_sign h) _)
  | argumentComma h => exact lead_mul_le (lead_argumentComma h)
  | argumentEnd h => exact lead_mul_le (lead_argumentEnd h)
  -- A body begins or ends.
  | @fnBody fs _ _ _ h =>
    calc program * (frames fs * (keyword "fn" * name * symbol "(" * symbol ")")) * {[t.spelling]}
          = program * (frames fs * (keyword "fn" * name * symbol "(" * symbol ")" *
              {[t.spelling]})) := by simp only [mul_assoc]
      _ ≤ program * (frames fs * fnHead) := by
          gcongr
          exact mul_singleton_le h
      _ = program * (frames fs * (fnHead * 1) * 1) := by simp only [mul_one]
      _ ≤ program * (frames fs * (fnHead * item∗) * 1) := by
          gcongr
          exact one_le_kstar
  | @bodyEnd f outer _ h =>
    have hfunction : fnHead * item∗ * {[t.spelling]} ≤ function := mul_singleton_le h
    calc program * (frames outer * (fnHead * item∗) * 1) * {[t.spelling]}
          = program * (frames outer * (fnHead * item∗ * {[t.spelling]})) := by
            simp only [mul_assoc, one_mul]
      _ ≤ _ := lead_close_le (fun _ => hfunction.trans function_le_item)
            (fun _ => hfunction.trans function_le_statement)
  -- A declaration can end inside a function and outside, an import only outside.
  | letEnd h =>
    have hlet := lead_letEnd h
    exact lead_mul_close_le (fun _ => hlet.trans declaration_le_item)
      (fun _ => hlet.trans declaration_le_statement)
  | initializerEnd h =>
    exact lead_mul_close_le (fun _ => (lead_initializerEnd h).trans declaration_le_item)
      (fun _ => (lead_initializerEnd h).trans declaration_le_statement)
  | @pathEnd fs k text _ h =>
    have hfs : fs = [] := hs.outer _ _ _ rfl
    have huse : (Phase.importPath k text .name).lead * {[t.spelling]} ≤ inclusion :=
      mul_singleton_le h
    exact lead_mul_close_le (fun hne => absurd hfs hne)
      (fun _ => huse.trans inclusion_le_statement)
  -- All other statements end inside a function.
  | @emptyStatement f outer _ h =>
    -- The languages do not see the statements of a body, so an empty one closes like any other.
    change _ ≤ program * (Progress.close (f :: outer) (.token t)).state.lead
    refine lead_mul_simple_le (List.cons_ne_nil f outer) ?_
    have hempty : [t.spelling] ∈ symbol ";" := ⟨_, h, rfl⟩
    rw [Phase.lead, one_mul]
    rintro _ rfl
    exact mem_simpleItem.mpr (.inl hempty)
  | straySymbol hkind hsemicolon hbrace =>
    refine lead_mul_simple_le (List.cons_ne_nil _ _) ?_
    have hstray : [t.spelling] ∈ Grammar.straySymbol := ⟨_, ⟨hkind, hsemicolon, hbrace⟩, rfl⟩
    rw [Phase.lead, one_mul]
    rintro _ rfl
    exact mem_simpleItem.mpr (by tauto)
  | stray hkind =>
    refine lead_mul_simple_le (List.cons_ne_nil _ _) ?_
    have hunknown : [t.spelling] ∈ unknown := ⟨_, hkind.resolve_right ht.kind_ne, rfl⟩
    rw [Phase.lead, one_mul]
    rintro _ rfl
    exact mem_simpleItem.mpr (by tauto)
  | wordEnd h =>
    refine lead_mul_simple_le (hs.inner trivial) ?_
    calc word * {[t.spelling]} ≤ word * symbol ";" := mul_singleton_le h
      _ ≤ simpleItem := fun _ h => mem_simpleItem.mpr (by tauto)
  | literalEnd h => exact lead_mul_simple_le (hs.inner trivial) (lead_literalEnd h)
  | rvalueEnd h =>
    refine lead_mul_simple_le (hs.inner trivial) ?_
    calc word * symbol "=" * expression * {[t.spelling]} ≤ assignment := mul_singleton_le h
      _ ≤ simpleItem := fun _ h => mem_simpleItem.mpr (by tauto)
  | callEnd h =>
    refine lead_mul_simple_le (hs.inner trivial) ?_
    calc word * symbol "(" * arguments * symbol ")" * {[t.spelling]} ≤ call := mul_singleton_le h
      _ ≤ simpleItem := fun _ h => mem_simpleItem.mpr (by tauto)

/-- **Soundness.** A run appends its tokens to what has been read. -/
theorem lead_run {s s' : Open} {ts : List Token} {ns : List Node} {ss : List Spelling}
    (hs : s.Placed) (hts : ∀ t ∈ ts, t.spelling.Lexical) (h : Run s ts ns s')
    (hss : ss ∈ program * s.lead) : ss ++ ts.map Token.spelling ∈ program * s'.lead := by
  induction h generalizing ss with
  | nil s => simpa using hss
  | @cons s s' t p ts ns hstep _ ih =>
    have hnext : ss ++ [t.spelling] ∈ program * p.state.lead :=
      lead_step hs (hts t List.mem_cons_self) hstep (Language.append_mem_mul hss rfl)
    rw [List.map_cons, List.append_cons]
    exact ih (hs.step hstep) (fun u hu => hts u (List.mem_cons_of_mem t hu)) hnext

theorem program_mul_lead : program * lead {} = program :=
  (congrArg _ (one_mul 1)).trans (mul_one program)

/-- What has been read from the start is a program and what the state has read. -/
theorem map_spelling_mem_of_run {ts : List Token} {ns : List Node} {s : Open}
    (hts : ∀ t ∈ ts, t.spelling.Lexical) (h : Run {} ts ns s) :
    ts.map Token.spelling ∈ program * s.lead := by
  have hnil : [] ∈ program * lead {} := by
    rw [program_mul_lead]
    exact Language.nil_mem_kstar statement
  exact lead_run (placed_idle []) hts h hnil

/-- The functions that are open are heads, each with whole items behind it. -/
theorem frames_le (fs : List OpenFn) : frames fs ≤ (fnHead * item∗)∗ := by
  induction fs with
  | nil => exact one_le_kstar
  | cons f outer ih =>
    calc frames outer * (fnHead * item∗) ≤ (fnHead * item∗)∗ * (fnHead * item∗) := by gcongr
      _ ≤ (fnHead * item∗)∗ := kstar_mul_le_kstar

end Open

end Dwo
