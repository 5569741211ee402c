import Dwo.Proofs.Statement.Run

/-!
# The grammar of statements

`Grammar.program` is the language of the sequences of spellings that make up a program, written
with the operations on languages: `+` for a choice, `*` for a sequence, `∗` for a repetition and
`1` for nothing. Only functions are recursive; `Grammar.item_eq` is their equation.

Terminals are sets of spellings, so values and places of tokens play no part. The clauses are:

* `expression`: operands with signs between them;
* `declaration`, `assignment`, `call` and the other clauses of `simpleItem`: what can stand in
  the body of a function, functions apart;
* `function`: a head, items, and a closing brace;
* `statement`: what can stand outside of all functions;
* `program`: statements in a row.

`openBody` is the language of the beginnings of programs behind which a statement of a body can
start. The inclusions between the clauses at the end of the file are used by both directions of
the acceptance proof.
-/

namespace Dwo

open scoped Computability

/-! ### Languages of spellings -/

namespace Grammar

/-- One token whose spelling satisfies `p`. -/
def terminal (p : Spelling → Prop) : Language Spelling :=
  {ss | ∃ s, p s ∧ ss = [s]}

/-- This symbol. -/
def symbol (text : String) : Language Spelling := terminal (· = .symbol text)

/-- This word. -/
def keyword (text : String) : Language Spelling := terminal (· = .word text)

/-- Any identifier; keywords are not reserved here. -/
def name : Language Spelling := terminal (·.kind = .identifier)

/-- An identifier that can start a statement of its own in a body. -/
def word : Language Spelling :=
  terminal fun s => s.kind = .identifier ∧ s.text ≠ "let" ∧ s.text ≠ "fn"

def integer : Language Spelling := terminal (·.kind = .integer)

def string : Language Spelling := terminal (·.kind = .string)

/-- A symbol that has no meaning where a statement of a body can start. -/
def straySymbol : Language Spelling :=
  terminal fun s => s.kind = .symbol ∧ s.text ≠ ";" ∧ s.text ≠ "\x7d"

def unknown : Language Spelling := terminal (·.kind = .unknown)

def operand : Language Spelling := name + integer + string

def sign : Language Spelling := symbol "+" + symbol "-"

def expression : Language Spelling := operand * (sign * operand)∗

/-- A variable with an optional value, or a constant with its value. -/
def declaration : Language Spelling :=
  keyword "let" * name * symbol ":" * symbol "=" * (1 + expression) * symbol ";" +
    keyword "let" * name * symbol ":" * symbol ":" * expression * symbol ";"

def path : Language Spelling := name * (symbol ":" * name)∗

def inclusion : Language Spelling := keyword "use" * path * symbol ";"

def assignment : Language Spelling := word * symbol "=" * expression * symbol ";"

def arguments : Language Spelling := 1 + expression * (symbol "," * expression)∗

def call : Language Spelling := word * symbol "(" * arguments * symbol ")" * symbol ";"

/-- The statements of a body that hold no other statement. -/
def simpleItem : Language Spelling :=
  symbol ";" + declaration + assignment + call + word * symbol ";" + integer * symbol ";" +
    string * symbol ";" + straySymbol + unknown

def fnHead : Language Spelling :=
  keyword "fn" * name * symbol "(" * symbol ")" * symbol "\x7b"

/-- The statements of a body, functions included. -/
inductive IsItem : List Spelling → Prop where
  | simple {ss : List Spelling} : ss ∈ simpleItem → IsItem ss
  | function {head : List Spelling} {items : List (List Spelling)} :
      head ∈ fnHead → (∀ ss ∈ items, IsItem ss) →
        IsItem (head ++ items.flatten ++ [.symbol "\x7d"])

def item : Language Spelling := {ss | IsItem ss}

def function : Language Spelling := fnHead * item∗ * symbol "\x7d"

def statement : Language Spelling := function + declaration + inclusion

/-- The sequences of spellings of programs. -/
def program : Language Spelling := statement∗

/-- What can stand in front of a statement of a body: a program, and at least one function that
is still open, each with some items. -/
def openBody : Language Spelling := program * (fnHead * item∗)∗ * (fnHead * item∗)

theorem singleton_le_terminal {p : Spelling → Prop} {s : Spelling} (h : p s) :
    ({[s]} : Language Spelling) ≤ terminal p := by
  rintro _ rfl
  exact ⟨s, h, rfl⟩

theorem mul_singleton_le {l : Language Spelling} {p : Spelling → Prop} {s : Spelling} (h : p s) :
    l * {[s]} ≤ l * terminal p := by
  gcongr
  exact singleton_le_terminal h

private theorem terminal_add_terminal (p q : Spelling → Prop) :
    terminal p + terminal q = terminal fun s => p s ∨ q s := by
  ext ss
  constructor
  · rintro (⟨s, h, rfl⟩ | ⟨s, h, rfl⟩)
    · exact ⟨s, .inl h, rfl⟩
    · exact ⟨s, .inr h, rfl⟩
  · rintro ⟨s, h | h, rfl⟩
    · exact .inl ⟨s, h, rfl⟩
    · exact .inr ⟨s, h, rfl⟩

/-- A choice of single tokens is a single token. -/
theorem operand_eq_terminal : operand = terminal fun s =>
    (s.kind = .identifier ∨ s.kind = .integer) ∨ s.kind = .string := by
  rw [operand, name, integer, string, terminal_add_terminal, terminal_add_terminal]

/-- The two signs form one terminal, which is what the reader tests for. -/
theorem sign_eq_terminal :
    sign = terminal fun s => s = .symbol "+" ∨ s = .symbol "-" := by
  rw [sign, symbol, symbol, terminal_add_terminal]

theorem singleton_le_operand {t : Token} (h : t.isOperand = true) :
    ({[t.spelling]} : Language Spelling) ≤ operand := by
  rw [operand_eq_terminal]
  exact singleton_le_terminal (or_assoc.mpr (Token.isOperand_iff.mp h))

theorem singleton_le_sign {t : Token} (h : t.isSign = true) :
    ({[t.spelling]} : Language Spelling) ≤ sign := by
  rw [sign_eq_terminal]
  exact singleton_le_terminal (Token.isSign_iff.mp h)

/-- **The equation of the recursive clause**: an item is a simple one or a function, whose body
is a sequence of items. -/
theorem item_eq : item = simpleItem + function := by
  ext ss
  constructor
  · rintro (h | ⟨hhead, hitems⟩)
    · exact .inl h
    · exact .inr (Language.append_mem_mul
        (Language.append_mem_mul hhead (Language.join_mem_kstar hitems)) ⟨_, rfl, rfl⟩)
  · rintro (h | h)
    · exact .simple h
    · obtain ⟨_, hfront, _, ⟨_, rfl, rfl⟩, rfl⟩ := Language.mem_mul.mp h
      obtain ⟨head, hhead, _, ⟨items, rfl, hitems⟩, rfl⟩ := Language.mem_mul.mp hfront
      exact .function hhead hitems

theorem operand_le_expression : operand ≤ expression := by
  calc operand = operand * 1 := (mul_one operand).symm
    _ ≤ operand * (sign * operand)∗ := by
        gcongr
        exact one_le_kstar

/-- An expression goes on with a sign and an operand. -/
theorem expression_mul_le : expression * sign * operand ≤ expression := by
  calc expression * sign * operand = operand * ((sign * operand)∗ * (sign * operand)) := by
        simp only [expression, mul_assoc]
    _ ≤ operand * (sign * operand)∗ := by
        gcongr
        exact kstar_mul_le_kstar

theorem name_le_path : name ≤ path := by
  calc name = name * 1 := (mul_one name).symm
    _ ≤ name * (symbol ":" * name)∗ := by
        gcongr
        exact one_le_kstar

/-- A path goes on with a colon and a name. -/
theorem path_mul_le : path * symbol ":" * name ≤ path := by
  calc path * symbol ":" * name = name * ((symbol ":" * name)∗ * (symbol ":" * name)) := by
        simp only [path, mul_assoc]
    _ ≤ name * (symbol ":" * name)∗ := by
        gcongr
        exact kstar_mul_le_kstar

/-- Arguments can be read with the comma behind each of them or in front of it. -/
theorem kstar_mul_expression_le :
    (expression * symbol ",")∗ * expression ≤ expression * (symbol "," * expression)∗ := by
  refine kstar_mul_le ?_ ?_
  · calc expression = expression * 1 := (mul_one expression).symm
      _ ≤ expression * (symbol "," * expression)∗ := by
          gcongr
          exact one_le_kstar
  · calc expression * symbol "," * (expression * (symbol "," * expression)∗)
          = expression * (symbol "," * expression * (symbol "," * expression)∗) := by
            simp only [mul_assoc]
      _ ≤ expression * (symbol "," * expression)∗ := by
          gcongr
          exact mul_kstar_le_kstar

/-- The nine shapes of an item that is no nested function. -/
theorem mem_simpleItem {ss : List Spelling} :
    ss ∈ simpleItem ↔ ss ∈ symbol ";" ∨ ss ∈ declaration ∨ ss ∈ assignment ∨ ss ∈ call ∨
      ss ∈ word * symbol ";" ∨ ss ∈ integer * symbol ";" ∨ ss ∈ string * symbol ";" ∨
        ss ∈ straySymbol ∨ ss ∈ unknown := by
  simp only [simpleItem, Language.mem_add, or_assoc]

theorem simpleItem_le_item : simpleItem ≤ item := by
  rw [item_eq]
  exact le_self_add

theorem function_le_item : function ≤ item := by
  rw [item_eq]
  exact le_add_self

theorem declaration_le_item : declaration ≤ item :=
  fun _ h => simpleItem_le_item (mem_simpleItem.mpr (.inr (.inl h)))

theorem function_le_statement : function ≤ statement :=
  le_self_add.trans le_self_add

theorem declaration_le_statement : declaration ≤ statement :=
  le_add_self.trans le_self_add

theorem inclusion_le_statement : inclusion ≤ statement :=
  le_add_self

end Grammar

end Dwo
