import Dwo.Proofs.Session.TokenStructure

/-!
# The values of compiled expressions

Under an assignment of numbers to names, an expression of the source has a value: the digits of an
integer are read in decimal, however many they are, and signs are applied from left to right. The
text that it is compiled to has a value as well: it is split at its spaces, and a numeral must not
start with a zero, unless it is `0`, since it would be read in another base. The main result,
`value_exprText`, says that both exist and are the same, for every expression that can be read.

Both are instances of `chainValue?`, which applies signs to operands and does not know how either
of them is written.

* `chainValue?`: the value of a chain, over any representation of operands and signs;
* `Node.value?`: the value of an expression of the source;
* `writtenValue?`: the value of a text, found from the text alone.

The induction is on the chain from its end, as signs are applied from left to right
(`continueValue?_concat`). Both values are partial functions, and the result says that they are
defined, for all expressions without strings.
-/

namespace Dwo

/-! ### Chains of operands and signs -/

section

variable {α : Type} (operand? : α → Option Int) (sign? : α → Option (Int → Int → Int))

/-- What the signs and operands behind a value make of it. -/
def continueValue? (v : Int) : List α → Option Int
  | [] => some v
  | [_] => none
  | s :: x :: rest =>
    (sign? s).bind fun f => (operand? x).bind fun y => continueValue? (f v y) rest

/-- The value of operands with signs between them, from left to right. -/
def chainValue? : List α → Option Int
  | [] => none
  | first :: rest => (operand? first).bind fun v => continueValue? operand? sign? v rest

variable {operand? sign?} {s x : α} {f : Int → Int → Int} {v w y : Int}

private theorem continueValue?_concat {xs : List α}
    (h : continueValue? operand? sign? v xs = some w)
    (hs : sign? s = some f) (hx : operand? x = some y) :
    continueValue? operand? sign? v (xs ++ [s, x]) = some (f w y) := by
  induction v, xs using continueValue?.induct with
  | case1 v =>
    obtain rfl : v = w := Option.some.inj h
    simp [continueValue?, hs, hx]
  | case2 => cases h
  | case3 v s' x' rest ih =>
    obtain ⟨f', hs', h⟩ := Option.bind_eq_some_iff.mp h
    obtain ⟨y', hx', h⟩ := Option.bind_eq_some_iff.mp h
    rw [List.cons_append, List.cons_append, continueValue?, hs', Option.bind_some, hx']
    exact ih f' y' h

/-- The last sign of a chain is applied last. -/
theorem chainValue?_concat {xs : List α} (h : chainValue? operand? sign? xs = some v)
    (hs : sign? s = some f) (hx : operand? x = some y) :
    chainValue? operand? sign? (xs ++ [s, x]) = some (f v y) := by
  cases xs with
  | nil => cases h
  | cons first rest =>
    obtain ⟨w, hfirst, hrest⟩ := Option.bind_eq_some_iff.mp h
    rw [List.cons_append, chainValue?, hfirst]
    exact continueValue?_concat hrest hs hx

end

/-! ### Expressions of the source -/

/-- The value of an operand of an expression. -/
def Node.operandValue? (names : String → Int) : Node → Option Int
  | token t =>
    match t.kind with
    | .integer => some (decimal t.text.toList)
    | .identifier => some (names t.text)
    | _ => none
  | _ => none

/-- The operation that a sign of an expression stands for. -/
def Node.signValue? : Node → Option (Int → Int → Int)
  | token t =>
    if t.isSymbol "+" then some (· + ·) else if t.isSymbol "-" then some (· - ·) else none
  | _ => none

/-- The value of an expression. -/
def Node.value? (names : String → Int) (items : List Node) : Option Int :=
  chainValue? (operandValue? names) signValue? items

/-! ### Expressions of a program -/

/-- The value of an operand of a program: a decimal numeral, or a name. -/
def writtenOperand? (names : String → Int) (part : List Char) : Option Int :=
  match part with
  | [] => none
  | c :: cs =>
    if c.isDigit then
      if cs.all Char.isDigit && (c != '0' || cs.isEmpty) then some (decimal part) else none
    else if isWordStart c && cs.all isWordPart then some (names (String.ofList part)) else none

/-- The operation that a sign of a program stands for. -/
def writtenSign? (part : List Char) : Option (Int → Int → Int) :=
  if part = ['+'] then some (· + ·) else if part = ['-'] then some (· - ·) else none

/-- The value of an expression of a program, in which spaces separate operands and signs. -/
def writtenValue? (names : String → Int) (text : String) : Option Int :=
  chainValue? (writtenOperand? names) writtenSign? (text.toList.splitOn ' ')

/-- Digits that have lost their leading zeros have kept their value. -/
theorem writtenOperand?_trimZeros {digits : String} (h : IsNumeral digits.toList)
    (names : String → Int) :
    writtenOperand? names (trimZeros digits).toList = some (decimal digits.toList : Int) := by
  have hdecimal := decimal_dropWhile digits.toList
  have hhead := List.head?_dropWhile_not (· == '0') digits.toList
  have hsub := List.dropWhile_sublist (l := digits.toList) (· == '0')
  rw [trimZeros, ← hdecimal]
  generalize digits.toList.dropWhile (· == '0') = ds at hdecimal hhead hsub
  cases ds with
  | nil => rfl
  | cons d ds =>
    have hdigits : ∀ e ∈ d :: ds, e.isDigit = true := fun e he => h.2 e (hsub.subset he)
    have hzero : d ≠ '0' := by simpa using hhead
    have hrest : ds.all Char.isDigit = true :=
      List.all_eq_true.mpr fun e he => hdigits e (List.mem_cons_of_mem d he)
    simp [writtenOperand?, hdigits d List.mem_cons_self, hrest, hzero]

private theorem writtenOperand?_word {name : String} (h : IsWord name.toList)
    (names : String → Int) :
    writtenOperand? names name.toList = some (names name) := by
  obtain ⟨⟨c, cs, hname, hdigit⟩, hparts⟩ := h
  rw [hname] at hparts
  have hstart : isWordStart c = true := by
    have hpart := hparts c List.mem_cons_self
    simpa [isWordPart, isWordStart, Char.isAlphanum, hdigit] using hpart
  have hrest : cs.all isWordPart = true :=
    List.all_eq_true.mpr fun d hd => hparts d (List.mem_cons_of_mem c hd)
  have htext : String.ofList (c :: cs) = name := by rw [← hname, String.ofList_toList]
  rw [hname]
  simp [writtenOperand?, hdigit, hstart, hrest, htext]

/-! ### Both values -/

/-- An operand has no space in it and keeps its value. -/
theorem exists_operandValue? {t : Token} (hoccurs : t.spelling.Occurs)
    (hoperand : t.isOperand = true) (hkind : t.kind ≠ .string) (names : String → Int) :
    ' ' ∉ t.operandText.toList ∧ ∃ v, (Node.token t).operandValue? names = some v ∧
      writtenOperand? names t.operandText.toList = some v := by
  have hspace {p : Char → Bool} {text : List Char} (h : ∀ c ∈ text, p c = true)
      (hp : p ' ' = false) : ' ' ∉ text := by
    intro hmem
    rw [h ' ' hmem] at hp
    cases hp
  rcases Token.isOperand_iff.mp hoperand with hidentifier | hinteger | hstring
  · have hword : IsWord t.text.toList := hoccurs.isWord hidentifier
    have htext : t.operandText = t.text := by rw [Token.operandText, hidentifier]
    rw [htext]
    refine ⟨hspace hword.2 (by decide), names t.text, ?_, writtenOperand?_word hword names⟩
    rw [Node.operandValue?, hidentifier]
  · have hnumeral : IsNumeral t.text.toList := hoccurs.isNumeral hinteger
    have htext : t.operandText = trimZeros t.text := by rw [Token.operandText, hinteger]
    have hdigits : IsNumeral (trimZeros t.text).toList := by
      rw [trimZeros_eq hnumeral]
      exact isNumeral_toString _
    rw [htext]
    refine ⟨hspace hdigits.2 (by decide), decimal t.text.toList, ?_,
      writtenOperand?_trimZeros hnumeral names⟩
    rw [Node.operandValue?, hinteger]
  · exact absurd hstring hkind

/-- A sign stands for the same operation in the source and in a program. -/
theorem exists_signValue? {s : Token} (h : s.isSign = true) :
    ' ' ∉ s.text.toList ∧ ∃ f, (Node.token s).signValue? = some f ∧
      writtenSign? s.text.toList = some f := by
  rcases Token.isSign_iff.mp h with hplus | hminus
  · have htext : s.text = "+" := congrArg Spelling.text hplus
    have hsymbol : s.isSymbol "+" = true := Token.isSymbol_iff.mpr hplus
    rw [htext]
    exact ⟨by decide, (· + ·), by simp [Node.signValue?, hsymbol], rfl⟩
  · have htext : s.text = "-" := congrArg Spelling.text hminus
    have hsymbol : s.isSymbol "-" = true := Token.isSymbol_iff.mpr hminus
    have hplus : s.isSymbol "+" = false := by simp [Token.isSymbol, htext]
    rw [htext]
    exact ⟨by decide, (· - ·), by simp [Node.signValue?, hsymbol, hplus], rfl⟩

/-- **A chain is compiled to a text of the same value.** -/
theorem exists_value?_renderExpr {ts : List Token} (h : IsChain ts)
    (hoccurs : ∀ t ∈ ts, t.spelling.Occurs) (hkind : ∀ t ∈ ts, t.kind ≠ .string)
    (names : String → Int) :
    ∃ v, Node.value? names (ts.map .token) = some v ∧
      writtenValue? names (Node.renderExpr (ts.map .token)) = some v := by
  induction h with
  | @operand t ht =>
    obtain ⟨hspace, v, hvalue, hwritten⟩ :=
      exists_operandValue? (hoccurs t (by simp)) ht (hkind t (by simp)) names
    refine ⟨v, ?_, ?_⟩
    · simp [Node.value?, chainValue?, continueValue?, hvalue]
    · rw [renderExpr_singleton ht, writtenValue?, List.splitOn_eq_singleton hspace]
      simp [chainValue?, continueValue?, hwritten]
  | @sign ts s t _ hs ht ih =>
    obtain ⟨v, hvalue, hwritten⟩ := ih (fun u hu => hoccurs u (List.mem_append_left _ hu))
      (fun u hu => hkind u (List.mem_append_left _ hu))
    obtain ⟨hspace, f, hsign, hsign'⟩ := exists_signValue? hs
    obtain ⟨hspace', y, hoperand, hoperand'⟩ :=
      exists_operandValue? (hoccurs t (by simp)) ht (hkind t (by simp)) names
    refine ⟨f v y, ?_, ?_⟩
    · rw [Node.value?, List.map_append]
      exact chainValue?_concat hvalue hsign hoperand
    · have htext : (Node.renderExpr (ts.map .token) ++ (" " ++ s.text ++ " ") ++
          t.operandText).toList = (Node.renderExpr (ts.map .token)).toList ++
            ' ' :: (s.text.toList ++ ' ' :: t.operandText.toList) := by simp
      rw [renderExpr_concat ts hs ht, writtenValue?, htext, List.splitOn_append_cons_self,
        List.splitOn_append_cons_self, List.splitOn_eq_singleton hspace,
        List.splitOn_eq_singleton hspace']
      exact chainValue?_concat hwritten hsign' hoperand'

/-! ### Expressions that are read -/

/-- The tokens of an expression in progress are tokens of the text. -/
theorem Open.mem_tokenize_of_value {path source : String} {ts : List Token} {ns : List Node}
    {s : Open} {purpose : Purpose} {chain : Chain} (hts : ts ⊆ tokenize path source)
    (hrun : Run {} ts ns s) (hphase : s.phase = .value purpose chain) :
    chain.tokens ⊆ tokenize path source := by
  intro t ht
  have hmem : Piece.exact t ∈ ns.flatMap Node.pieces ++ s.pieces := by
    simp [Open.pieces, hphase, Phase.pieces, ht]
  obtain ⟨u, hu, rfl⟩ := exists_agrees_of_run hts hrun hmem
  exact hu

/-- **Compiling an expression keeps its value.** Wherever an operand has just been read, the
expression that ends with it, if there is no string in it, is compiled to a text that has the same
value as the expression, whatever numbers the names stand for. -/
theorem value_exprText {path source : String} {ts : List Token} {ns : List Node} {s : Open}
    {purpose : Purpose} {chain : Chain} (hts : ts <+: tokenize path source)
    (hrun : Open.Run {} ts ns s) (hphase : s.phase = .value purpose chain)
    (hkind : ∀ t ∈ chain.tokens, t.kind ≠ .string) (names : String → Int) :
    ∃ text v, exprText chain.items = .ok text ∧ Node.value? names chain.items = some v ∧
      writtenValue? names text = some v := by
  have hform : IsChain chain.tokens := by
    have hstate := (Open.wellFormed_initial.run hrun).1.phase
    rw [hphase] at hstate
    exact hstate.2
  have hmem := Open.mem_tokenize_of_value hts.subset hrun hphase
  obtain ⟨text, htext⟩ := exists_exprText (Chain.isExpression_items hform)
  obtain ⟨v, hvalue, hwritten⟩ := exists_value?_renderExpr hform
    (fun t ht => occurs_of_mem_tokenize (hmem ht)) hkind names
  obtain rfl : text = Node.renderExpr chain.items := yields_exprText _ _ htext
  exact ⟨_, v, htext, hvalue, hwritten⟩

/-- Leading zeros, and a number that is too large for the value of its token. -/
theorem value_exprText_digits :
    let front : List Token := [⟨.identifier, "let", 0, ⟨"m", 1, 0⟩⟩,
      ⟨.identifier, "a", 0, ⟨"m", 1, 4⟩⟩, ⟨.symbol, ":", 0, ⟨"m", 1, 6⟩⟩,
      ⟨.symbol, "=", 0, ⟨"m", 1, 7⟩⟩]
    let chain : Chain := ⟨⟨.integer, "007", 7, ⟨"m", 1, 9⟩⟩,
      [⟨.integer, "99999999999999999999", 9223372036854775807, ⟨"m", 1, 19⟩⟩,
        ⟨.symbol, "-", 0, ⟨"m", 1, 17⟩⟩, ⟨.identifier, "b", 0, ⟨"m", 1, 15⟩⟩,
        ⟨.symbol, "+", 0, ⟨"m", 1, 13⟩⟩]⟩
    ∃ s purpose, front ++ chain.tokens <+: tokenize "m" "let a := 007 + b - 99999999999999999999;" ∧
      Open.Run {} (front ++ chain.tokens) [] s ∧ s.phase = .value purpose chain ∧
      (∀ t ∈ chain.tokens, t.kind ≠ .string) ∧
      ∀ names, ∃ text v, exprText chain.items = .ok text ∧ Node.value? names chain.items = some v ∧
        writtenValue? names text = some v := by
  intro front chain
  have htokens : tokenize "m" "let a := 007 + b - 99999999999999999999;" =
      (front ++ chain.tokens) ++ [⟨.symbol, ";", 0, ⟨"m", 1, 39⟩⟩] := by
    rw [tokenize_eq]
    cbv
  have hprefix : front ++ chain.tokens <+:
      tokenize "m" "let a := 007 + b - 99999999999999999999;" := ⟨_, htokens.symm⟩
  have hrun : Open.Run {} (front ++ chain.tokens) []
      ⟨[], .value (.initializer ⟨"m", 1, 0⟩ ⟨.identifier, "a", 0, ⟨"m", 1, 4⟩⟩ true) chain⟩ := by
    have hnext {s s' last : Open} {t : Token} {ts : List Token}
        (hstep : s.step t = .ok (.reading s')) (hrest : Open.Run s' ts [] last) :
        Open.Run s (t :: ts) [] last := .cons (.of_step_eq hstep) hrest
    iterate 9 refine hnext rfl ?_
    exact .nil _
  have hkind : ∀ t ∈ chain.tokens, t.kind ≠ .string := by decide
  exact ⟨_, _, hprefix, hrun, rfl, hkind, value_exprText hprefix hrun rfl hkind⟩

end Dwo
