import Dwo.Proofs.Script.Rendering
import Dwo.Proofs.Session.Phases
import Dwo.Proofs.Statement.Returned

/-!
# The tokens of compiled statements

A declaration is compiled to a text that has tokens of its own. `Node.target` says which: keywords
and separators change, and integers lose their leading zeros, while names, strings and signs are
kept. The main result, `spellings_of_compile`, says that these are the tokens that are found when
the text is cut again, so no token of a statement runs into another one, and no string leaks.

Every part of a statement that has been read is a token of the source text, so it can be cut off
again (`Spelling.Occurs`); what is written behind each part does not make it longer.

The lemmas follow the shape of a statement. An operand is spelled by its text, unless a word
character follows (`spells_operandText`); signs and separators have blanks or marks around them,
so an expression is spelled by its text in the same sense (`spells_renderExpr`), and a line is
closed by its semicolon or brace (`closes_renderItem`, `closes_render`). Closed lines are put
together freely, which gives the tokens of a whole program.
-/

namespace Dwo

/-! ### Numerals -/

private theorem decimal_concat (ds : List Char) (d : Char) :
    decimal (ds ++ [d]) = 10 * decimal ds + (d.toNat - '0'.toNat) :=
  List.foldl_append

/-- Digits that do not start with a zero are those of their number. -/
theorem toDigits_decimal {ds : List Char} (hdigits : ∀ d ∈ ds, d.isDigit = true)
    (hzero : ∀ d ∈ ds.head?, d ≠ '0') (hne : ds ≠ []) :
    0 < decimal ds ∧ Nat.toDigits 10 (decimal ds) = ds := by
  induction ds using List.reverseRecOn with
  | nil => exact absurd rfl hne
  | append_singleton ds d ih =>
    -- The digits of `10 * n + d` are those of `n` and `d`, but only if `n` is not zero.
    have hd : 48 ≤ d.toNat ∧ d.toNat ≤ 57 := by
      have hdigit := hdigits d (by simp)
      simpa [Char.isDigit, UInt32.le_iff_toNat_le] using hdigit
    have hlt : d.toNat - '0'.toNat < 10 := by
      have hvalue : '0'.toNat = 48 := rfl
      omega
    have hlast : Nat.toDigits 10 (d.toNat - '0'.toNat) = [d] := by
      have hvalue : '0'.toNat = 48 := rfl
      rw [Nat.toDigits_of_lt_base hlt, List.singleton_inj, ← Char.toNat_inj,
        Nat.toNat_digitChar_of_lt_ten hlt]
      omega
    rw [decimal_concat]
    by_cases hds : ds = []
    · subst hds
      have hne_zero : d.toNat ≠ '0'.toNat := fun heq => hzero d rfl (Char.toNat_inj.mp heq)
      have hvalue : '0'.toNat = 48 := rfl
      have hempty : 10 * decimal [] + (d.toNat - '0'.toNat) = d.toNat - '0'.toNat :=
        Nat.zero_add _
      rw [hempty]
      exact ⟨by omega, hlast⟩
    · have hfront : ∀ d ∈ ds.head?, d ≠ '0' := by
        rwa [List.head?_append_of_ne_nil ds hds] at hzero
      obtain ⟨hpos, heq⟩ := ih (fun e he => hdigits e (List.mem_append_left _ he)) hfront hds
      refine ⟨by omega, ?_⟩
      rw [← Nat.toDigits_append_toDigits (by decide) hpos hlt, heq, hlast]

/-- Leading zeros do not count. -/
theorem decimal_dropWhile (ds : List Char) :
    decimal (ds.dropWhile (· == '0')) = decimal ds := by
  induction ds with
  | nil => rfl
  | cons d ds ih =>
    rw [List.dropWhile_cons]
    split
    · next hzero =>
      obtain rfl : d = '0' := beq_iff_eq.mp hzero
      exact ih
    · rfl

/-- An integer is written as its number. -/
theorem trimZeros_eq {digits : String} (h : IsNumeral digits.toList) :
    trimZeros digits = toString (decimal digits.toList) := by
  have hdecimal := decimal_dropWhile digits.toList
  have hhead := List.head?_dropWhile_not (· == '0') digits.toList
  have hsub := List.dropWhile_sublist (l := digits.toList) (· == '0')
  rw [trimZeros]
  generalize digits.toList.dropWhile (· == '0') = ds at hdecimal hhead hsub
  cases ds with
  | nil =>
    rw [← hdecimal]
    rfl
  | cons d ds =>
    have hdigits : ∀ e ∈ d :: ds, e.isDigit = true := fun e he => h.2 e (hsub.subset he)
    have hzero : ∀ e ∈ (d :: ds).head?, e ≠ '0' := by
      intro e he
      obtain rfl := Option.some.inj he
      simpa using hhead
    obtain ⟨-, heq⟩ := toDigits_decimal hdigits hzero (List.cons_ne_nil d ds)
    rw [Nat.toString_eq_repr, Nat.repr_eq_ofList_toDigits, ← hdecimal, heq]

/-! ### Target tokens -/

/-- An operand or a sign keeps its text, but an integer loses its leading zeros. -/
def Token.target (t : Token) : Spelling :=
  match t.kind with
  | .integer => ⟨.integer, toString (decimal t.text.toList)⟩
  | _ => t.spelling

namespace Node

/-- The tokens of an expression. -/
def targetExpr (items : List Node) : List Spelling :=
  items.flatMap fun
    | token t => [t.target]
    | _ => []

/-- The tokens of an argument. -/
def targetArg : Node → List Spelling
  | expr items _ => targetExpr items
  | node => targetExpr [node]

/-- The tokens of a statement of a function, or of a declaration outside. A token that is no operand
leaves nothing. -/
def targetItem : Node → List Spelling
  | token t => if t.isOperand then [t.target, .symbol ";"] else []
  | varDecl name isMutable initializer _ =>
    [.word (if isMutable then "let" else "const"), .word name] ++
      (if initializer.isEmpty then [] else .symbol "=" :: targetExpr initializer) ++ [.symbol ";"]
  | assignment name items _ =>
    [.word name, .symbol "="] ++ targetExpr items ++ [.symbol ";"]
  | fnCall name args _ =>
    [.word name, .symbol "("] ++ [.symbol ","].intercalate (args.map targetArg) ++
      [.symbol ")", .symbol ";"]
  | _ => []

/-- The tokens of a declaration. -/
def target : Node → List Spelling
  | fnDecl name _ body _ =>
    [.word "function", .word name, .symbol "(", .symbol ")", .symbol "\x7b"] ++
      body.flatMap targetItem ++ [.symbol "\x7d"]
  | node => node.targetItem

/-- Whether a statement declares a variable or a function. -/
def isDeclaration : Node → Bool
  | varDecl .. | fnDecl .. => true
  | _ => false

end Node

/-! ### Expressions -/

/-- The text of an operand spells the token intended. -/
private theorem spells_operandText {t : Token} (h : t.spelling.Occurs)
    (hoperand : t.isOperand = true) :
    Spells t.operandText [t.target] := by
  cases hkind : t.kind with
  | integer =>
    have hnumeral : IsNumeral t.text.toList := h.isNumeral hkind
    rw [Token.operandText, Token.target, hkind]
    simp only
    rw [trimZeros_eq hnumeral]
    exact (Spelling.occurs_of_isNumeral (isNumeral_toString _)).spells rfl
  | identifier | string =>
    rw [Token.operandText, Token.target, hkind]
    exact h.spells hoperand
  | endOfFile | unknown | symbol =>
    rw [Token.isOperand, hkind] at hoperand
    cases hoperand

/-- A sign is a symbol. -/
theorem kind_of_isSign {t : Token} (h : t.isSign = true) : t.kind = .symbol := by
  rcases Token.isSign_iff.mp h with h | h <;> exact congrArg Spelling.kind h

private theorem isOperand_of_isSign {t : Token} (h : t.isSign = true) : t.isOperand = false := by
  rw [Token.isOperand, kind_of_isSign h]
  rfl

/-- The spaces around a sign are no part of it. -/
theorem closes_sign {t : Token} (h : t.isSign = true) :
    Closes (" " ++ t.text ++ " ") [t.target] := by
  have htarget : t.target = t.spelling := by
    rw [Token.target, kind_of_isSign h]
  rw [htarget]
  rcases Token.isSign_iff.mp h with hplus | hminus
  · have htext : t.text = "+" := congrArg Spelling.text hplus
    rw [hplus, htext]
    exact closes_marks (by decide) (by decide)
  · have htext : t.text = "-" := congrArg Spelling.text hminus
    rw [hminus, htext]
    exact closes_marks (by decide) (by decide)

/-- An operand alone is rendered as its text. -/
theorem renderExpr_singleton {t : Token} (ht : t.isOperand = true) :
    Node.renderExpr ([t].map .token) = t.operandText := by
  simp [Node.renderExpr, Node.renderPart, ht]

/-- A sign and an operand behind an expression. -/
theorem renderExpr_concat (ts : List Token) {s t : Token} (hs : s.isSign = true)
    (ht : t.isOperand = true) :
    Node.renderExpr ((ts ++ [s, t]).map .token) =
      Node.renderExpr (ts.map .token) ++ (" " ++ s.text ++ " ") ++ t.operandText := by
  simp [Node.renderExpr, Node.renderPart, ht, isOperand_of_isSign hs, String.append_assoc]

/-- **Between two operands stands a sign**, so an expression has the tokens of its parts. -/
theorem spells_renderExpr {ts : List Token} (h : IsChain ts)
    (hoccurs : ∀ t ∈ ts, t.spelling.Occurs) :
    Spells (Node.renderExpr (ts.map .token)) (Node.targetExpr (ts.map .token)) := by
  induction h with
  | @operand t ht =>
    rw [renderExpr_singleton ht]
    exact spells_operandText (hoccurs t (by simp)) ht
  | @sign ts s t _ hs ht ih =>
    have htarget : Node.targetExpr ((ts ++ [s, t]).map .token) =
        Node.targetExpr (ts.map .token) ++ [s.target] ++ [t.target] := by
      simp [Node.targetExpr]
    have hfront := ih fun u hu => hoccurs u (List.mem_append_left _ hu)
    have hclosed := hfront.append_closes (closes_sign hs) (by simp; decide)
    rw [renderExpr_concat ts hs ht, htarget]
    exact hclosed.append_spells (spells_operandText (hoccurs t (by simp)) ht)

private theorem spells_renderArg {arg : Node} (h : arg.IsArgument)
    (hoccurs : ∀ p ∈ arg.argumentPieces, p.spelling.Occurs) :
    Spells arg.renderArg arg.targetArg := by
  cases h with
  | @operand t ht => exact spells_operandText (hoccurs (.exact t) List.mem_cons_self) ht
  | @expr ts l hts =>
    refine spells_renderExpr hts fun t ht => hoccurs (.exact t) ?_
    rw [Node.argumentPieces, Node.itemPieces_token]
    exact List.mem_map_of_mem ht

/-- Arguments are separated by commas, in both languages. -/
theorem spells_renderArgs {args : List Node} (h : ∀ arg ∈ args, arg.IsArgument)
    (hoccurs : ∀ arg ∈ args, ∀ p ∈ arg.argumentPieces, p.spelling.Occurs) :
    Spells (", ".intercalate (args.map Node.renderArg))
      ([Spelling.symbol ","].intercalate (args.map Node.targetArg)) := by
  induction args with
  | nil => exact closes_empty.spells
  | cons arg args ih =>
    have hfirst := spells_renderArg (h arg List.mem_cons_self) (hoccurs arg List.mem_cons_self)
    have hrest := ih (fun a ha => h a (List.mem_cons_of_mem arg ha))
      fun a ha => hoccurs a (List.mem_cons_of_mem arg ha)
    cases args with
    | nil => simpa using hfirst
    | cons next args =>
      have hcomma : Closes ", " [.symbol ","] := closes_marks (by decide) (by decide)
      rw [List.map_cons, List.map_cons, List.map_cons, List.map_cons,
        String.intercalate_cons_cons, List.intercalate_cons_cons]
      exact (hfirst.append_closes hcomma (by decide)).append_spells hrest

/-! ### Statements -/

private theorem closes_semicolon : Closes ";" [.symbol ";"] := closes_marks (by decide) (by decide)

private theorem closes_equals : Closes " = " [.symbol "="] := closes_marks (by decide) (by decide)

/-- A keyword in front of a name. -/
theorem closes_keyword {text : String} (h : (Spelling.word text).Occurs) :
    Closes (text ++ " ") [.word text] := by
  have hspace : Closes " " [] := closes_marks (by decide) (by decide)
  exact (h.spells rfl).append_closes hspace (by decide)

/-- The text of an expression spells the tokens intended. -/
private theorem spells_expression {items : List Node} (h : IsExpression items)
    (hoccurs : ∀ p ∈ Node.itemPieces items, p.spelling.Occurs) :
    Spells (Node.renderExpr items) (Node.targetExpr items) := by
  obtain ⟨ts, hts, rfl⟩ := h
  refine spells_renderExpr hts fun t ht => hoccurs (.exact t) ?_
  rw [Node.itemPieces_token]
  exact List.mem_map_of_mem ht

theorem IsExpression.isEmpty_eq_false {items : List Node} (h : IsExpression items) :
    items.isEmpty = false := by
  obtain ⟨ts, hts, rfl⟩ := h
  have hpos := hts.length_pos
  cases ts with
  | nil => exact absurd hpos (Nat.lt_irrefl 0)
  | cons t ts => rfl

/-- The value of a variable and the semicolon behind it. -/
theorem closes_initializer {isMutable : Bool} {items : List Node}
    (h : IsInitializer isMutable items)
    (hoccurs : ∀ p ∈ Node.itemPieces items, p.spelling.Occurs) :
    Closes ((if items.isEmpty then "" else " = " ++ Node.renderExpr items) ++ ";")
      ((if items.isEmpty then [] else .symbol "=" :: Node.targetExpr items) ++ [.symbol ";"]) := by
  rcases h with ⟨-, rfl⟩ | h
  · exact closes_empty.append closes_semicolon
  · have hvalue := (spells_expression h hoccurs).append_closes closes_semicolon (by decide)
    simp only [h.isEmpty_eq_false, Bool.false_eq_true, if_false]
    rw [String.append_assoc]
    exact closes_equals.append hvalue

private theorem closes_renderVar {name : String} {isMutable : Bool} {items : List Node}
    (h : IsInitializer isMutable items) (hname : (Spelling.word name).Occurs)
    (hoccurs : ∀ p ∈ Node.itemPieces items, p.spelling.Occurs) (l : Location) :
    Closes (Node.renderVar name isMutable items)
      (Node.varDecl name isMutable items l).targetItem := by
  have hlet : (Spelling.word "let").Occurs := ⟨[], 'l', "et".toList, rfl, rfl, by decide, rfl⟩
  have hconst : (Spelling.word "const").Occurs :=
    ⟨[], 'c', "onst".toList, rfl, rfl, by decide, rfl⟩
  have hkeyword : Closes (if isMutable then "let " else "const ")
      [.word (if isMutable then "let" else "const")] := by
    cases isMutable with
    | true => simpa using closes_keyword hlet
    | false => simpa using closes_keyword hconst
  have hrest := (hname.spells rfl).append_closes (closes_initializer h hoccurs)
    (by split <;> simp <;> decide)
  rw [Node.renderVar, String.append_assoc, String.append_assoc]
  exact hkeyword.append hrest

private theorem closes_renderAssign {name : String} {items : List Node} (h : IsExpression items)
    (hname : (Spelling.word name).Occurs)
    (hoccurs : ∀ p ∈ Node.itemPieces items, p.spelling.Occurs) (l : Location) :
    Closes (Node.renderAssign name items) (Node.assignment name items l).targetItem := by
  have hhead := (hname.spells rfl).append_closes closes_equals (by decide)
  have hvalue := (spells_expression h hoccurs).append_closes closes_semicolon (by decide)
  rw [Node.renderAssign, String.append_assoc]
  exact hhead.append hvalue

private theorem closes_renderCall {name : String} {args : List Node}
    (h : ∀ arg ∈ args, arg.IsArgument)
    (hname : (Spelling.word name).Occurs)
    (hoccurs : ∀ arg ∈ args, ∀ p ∈ arg.argumentPieces, p.spelling.Occurs) (l : Location) :
    Closes (Node.renderCall name args) (Node.fnCall name args l).targetItem := by
  have hopen : Closes "(" [.symbol "("] := closes_marks (by decide) (by decide)
  have hclose : Closes ");" [.symbol ")", .symbol ";"] := closes_marks (by decide) (by decide)
  have hhead := (hname.spells rfl).append_closes hopen (by decide)
  have hargs := (spells_renderArgs h hoccurs).append_closes hclose (by decide)
  rw [Node.renderCall, String.append_assoc, Node.targetItem, List.append_assoc]
  exact hhead.append hargs

/-- A line of a function has the tokens of its statement. -/
theorem Closes.bodyLine {text : String} {spellings : List Spelling} (h : Closes text spellings) :
    Closes (bodyLine text) spellings := by
  have hindent : Closes "  " [] := closes_marks (by decide) (by decide)
  have hnewline : Closes "\n" [] := closes_marks (by decide) (by decide)
  have hline := (hindent.append h).append hnewline
  rwa [List.nil_append, List.append_nil] at hline

/-- **The line of a statement has its target tokens.** -/
theorem closes_renderItem {item : Node} (h : item.IsBodyItem)
    (hoccurs : ∀ p ∈ item.pieces, p.spelling.Occurs) : Closes item.renderItem item.targetItem := by
  cases h with
  | token t =>
    rw [Node.renderItem, Node.targetItem]
    split
    · next hoperand =>
      have ht : t.spelling.Occurs := hoccurs (.exact t) (by simp [Node.pieces])
      exact ((spells_operandText ht hoperand).append_closes closes_semicolon (by decide)).bodyLine
    · exact closes_empty
  | @varDecl name isMutable items l hitems =>
    refine (closes_renderVar hitems ?_ ?_ l).bodyLine
    · exact hoccurs (.word name) (by simp [Node.pieces, letPieces])
    · exact fun p hp => hoccurs p (by simp [Node.pieces, hp])
  | @assignment name items l hitems =>
    refine (closes_renderAssign hitems ?_ ?_ l).bodyLine
    · exact hoccurs (.word name) (by simp [Node.pieces])
    · exact fun p hp => hoccurs p (by simp [Node.pieces, hp])
  | @fnCall name args l hargs =>
    refine (closes_renderCall hargs ?_ ?_ l).bodyLine
    · exact hoccurs (.word name) (by simp [Node.pieces])
    · intro arg harg p hp
      have hmem := Piece.mem_separated "," (List.mem_map_of_mem harg) hp
      exact hoccurs p (by simp [Node.pieces, hmem])
  | fnDecl => exact closes_empty

/-- The lines of a function have the tokens of its statements, one after the other. -/
theorem closes_renderItems {items : List Node} (h : ∀ item ∈ items, item.IsBodyItem)
    (hoccurs : ∀ item ∈ items, ∀ p ∈ item.pieces, p.spelling.Occurs) :
    Closes (String.join (items.map Node.renderItem)) (items.flatMap Node.targetItem) := by
  induction items with
  | nil => exact closes_empty
  | cons item items ih =>
    have hfirst := closes_renderItem (h item List.mem_cons_self) (hoccurs item List.mem_cons_self)
    have hrest := ih (fun i hi => h i (List.mem_cons_of_mem item hi))
      fun i hi => hoccurs i (List.mem_cons_of_mem item hi)
    rw [List.map_cons, String.join_cons, List.flatMap_cons]
    exact hfirst.append hrest

/-- **A declaration is written with its target tokens.** -/
theorem closes_render {node : Node} (h : node.IsTopLevel) (hdeclaration : node.isDeclaration = true)
    (hoccurs : ∀ p ∈ node.pieces, p.spelling.Occurs) : Closes node.render node.target := by
  cases h with
  | importDecl => cases hdeclaration
  | @varDecl name isMutable items l hitems =>
    refine closes_renderVar hitems ?_ ?_ l
    · exact hoccurs (.word name) (by simp [Node.pieces, letPieces])
    · exact fun p hp => hoccurs p (by simp [Node.pieces, hp])
  | @fnDecl name body l hbody =>
    have hfunction : (Spelling.word "function").Occurs :=
      ⟨[], 'f', "unction".toList, rfl, rfl, by decide, rfl⟩
    have hname : (Spelling.word name).Occurs :=
      hoccurs (.word name) (by simp [Node.pieces, fnPieces])
    have hopen : Closes "() \x7b\n" [.symbol "(", .symbol ")", .symbol "\x7b"] :=
      closes_marks (by decide) (by decide)
    have hclose : Closes "\x7d" [.symbol "\x7d"] := closes_marks (by decide) (by decide)
    have hitems :
        Closes (String.join (body.map Node.renderItem)) (body.flatMap Node.targetItem) := by
      refine closes_renderItems hbody fun item hitem p hp => hoccurs p ?_
      have hmem : p ∈ Node.bodyPieces body := by
        rw [Node.bodyPieces_eq]
        exact List.mem_flatMap.mpr ⟨item, hitem, hp⟩
      simp [Node.pieces, hmem]
    have hrest := hopen.append (hitems.append hclose)
    have hhead := (hname.spells rfl).append_closes hrest (by simp; decide)
    rw [Node.render, String.append_assoc, String.append_assoc, String.append_assoc, Node.target,
      List.append_assoc]
    exact (closes_keyword hfunction).append hhead

/-! ### Whole programs -/

namespace Script

variable {before nodes nodes' : List Node} {s s' : Script}

/-- Statements are added one after the other. -/
theorem of_feed_append (h : s.feed (nodes ++ nodes') = (s', none)) :
    ∃ s₁, s.feed nodes = (s₁, none) ∧ s₁.feed nodes' = (s', none) := by
  induction nodes generalizing s with
  | nil => exact ⟨s, rfl, h⟩
  | cons node nodes ih =>
    obtain ⟨s₁, hadd, hrest⟩ := feed_cons_eq_none_iff.mp h
    obtain ⟨s₂, hnodes, hnodes'⟩ := ih hrest
    exact ⟨s₂, feed_cons_eq_none_iff.mpr ⟨s₁, hadd, hnodes⟩, hnodes'⟩

/-- **A script that is fed with statements grows by their renderings.** -/
theorem Built.feed (hs : Built before s) (h : s.feed nodes = (s', none)) :
    Built (before ++ nodes) s' ∧ s'.output = s.output ++ renderings before nodes := by
  induction nodes generalizing before s with
  | nil =>
    obtain rfl : s = s' := (Prod.mk.inj h).1
    rw [List.append_nil, renderings, String.append_empty]
    exact ⟨hs, rfl⟩
  | cons node nodes ih =>
    obtain ⟨s₁, hadd, hrest⟩ := feed_cons_eq_none_iff.mp h
    obtain ⟨hbuilt, houtput⟩ := ih (hs.accepted hadd) hrest
    rw [← List.append_cons] at hbuilt
    rw [houtput, hs.output_add hadd, renderings, String.append_assoc]
    exact ⟨hbuilt, rfl⟩

end Script

/-- A source text is compiled by reading it to its end and feeding a script. -/
theorem exists_feed_of_compile {path source text : String}
    (h : compile path source .javaScript = .ok text) :
    ∃ nodes r s, (Reader.ofSource path source).ReadsAll nodes r ∧
      ({} : Script).feed nodes = (s, none) ∧ text = s.finish := by
  rw [compile, Session.run_javaScript] at h
  cases hfeed : ({} : Script).feed (sourceStatements path source).nodes with
  | mk s rejected =>
    simp only [hfeed] at h
    cases rejected with
    | some e => cases h
    | none =>
      cases hstop : (sourceStatements path source).error? with
      | some e =>
        rw [hstop] at h
        cases h
      | none =>
        rw [hstop] at h
        obtain ⟨l, hstatements⟩ := Statements.eq_foldr_of_error?_eq_none hstop
        have hclosing := (statements_eq_closed_iff.mp hstatements).2
        rw [hclosing] at hstatements
        exact ⟨_, _, s, readsAll_ofSource_iff.mpr ⟨hstatements, rfl⟩, hfeed,
          (Except.ok.inj h).symm⟩

/-- The finished text starts with the output of the script. -/
theorem Script.exists_finish_eq (s : Script) : ∃ later, s.finish = s.output ++ later := by
  rw [finish]
  split
  · exact ⟨_, rfl⟩
  · exact ⟨"", String.append_empty.symm⟩

/-- A declaration, rendered on a line of its own, is scanned back into the tokens intended. -/
theorem map_spelling_tokenize_render {node : Node} (path : String) (h : node.IsTopLevel)
    (hdeclaration : node.isDeclaration = true)
    (hoccurs : ∀ p ∈ node.pieces, p.spelling.Occurs) :
    (tokenize path (node.render ++ "\n")).map Token.spelling = node.target := by
  have hnewline : Closes "\n" [] := closes_marks (by decide) (by decide)
  have hspell := (closes_render h hdeclaration hoccurs).append hnewline []
  rw [map_spelling_tokenize]
  · simpa using hspell
  · cases h with
    | importDecl => cases hdeclaration
    | @varDecl name isMutable => cases isMutable <;> simp [Node.render, Node.renderVar]
    | fnDecl => simp [Node.render]

/-- **Compiled declarations keep the tokens of the source.** If a source text is compiled, then
every declaration outside all functions has added a text to the script that is cut again, by the
same rules, into the target tokens of the declaration, neither more nor less. -/
theorem spellings_of_compile {path source text : String}
    (h : compile path source .javaScript = .ok text) :
    ∃ nodes r, (Reader.ofSource path source).ReadsAll nodes r ∧
      ∀ before node after, nodes = before ++ node :: after → node.isDeclaration = true →
        ∃ s s' added later, ({} : Script).feed before = (s, none) ∧ s.add node = (s', none) ∧
          s'.output = s.output ++ added ∧ text = s'.output ++ later ∧
          ∀ path', (tokenize path' added).map Token.spelling = node.target := by
  obtain ⟨nodes, r, last, hreads, hfeed, htext⟩ := exists_feed_of_compile h
  refine ⟨nodes, r, hreads, ?_⟩
  rintro before node after rfl hdeclaration
  have hform : node.IsTopLevel :=
    (Open.wellFormed_initial.run (Reader.readsAll_iff.mp hreads).1).2 node (by simp)
  have hoccurs : ∀ p ∈ node.pieces, p.spelling.Occurs :=
    Open.occurs_of_run (List.Subset.refl _) (Reader.readsAll_iff.mp hreads).1 node (by simp)
  obtain ⟨s, hbefore, hrest⟩ := Script.of_feed_append hfeed
  obtain ⟨hbuilt, -⟩ := Script.Built.start.feed hbefore
  rw [List.nil_append] at hbuilt
  obtain ⟨s', hadd, hafter⟩ := Script.feed_cons_eq_none_iff.mp hrest
  have hadded : s'.output = s.output ++ (node.render ++ "\n") := by
    rw [hbuilt.output_add hadd, Node.contribution, if_neg]
    cases hform with
    | importDecl => cases hdeclaration
    | varDecl | fnDecl => exact Bool.false_ne_true
  obtain ⟨later, hfinish⟩ := last.exists_finish_eq
  have hlast := ((hbuilt.accepted hadd).feed hafter).2
  have htext' : text = s'.output ++ (renderings (before ++ [node]) after ++ later) := by
    rw [htext, hfinish, hlast, String.append_assoc]
  exact ⟨s, s', _, _, hbefore, hadd, hadded, htext',
    fun path' => map_spelling_tokenize_render path' hform hdeclaration hoccurs⟩

/-- The string holds what looks like a comment and an escaped quote, and a sign stands alone. -/
theorem spellings_of_compile_string :
    let source := "let a := 007; fn f() \x7b a = \"// \\\" ;\"; + a; \x7d"
    ∃ text, compile "m" source .javaScript = .ok text ∧
      ∃ nodes r, (Reader.ofSource "m" source).ReadsAll nodes r ∧
        ∀ before node after, nodes = before ++ node :: after → node.isDeclaration = true →
          ∃ s s' added later, ({} : Script).feed before = (s, none) ∧ s.add node = (s', none) ∧
            s'.output = s.output ++ added ∧ text = s'.output ++ later ∧
            ∀ path', (tokenize path' added).map Token.spelling = node.target := by
  intro source
  let declaration : Node :=
    .varDecl "a" true [.token ⟨.integer, "007", 7, ⟨"m", 1, 9⟩⟩] ⟨"m", 1, 4⟩
  let change : Node :=
    .assignment "a" [.token ⟨.string, "\"// \\\" ;\"", 0, ⟨"m", 1, 27⟩⟩] ⟨"m", 1, 23⟩
  let function : Node :=
    .fnDecl "f" [] [change, .token ⟨.symbol, "+", 0, ⟨"m", 1, 38⟩⟩,
      .token ⟨.identifier, "a", 0, ⟨"m", 1, 40⟩⟩] ⟨"m", 1, 17⟩
  have hread : sourceStatements "m" source =
      .next declaration (.next function (.closed ⟨"m", 1, 44⟩)) := by
    rw [sourceStatements_eq]
    cbv
  have hcompile : compile "m" source .javaScript =
      .ok (prologue ++ "let a = 7;\nfunction f() \x7b\n  a = \"// \\\" ;\";\n  a;\n\x7d\n") := by
    rw [compile, Session.run_javaScript_eq, hread]
    rfl
  exact ⟨_, hcompile, spellings_of_compile hcompile⟩

end Dwo
