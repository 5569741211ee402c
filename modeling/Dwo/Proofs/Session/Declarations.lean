import Dwo.Proofs.Script.Names
import Dwo.Proofs.Session.TokenStructure
import Dwo.Proofs.Token.Lines

/-!
# The declarations of compiled programs

In JavaScript the variables and functions that a program declares outside all brackets share one
namespace. `topLevelDeclarations` finds them in the text of a program: it goes over its tokens,
counts the brackets that are open, and outside of them takes every name behind `let`, `const` or
`function`.

In a compiled program it finds the declarations of the source in their order, and nothing in the
text of `coreIo` or in the epilogue. The main result, `declarations_of_compile`, says so, and that
variables among themselves and functions among themselves have different names. A variable and a
function are not compared with each other, so they may have the same one
(`declarations_repeat_across_kinds`).

The survey knows nothing about how programs are compiled; it is a scan with two registers, the
depth of brackets and the last keyword. `Adds` states what it finds in a run of tokens that
starts and ends outside of all brackets, and `Inside` that it finds nothing in a run that stays
inside of some. Both compose along runs of tokens, and `Declares` carries them over to texts by
way of `Closes`. The text of `coreIo` is a constant, and what is found in it is computed.
-/

namespace Dwo

/-! ### Surveys -/

/-- A declaration in a program: the word that introduces it, and the name that it introduces. -/
structure Declaration where
  keyword : String
  name : String
deriving DecidableEq, Repr

/-- Whether a declaration is one of a function. -/
def Declaration.isFunction (d : Declaration) : Bool :=
  d.keyword = "function"

namespace Spelling

/-- Whether a token opens a pair of brackets. -/
def opens (s : Spelling) : Bool :=
  s ∈ [symbol "(", symbol "[", symbol "\x7b"]

/-- Whether a token closes a pair of brackets. -/
def closes (s : Spelling) : Bool :=
  s ∈ [symbol ")", symbol "]", symbol "\x7d"]

/-- Whether a token is a word that introduces a declaration. -/
def introduces (s : Spelling) : Bool :=
  s ∈ [word "let", word "const", word "function"]

end Spelling

/-- What is known about a program in front of a token: how many brackets are open, and which word
has just introduced a declaration outside of them. -/
@[ext]
structure Survey where
  depth : Nat := 0
  keyword : Option String := none
deriving DecidableEq, Repr

namespace Survey

/-- The declaration that a token completes. -/
def found? (v : Survey) (s : Spelling) : Option Declaration :=
  if s.kind = .identifier then v.keyword.map fun keyword => ⟨keyword, s.text⟩ else none

/-- What is known behind a token. A word that is itself the name of a declaration introduces
none. -/
def next (v : Survey) (s : Spelling) : Survey where
  depth := if s.opens then v.depth + 1 else if s.closes then v.depth - 1 else v.depth
  keyword := if v.depth = 0 ∧ v.found? s = none ∧ s.introduces then some s.text else none

/-- What is known behind several tokens, and the declarations found among them. -/
def walk (v : Survey) : List Spelling → Survey × List Declaration
  | [] => (v, [])
  | s :: ss => (((v.next s).walk ss).1, (v.found? s).toList ++ ((v.next s).walk ss).2)

/-- A survey of two runs of tokens goes on where the first of them ends. -/
private theorem walk_append (v : Survey) (xs ys : List Spelling) :
    v.walk (xs ++ ys) =
      (((v.walk xs).1.walk ys).1, (v.walk xs).2 ++ ((v.walk xs).1.walk ys).2) := by
  induction xs generalizing v with
  | nil => rfl
  | cons x xs ih => rw [List.cons_append, walk, ih, walk, List.append_assoc]

end Survey

/-- The declarations of a program outside all brackets, in order. -/
def topLevelDeclarations (text : String) : List Declaration :=
  (Survey.walk {} ((tokenize "" text).map Token.spelling)).2

/-! ### Tokens and brackets -/

/-- Only words introduce declarations and complete them. -/
theorem Survey.next_of_kind {s : Spelling} (h : s.kind ≠ .identifier) (v : Survey) :
    (v.next s).keyword = none ∧ v.found? s = none := by
  have hne (text : String) : s ≠ .word text := fun heq => h (heq ▸ rfl)
  have hintroduces : s.introduces = false := by simp [Spelling.introduces, hne]
  constructor
  · simp [next, hintroduces]
  · rw [found?, if_neg h]

/-- Whether a token is no bracket. -/
def Spelling.isPlain (s : Spelling) : Bool :=
  !s.opens && !s.closes

private theorem Spelling.isPlain_of_kind {s : Spelling} (h : s.kind ≠ .symbol) :
    s.isPlain = true := by
  have hne (text : String) : s ≠ symbol text := fun heq => h (heq ▸ rfl)
  simp [isPlain, opens, closes, hne]

private theorem Survey.depth_next_of_isPlain {s : Spelling} (h : s.isPlain = true) (v : Survey) :
    (v.next s).depth = v.depth := by
  simp only [Spelling.isPlain, Bool.and_eq_true, Bool.not_eq_true'] at h
  simp [next, h.1, h.2]

/-- Tokens in which every bracket is closed; inside of brackets, nothing is found in them. -/
def Inside (ts : List Spelling) : Prop :=
  ∀ depth, Survey.walk ⟨depth + 1, none⟩ ts = (⟨depth + 1, none⟩, [])

section

variable {xs ys : List Spelling} {left right : Spelling}

private theorem inside_nil : Inside [] :=
  fun _ => rfl

/-- Two runs of tokens that close their brackets do so together. -/
theorem Inside.append (hx : Inside xs) (hy : Inside ys) : Inside (xs ++ ys) := by
  intro depth
  rw [Survey.walk_append, hx depth, hy depth, List.append_nil]

private theorem inside_singleton {s : Spelling} (h : s.isPlain = true) : Inside [s] := by
  intro depth
  have hnext : Survey.next ⟨depth + 1, none⟩ s = ⟨depth + 1, none⟩ := by
    refine Survey.ext (Survey.depth_next_of_isPlain h ⟨depth + 1, none⟩) ?_
    simp [Survey.next]
  rw [Survey.walk, Survey.walk, hnext, List.append_nil, Survey.found?]
  simp

private theorem inside_of_isPlain (h : ∀ s ∈ xs, s.isPlain = true) : Inside xs := by
  induction xs with
  | nil => exact inside_nil
  | cons x xs ih =>
    have htail : Inside xs := ih fun s hs => h s (List.mem_cons_of_mem x hs)
    exact (inside_singleton (h x List.mem_cons_self)).append htail

/-- A pair of brackets hides what is inside of it. -/
theorem Inside.walk_brackets (h : Inside xs) (hleft : left.opens = true)
    (hright : right.closes = true) (depth : Nat) :
    Survey.walk ⟨depth, none⟩ ([left] ++ xs ++ [right]) = (⟨depth, none⟩, []) := by
  have hkinds : left.kind ≠ .identifier ∧ right.kind ≠ .identifier ∧ right.opens = false := by
    simp only [Spelling.opens, Spelling.closes, List.mem_cons, List.not_mem_nil, or_false,
      decide_eq_true_eq] at hleft hright ⊢
    rcases hleft with rfl | rfl | rfl <;> rcases hright with rfl | rfl | rfl <;> decide
  obtain ⟨hkeyword, hfound⟩ := Survey.next_of_kind hkinds.1 ⟨depth, none⟩
  obtain ⟨hkeyword', hfound'⟩ := Survey.next_of_kind hkinds.2.1 ⟨depth + 1, none⟩
  have hopen : Survey.next ⟨depth, none⟩ left = ⟨depth + 1, none⟩ :=
    Survey.ext (by simp [Survey.next, hleft]) hkeyword
  have hclose : Survey.next ⟨depth + 1, none⟩ right = ⟨depth, none⟩ :=
    Survey.ext (by simp [Survey.next, hkinds.2.2, hright]) hkeyword'
  rw [Survey.walk_append, Survey.walk_append]
  simp [Survey.walk, hopen, hfound, h depth, hclose, hfound']

end

/-! ### Statements -/

/-- Tokens that add these declarations to a program, outside all brackets. -/
def Adds (ts : List Spelling) (ds : List Declaration) : Prop :=
  Survey.walk {} ts = ({}, ds)

section

variable {xs ys : List Spelling} {ds es : List Declaration}

/-- The declarations of two runs of tokens add up. -/
theorem Adds.append (hx : Adds xs ds) (hy : Adds ys es) : Adds (xs ++ ys) (ds ++ es) := by
  rw [Adds, Survey.walk_append, hx, hy]

/-- A word in front of a name introduces it. -/
theorem adds_introduced {keyword : String} (h : (Spelling.word keyword).introduces = true)
    (name : String) : Adds [.word keyword, .word name] [⟨keyword, name⟩] := by
  have hplain (text : String) : (Spelling.word text).isPlain = true :=
    Spelling.isPlain_of_kind (by simp [Spelling.word])
  have hfirst : Survey.next {} (.word keyword) = ⟨0, some keyword⟩ := by
    refine Survey.ext (Survey.depth_next_of_isPlain (hplain keyword) {}) ?_
    simp [Survey.next, Survey.found?, h]
    rfl
  have hsecond : Survey.next ⟨0, some keyword⟩ (.word name) = {} := by
    refine Survey.ext (Survey.depth_next_of_isPlain (hplain name) ⟨0, some keyword⟩) ?_
    simp [Survey.next, Survey.found?, Spelling.word]
  rw [Adds, Survey.walk, Survey.walk, Survey.walk, hfirst, hsecond]
  simp [Survey.found?, Spelling.word]

end

private theorem Token.kind_target (t : Token) : t.target.kind = t.kind := by
  rw [target]
  cases hkind : t.kind <;> simp [spelling, hkind]

private theorem isPlain_target_of_isOperand {t : Token} (h : t.isOperand = true) :
    t.target.isPlain = true := by
  refine Spelling.isPlain_of_kind ?_
  rw [t.kind_target]
  rintro hkind
  rw [Token.isOperand, hkind] at h
  cases h

private theorem isPlain_target_of_isSign {t : Token} (h : t.isSign = true) :
    t.target.isPlain = true := by
  have htarget : t.target = t.spelling := by
    rw [Token.target, kind_of_isSign h]
  rw [htarget]
  rcases Token.isSign_iff.mp h with h | h <;> rw [h] <;> decide

/-- Behind a symbol that is no bracket, a new declaration can start. -/
theorem walk_symbol {s : Spelling} (hplain : s.isPlain = true) (hkind : s.kind ≠ .identifier)
    (keyword : Option String) : Survey.walk ⟨0, keyword⟩ [s] = ({}, []) := by
  obtain ⟨hkeyword, hfound⟩ := Survey.next_of_kind hkind ⟨0, keyword⟩
  have hnext : Survey.next ⟨0, keyword⟩ s = {} :=
    Survey.ext (Survey.depth_next_of_isPlain hplain _) hkeyword
  simp [Survey.walk, hnext, hfound]

private theorem walk_operand {t : Token} (h : t.isOperand = true) :
    ∃ keyword, Survey.walk {} [t.target] = (⟨0, keyword⟩, []) := by
  refine ⟨(Survey.next {} t.target).keyword, Prod.ext (Survey.ext ?_ rfl) ?_⟩
  · exact Survey.depth_next_of_isPlain (isPlain_target_of_isOperand h) _
  · simp [Survey.walk, Survey.found?]

/-- An expression declares nothing, whatever its operands are called: a word in it is followed by a
sign or by the end of the statement, never by a name. -/
theorem walk_targetExpr {ts : List Token} (h : IsChain ts) :
    ∃ keyword, Survey.walk {} (Node.targetExpr (ts.map .token)) = (⟨0, keyword⟩, []) := by
  induction h with
  | @operand t ht => exact walk_operand ht
  | @sign ts s t _ hs ht ih =>
    obtain ⟨keyword, hfront⟩ := ih
    obtain ⟨keyword', hlast⟩ := walk_operand ht
    have htarget : Node.targetExpr ((ts ++ [s, t]).map .token) =
        Node.targetExpr (ts.map .token) ++ ([s.target] ++ [t.target]) := by
      simp [Node.targetExpr]
    have hkind : s.target.kind ≠ .identifier := by
      rw [s.kind_target, kind_of_isSign hs]
      decide
    refine ⟨keyword', ?_⟩
    rw [htarget, Survey.walk_append, hfront, Survey.walk_append,
      walk_symbol (isPlain_target_of_isSign hs) hkind, hlast]
    rfl

private theorem isPlain_of_mem_targetExpr {items : List Node} (h : IsExpression items) :
    ∀ s ∈ Node.targetExpr items, s.isPlain = true := by
  obtain ⟨ts, hts, rfl⟩ := h
  intro s hs
  simp only [Node.targetExpr, List.mem_flatMap, List.mem_map] at hs
  obtain ⟨_, ⟨t, ht, rfl⟩, hs⟩ := hs
  rw [List.mem_singleton.mp hs]
  rcases hts.isOperand_or_isSign t ht with hoperand | hsign
  · exact isPlain_target_of_isOperand hoperand
  · exact isPlain_target_of_isSign hsign

/-- **A declaration of a variable adds its name.** -/
theorem adds_varDecl {name : String} {isMutable : Bool} {items : List Node}
    (h : IsInitializer isMutable items) (l : Location) :
    Adds (Node.varDecl name isMutable items l).targetItem
      [⟨if isMutable then "let" else "const", name⟩] := by
  have hhead : Adds [.word (if isMutable then "let" else "const"), .word name]
      [⟨if isMutable then "let" else "const", name⟩] :=
    adds_introduced (by cases isMutable <;> decide) name
  have hend (keyword : Option String) : Survey.walk ⟨0, keyword⟩ [.symbol ";"] = ({}, []) :=
    walk_symbol (by decide) (by decide) keyword
  have hrest : Adds ((if items.isEmpty then [] else Spelling.symbol "=" :: Node.targetExpr items) ++
      [Spelling.symbol ";"]) [] := by
    rcases h with ⟨-, rfl⟩ | h
    · exact hend none
    · obtain ⟨ts, hts, rfl⟩ := id h
      obtain ⟨keyword, hwalk⟩ := walk_targetExpr hts
      have hequals : Adds [.symbol "="] [] := walk_symbol (by decide) (by decide) none
      have hvalue : Adds (Node.targetExpr (ts.map .token) ++ [Spelling.symbol ";"]) [] := by
        rw [Adds, Survey.walk_append, hwalk, hend]
        rfl
      simp only [h.isEmpty_eq_false, Bool.false_eq_true, if_false]
      exact hequals.append hvalue
  rw [Node.targetItem, List.append_assoc]
  exact hhead.append hrest

/-! ### Functions -/

private theorem inside_targetArg {arg : Node} (h : arg.IsArgument) : Inside arg.targetArg := by
  cases h with
  | operand ht => exact inside_singleton (isPlain_target_of_isOperand ht)
  | expr hts => exact inside_of_isPlain (isPlain_of_mem_targetExpr ⟨_, hts, rfl⟩)

private theorem inside_targetArgs {args : List Node} (h : ∀ arg ∈ args, arg.IsArgument) :
    Inside ([Spelling.symbol ","].intercalate (args.map Node.targetArg)) := by
  induction args with
  | nil => exact inside_nil
  | cons arg args ih =>
    have hfirst := inside_targetArg (h arg List.mem_cons_self)
    have hrest := ih fun a ha => h a (List.mem_cons_of_mem arg ha)
    cases args with
    | nil => simpa using hfirst
    | cons next args =>
      have hcomma : Inside [.symbol ","] := inside_singleton (by decide)
      rw [List.map_cons, List.map_cons, List.intercalate_cons_cons]
      exact (hfirst.append hcomma).append hrest

/-- **A statement of a function declares nothing outside of it.** -/
theorem inside_targetItem {item : Node} (h : item.IsBodyItem) : Inside item.targetItem := by
  have hword (text : String) : Inside [.word text] :=
    inside_singleton (Spelling.isPlain_of_kind (by simp [Spelling.word]))
  have hsemicolon : Inside [.symbol ";"] := inside_singleton (by decide)
  have hequals : Inside [.symbol "="] := inside_singleton (by decide)
  have hvalue {items : List Node} (hitems : IsExpression items) : Inside (Node.targetExpr items) :=
    inside_of_isPlain (isPlain_of_mem_targetExpr hitems)
  cases h with
  | token t =>
    rw [Node.targetItem]
    split
    · next hoperand =>
      exact (inside_singleton (isPlain_target_of_isOperand hoperand)).append hsemicolon
    · exact inside_nil
  | @varDecl name isMutable items l hitems =>
    have hhead := (hword (if isMutable then "let" else "const")).append (hword name)
    rw [Node.targetItem]
    refine (hhead.append ?_).append hsemicolon
    rcases hitems with ⟨-, rfl⟩ | hitems
    · exact inside_nil
    · simp only [hitems.isEmpty_eq_false, Bool.false_eq_true, if_false]
      exact hequals.append (hvalue hitems)
  | @assignment name items l hitems =>
    exact (((hword name).append hequals).append (hvalue hitems)).append hsemicolon
  | @fnCall name args l hargs =>
    have hbrackets : Inside ([Spelling.symbol "("] ++
        [Spelling.symbol ","].intercalate (args.map Node.targetArg) ++ [Spelling.symbol ")"]) :=
      fun depth => (inside_targetArgs hargs).walk_brackets (by decide) (by decide) (depth + 1)
    have hcall := ((hword name).append hbrackets).append hsemicolon
    simpa [Node.targetItem] using hcall
  | fnDecl => exact inside_nil

/-- Whatever stands in a body, all of its brackets are closed there. -/
private theorem inside_targetItems {items : List Node} (h : ∀ item ∈ items, item.IsBodyItem) :
    Inside (items.flatMap Node.targetItem) := by
  induction items with
  | nil => exact inside_nil
  | cons item items ih =>
    rw [List.flatMap_cons]
    exact (inside_targetItem (h item List.mem_cons_self)).append
      (ih fun i hi => h i (List.mem_cons_of_mem item hi))

/-- **A declaration of a function adds its name.** -/
theorem adds_fnDecl {name : String} {body : List Node} (h : ∀ item ∈ body, item.IsBodyItem)
    (l : Location) :
    Adds (Node.fnDecl name [] body l).target [⟨"function", name⟩] := by
  have hhead : Adds [.word "function", .word name] [⟨"function", name⟩] :=
    adds_introduced (by decide) name
  have hparams : Adds ([Spelling.symbol "("] ++ [] ++ [Spelling.symbol ")"]) [] :=
    inside_nil.walk_brackets (by decide) (by decide) 0
  have hbody : Adds ([Spelling.symbol "\x7b"] ++ body.flatMap Node.targetItem ++
      [Spelling.symbol "\x7d"]) [] :=
    (inside_targetItems h).walk_brackets (by decide) (by decide) 0
  simpa [Node.target] using (hhead.append hparams).append hbody

/-! ### Texts -/

/-- The declarations that a text adds to a program, whatever is put behind it. -/
def Declares (text : String) (ds : List Declaration) : Prop :=
  ∃ ts, Closes text ts ∧ Adds ts ds

private theorem declares_empty : Declares "" [] :=
  ⟨[], closes_empty, rfl⟩

/-- The declarations of two texts add up. -/
theorem Declares.append {a b : String} {ds es : List Declaration} (ha : Declares a ds)
    (hb : Declares b es) : Declares (a ++ b) (ds ++ es) := by
  obtain ⟨xs, hxs, hds⟩ := ha
  obtain ⟨ys, hys, hes⟩ := hb
  exact ⟨xs ++ ys, hxs.append hys, hds.append hes⟩

/-- A newline ends every token. The text is given by its characters, since they are what can be
evaluated. -/
theorem closes_of_getLast? {text : String} {cs : List Char} (htext : text = String.ofList cs)
    (hend : cs.getLast? = some '\n') : Closes text (spell cs) := by
  obtain ⟨front, rfl⟩ := List.getLast?_eq_some_iff.mp hend
  have hspell (rest : List Char) : spell (front ++ '\n' :: rest) = spell front ++ spell rest := by
    rw [spell, lexemes_append_newline, List.map_append, spell_eq, spell_eq]
  intro rest
  rw [htext, String.toList_ofList, List.append_assoc, List.singleton_append, hspell, hspell,
    spell_nil, List.append_nil]

private theorem closes_lines {lines : List String} {css : List (List Char)}
    (h : List.Forall₂ (fun line cs => line = String.ofList cs) lines css) :
    Closes (String.join (lines.map (· ++ "\n"))) (css.flatMap fun cs => spell (cs ++ ['\n'])) := by
  induction h with
  | nil => exact closes_empty
  | @cons line cs lines css hline _ ih =>
    have htext : line ++ "\n" = String.ofList (cs ++ ['\n']) := by
      rw [hline, String.ofList_append]
    rw [List.map_cons, String.join_cons, List.flatMap_cons]
    exact (closes_of_getLast? htext (by simp)).append ih

/-- The text of a library, ended by a newline, is that of its lines. -/
theorem text_append_newline (l : Library) (h : l.runtime ≠ []) :
    l.text ++ "\n" = String.join (l.runtime.map (· ++ "\n")) := by
  rw [Library.text]
  generalize l.runtime = lines at h
  induction lines with
  | nil => exact absurd rfl h
  | cons line lines ih =>
    cases lines with
    | nil => simp
    | cons next lines =>
      rw [String.intercalate_cons_cons, String.append_assoc, ih (List.cons_ne_nil next lines),
        ← String.join_cons]
      rfl

set_option maxRecDepth 20000 in
/-- **Nothing is declared by the text of `coreIo`**: all of it stands in one pair of brackets. -/
theorem declares_coreIo : Declares (coreIo.text ++ "\n") [] := by
  rw [text_append_newline coreIo (by decide)]
  refine ⟨_, closes_lines (by repeat' constructor), ?_⟩
  cbv

/-- The prologue declares nothing. -/
private theorem declares_prologue : Declares prologue [] := by
  refine ⟨_, closes_of_getLast? rfl rfl, ?_⟩
  cbv

private theorem declares_epilogue (flushes : Bool) : Declares (Script.epilogue flushes) [] := by
  have hcharacters {a b : String} {xs ys : List Char} (ha : a = String.ofList xs)
      (hb : b = String.ofList ys) : a ++ b = String.ofList (xs ++ ys) := by
    rw [ha, hb, String.ofList_append]
  cases flushes with
  | true | false =>
    refine ⟨_, closes_of_getLast?
      (hcharacters (hcharacters (hcharacters rfl rfl) rfl) rfl) rfl, ?_⟩
    cbv

/-! ### Programs -/

/-- The declaration that a statement is compiled to. -/
def Node.declaration? : Node → Option Declaration
  | varDecl name isMutable _ _ => some ⟨if isMutable then "let" else "const", name⟩
  | fnDecl name _ _ _ => some ⟨"function", name⟩
  | _ => none

/-- **A statement adds its own declaration, and an import none.** -/
theorem declares_contribution {node : Node} (h : node.IsTopLevel)
    (hoccurs : ∀ p ∈ node.pieces, p.spelling.Occurs) (before : List Node) :
    Declares (node.contribution before) node.declaration?.toList := by
  have hnewline : Closes "\n" [] := closes_marks (by decide) (by decide)
  rw [Node.contribution]
  cases h with
  | importDecl =>
    split
    · exact declares_empty
    · exact declares_coreIo
  | @varDecl name isMutable items l hitems =>
    exact ⟨_, (closes_render (.varDecl hitems) rfl hoccurs).append hnewline,
      (adds_varDecl hitems l).append rfl⟩
  | @fnDecl name body l hbody =>
    exact ⟨_, (closes_render (.fnDecl hbody) rfl hoccurs).append hnewline,
      (adds_fnDecl hbody l).append rfl⟩

/-- The renderings of the nodes declare what the nodes do. -/
private theorem declares_renderings {nodes : List Node} (h : ∀ node ∈ nodes, node.IsTopLevel)
    (hoccurs : ∀ node ∈ nodes, ∀ p ∈ node.pieces, p.spelling.Occurs) (before : List Node) :
    Declares (renderings before nodes) (nodes.filterMap Node.declaration?) := by
  induction nodes generalizing before with
  | nil => exact declares_empty
  | cons node nodes ih =>
    have hfirst : Declares (node.contribution before) node.declaration?.toList :=
      declares_contribution (h node List.mem_cons_self) (hoccurs node List.mem_cons_self) before
    have hrest := ih (fun n hn => h n (List.mem_cons_of_mem node hn))
      (fun n hn => hoccurs n (List.mem_cons_of_mem node hn)) (before ++ [node])
    have hdeclarations : (node :: nodes).filterMap Node.declaration? =
        node.declaration?.toList ++ nodes.filterMap Node.declaration? := by
      rw [List.filterMap_cons]
      cases node.declaration? <;> rfl
    rw [renderings, hdeclarations]
    exact hfirst.append hrest

private theorem declares_ending (nodes : List Node) : Declares (ending nodes) [] := by
  rw [ending]
  split
  · exact declares_epilogue _
  · exact declares_empty

/-- A text that starts a program is read from its first character on. -/
theorem topLevelDeclarations_prologue {text : String} {ds : List Declaration}
    (h : Declares text ds) : topLevelDeclarations (prologue ++ text) = ds := by
  obtain ⟨ts, hts, hds⟩ := declares_prologue.append h
  have htokens : (tokenize "" (prologue ++ text)).map Token.spelling = ts := by
    rw [map_spelling_tokenize "" (by simp [prologue])]
    simpa using hts []
  rw [topLevelDeclarations, htokens, hds]
  rfl

/-- The names of each kind of declarations are those that the statements declare. -/
theorem map_name_declarations (nodes : List Node) :
    ((nodes.filterMap Node.declaration?).filter (·.isFunction)).map (·.name) =
        nodes.filterMap Node.functionName? ∧
      ((nodes.filterMap Node.declaration?).filter (!·.isFunction)).map (·.name) =
        nodes.filterMap Node.variableName? := by
  rw [List.filter_filterMap, List.map_filterMap, List.filter_filterMap, List.map_filterMap]
  constructor <;>
  · congr 1
    funext node
    cases node with
    | varDecl name isMutable => cases isMutable <;> rfl
    | _ => rfl

/-- The names of declarations differ if those of each kind do and none is in both kinds. -/
theorem nodup_names_iff (ds : List Declaration) :
    (ds.map (·.name)).Nodup ↔
      ((ds.filter (·.isFunction)).map (·.name)).Nodup ∧
        ((ds.filter (!·.isFunction)).map (·.name)).Nodup ∧
          ∀ f ∈ ds, ∀ v ∈ ds, f.isFunction = true → v.isFunction = false → f.name ≠ v.name := by
  have hperm := (List.filter_append_perm Declaration.isFunction ds).map Declaration.name
  rw [← hperm.nodup_iff, List.map_append, List.nodup_append']
  refine and_congr_right fun _ => and_congr_right fun _ => ?_
  simp only [List.Disjoint, List.mem_map, List.mem_filter, Bool.not_eq_true']
  constructor
  · intro h f hf v hv hfunction hvariable hname
    exact h ⟨f, ⟨hf, hfunction⟩, hname⟩ ⟨v, ⟨hv, hvariable⟩, rfl⟩
  · rintro h _ ⟨f, ⟨hf, hfunction⟩, rfl⟩ ⟨v, ⟨hv, hvariable⟩, hname⟩
    exact h f hf v hv hfunction hvariable hname.symm

/-- **A compiled program has the declarations of its source, once for each kind.** If a source text
is compiled, then the declarations of the program outside all brackets are those of its statements,
in their order. Functions have different names, and so have variables, so a name is declared twice
exactly if a function and a variable have it. -/
theorem declarations_of_compile {path source text : String}
    (h : compile path source .javaScript = .ok text) :
    (∃ nodes r, (Reader.ofSource path source).ReadsAll nodes r ∧
      topLevelDeclarations text = nodes.filterMap Node.declaration?) ∧
    (((topLevelDeclarations text).filter (·.isFunction)).map (·.name)).Nodup ∧
    (((topLevelDeclarations text).filter (!·.isFunction)).map (·.name)).Nodup ∧
    (((topLevelDeclarations text).map (·.name)).Nodup ↔
      ∀ f ∈ topLevelDeclarations text, ∀ v ∈ topLevelDeclarations text,
        f.isFunction = true → v.isFunction = false → f.name ≠ v.name) := by
  obtain ⟨nodes, r, s, hreads, hfeed, rfl⟩ := exists_feed_of_compile h
  have hform : ∀ node ∈ nodes, node.IsTopLevel :=
    (Open.wellFormed_initial.run (Reader.readsAll_iff.mp hreads).1).2
  have hoccurs : ∀ node ∈ nodes, ∀ p ∈ node.pieces, p.spelling.Occurs :=
    Open.occurs_of_run (List.Subset.refl _) (Reader.readsAll_iff.mp hreads).1
  obtain ⟨hbuilt, houtput⟩ := Script.Built.start.feed hfeed
  rw [List.nil_append] at hbuilt
  have htext : s.finish = prologue ++ (renderings [] nodes ++ ending nodes) := by
    rw [hbuilt.finish_eq, houtput, String.append_assoc]
  have hdeclarations : topLevelDeclarations s.finish = nodes.filterMap Node.declaration? := by
    rw [htext, topLevelDeclarations_prologue
      ((declares_renderings hform hoccurs []).append (declares_ending nodes)), List.append_nil]
  obtain ⟨hfunctions, hvariables⟩ := map_name_declarations nodes
  have hdistinct := hbuilt.nodup_functionNames
  have hdistinct' := hbuilt.nodup_variableNames
  rw [hdeclarations, nodup_names_iff (nodes.filterMap _), hfunctions, hvariables]
  exact ⟨⟨nodes, r, hreads, rfl⟩, hdistinct, hdistinct', by simp [hdistinct, hdistinct']⟩

/-- A variable of a function is no declaration of the program. -/
theorem declarations_of_compile_shadowed :
    let source := "let x :: 1; fn f() \x7b let x := 2; \x7d"
    ∃ text, compile "m" source .javaScript = .ok text ∧
      (∃ nodes r, (Reader.ofSource "m" source).ReadsAll nodes r ∧
        topLevelDeclarations text = nodes.filterMap Node.declaration?) ∧
      (((topLevelDeclarations text).filter (·.isFunction)).map (·.name)).Nodup ∧
      (((topLevelDeclarations text).filter (!·.isFunction)).map (·.name)).Nodup ∧
      (((topLevelDeclarations text).map (·.name)).Nodup ↔
        ∀ f ∈ topLevelDeclarations text, ∀ v ∈ topLevelDeclarations text,
          f.isFunction = true → v.isFunction = false → f.name ≠ v.name) := by
  intro source
  let outer : Node := .varDecl "x" false [.token ⟨.integer, "1", 1, ⟨"m", 1, 9⟩⟩] ⟨"m", 1, 4⟩
  let inner : Node := .varDecl "x" true [.token ⟨.integer, "2", 2, ⟨"m", 1, 30⟩⟩] ⟨"m", 1, 25⟩
  have hread : sourceStatements "m" source =
      .next outer (.next (.fnDecl "f" [] [inner] ⟨"m", 1, 15⟩) (.closed ⟨"m", 1, 34⟩)) := by
    rw [sourceStatements_eq]
    cbv
  have hcompile : compile "m" source .javaScript =
      .ok (prologue ++ "const x = 1;\nfunction f() \x7b\n  let x = 2;\n\x7d\n") := by
    rw [compile, Session.run_javaScript_eq, hread]
    rfl
  exact ⟨_, hcompile, declarations_of_compile hcompile⟩

/-- **A variable and a function can have one name**, so a program can declare it twice. -/
theorem declarations_repeat_across_kinds :
    ∃ text, compile "m" "let x := 1; fn x() \x7b\x7d" .javaScript = .ok text ∧
      topLevelDeclarations text = [⟨"let", "x"⟩, ⟨"function", "x"⟩] ∧
      ¬ ((topLevelDeclarations text).map (·.name)).Nodup := by
  let x : Node := .varDecl "x" true [.token ⟨.integer, "1", 1, ⟨"m", 1, 9⟩⟩] ⟨"m", 1, 4⟩
  have hread : sourceStatements "m" "let x := 1; fn x() \x7b\x7d" =
      .next x (.next (.fnDecl "x" [] [] ⟨"m", 1, 15⟩) (.closed ⟨"m", 1, 21⟩)) := by
    rw [sourceStatements_eq]
    cbv
  have hcompile : compile "m" "let x := 1; fn x() \x7b\x7d" .javaScript =
      .ok (prologue ++ "let x = 1;\nfunction x() \x7b\n\x7d\n") := by
    rw [compile, Session.run_javaScript_eq, hread]
    rfl
  have hlines : Declares "let x = 1;\nfunction x() \x7b\n\x7d\n"
      [⟨"let", "x"⟩, ⟨"function", "x"⟩] := by
    refine ⟨_, closes_of_getLast? rfl rfl, ?_⟩
    cbv
  have hdeclarations := topLevelDeclarations_prologue hlines
  refine ⟨_, hcompile, hdeclarations, ?_⟩
  rw [hdeclarations]
  decide

end Dwo
