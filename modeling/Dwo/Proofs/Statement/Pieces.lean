import Dwo.Proofs.Statement.Acceptance
import Dwo.Proofs.Statement.WellFormed

/-!
# Reading keeps every token

A statement that has been read can be written back token by token: `Node.pieces` says how. A piece
that stands for a token node is that token, with its value and place; all other pieces, such as
keywords and separators, are known by their spelling.

Reading keeps what it has read: the pieces of a state agree with the tokens that led to it, and a
step adds its token at the end (`Open.agree_step`). The only tokens that leave no trace are the
semicolons of empty statements. `OmitsEmpty` says which these are in terms of the grammar: those
that stand where a statement of a body can start.

* `Piece`: a token node, or a token that is known by its spelling;
* `Agree`: pieces stand for these tokens, one for each;
* `Keeps`: what a run keeps, which is built along the run and forgets only empty statements.

The invariant is that the pieces of the finished statements, of the functions that are open and
of the construct in progress agree with the tokens kept so far. There is one lemma for a token
that continues a construct (`agree_enter`) and one for a token that ends it (`agree_close`), and
the step lemma goes through the transitions with these two. The main result, `pieces_eq_tokens`,
is about the statements of a whole text: written back in their order, they are the tokens of the
text without those semicolons.
-/

namespace Dwo

/-! ### Pieces -/

/-- A token of a statement that is written back: the token itself, or only its spelling. -/
inductive Piece where
  | exact (token : Token)
  | spelled (spelling : Spelling)
deriving DecidableEq, Repr

namespace Piece

def word (text : String) : Piece := spelled (.word text)

def symbol (text : String) : Piece := spelled (.symbol text)

def spelling : Piece → Spelling
  | exact t => t.spelling
  | spelled s => s

/-- Whether a token can be what a piece stands for. -/
def Agrees : Piece → Token → Prop
  | exact t, u => t = u
  | spelled s, u => s = u.spelling

/-- A piece agrees only with tokens of its own spelling. -/
theorem Agrees.spelling_eq {p : Piece} {t : Token} (h : p.Agrees t) : p.spelling = t.spelling := by
  cases p with
  | exact u => exact congrArg Token.spelling h
  | spelled s => exact h

private theorem agrees_symbol {t : Token} {text : String} (h : t.spelling = .symbol text) :
    (symbol text).Agrees t :=
  h.symm

private theorem agrees_word {t : Token} (h : t.kind = .identifier) : (word t.text).Agrees t := by
  simp [word, Agrees, Spelling.word, Token.spelling, h]

/-- Parts with a symbol between any two of them. -/
def separated (text : String) (parts : List (List Piece)) : List Piece :=
  [symbol text].intercalate parts

/-- Separators stand behind all parts but the last. -/
private theorem separated_concat (text : String) (parts : List (List Piece)) (last : List Piece) :
    separated text (parts ++ [last]) = parts.flatMap (· ++ [symbol text]) ++ last := by
  induction parts with
  | nil => exact List.intercalate_singleton
  | cons part parts ih =>
    have hne : parts ++ [last] ≠ [] := by simp
    rw [separated, List.cons_append, List.intercalate_cons_of_ne_nil hne, ← separated, ih]
    simp

/-- The words of a path and the colons between them. -/
def ofPath (path : String) : List Piece :=
  separated ":" ((path.toList.splitOn ':').map fun w => [word (String.ofList w)])

private theorem ofPath_word {text : String} (h : ':' ∉ text.toList) :
    ofPath text = [word text] := by
  rw [ofPath, List.splitOn_eq_singleton h, List.map_singleton, separated,
    List.intercalate_singleton, String.ofList_toList]

/-- A colon and a word behind a path are two more pieces. -/
theorem ofPath_append {front text : String} (h : ':' ∉ text.toList) :
    ofPath (front ++ ":" ++ text) = ofPath front ++ [symbol ":", word text] := by
  obtain ⟨parts, last, hfront⟩ :
      ∃ parts last, front.toList.splitOn ':' = parts ++ [last] :=
    ⟨_, _, (List.dropLast_concat_getLast (List.splitOn_ne_nil ':' front.toList)).symm⟩
  have hsplit : (front ++ ":" ++ text).toList.splitOn ':' = parts ++ [last] ++ [text.toList] := by
    have hlist : (front ++ ":" ++ text).toList = front.toList ++ ':' :: text.toList := by simp
    rw [hlist, List.splitOn_append_cons_self, hfront, List.splitOn_eq_singleton h]
  rw [ofPath, hsplit, List.map_append, List.map_singleton, separated_concat, ofPath, hfront,
    List.map_append, List.map_singleton, separated_concat, List.flatMap_append]
  simp

/-- A colon behind a path starts an empty word. -/
theorem dropLast_ofPath (front : String) :
    (ofPath (front ++ ":")).dropLast = ofPath front ++ [symbol ":"] := by
  have hpath : ofPath (front ++ ":" ++ "") = ofPath front ++ [symbol ":", word ""] :=
    ofPath_append (by simp)
  rw [String.append_empty] at hpath
  rw [hpath, List.dropLast_append_of_ne_nil (List.cons_ne_nil _ _)]
  rfl

end Piece

open Piece (word symbol separated)

/-! ### Writing statements back -/

/-- The pieces in front of the value of a declaration. -/
def letPieces (name : String) (isMutable : Bool) : List Piece :=
  [word "let", word name, symbol ":", symbol (if isMutable then "=" else ":")]

/-- The pieces in front of the body of a function. -/
def fnPieces (name : String) : List Piece :=
  [word "fn", word name, symbol "(", symbol ")", symbol "\x7b"]

namespace Node

/-- The parts of an expression. -/
def itemPieces (items : List Node) : List Piece :=
  items.flatMap fun
    | token t => [.exact t]
    | _ => []

/-- An argument of a call; the parts of an expression are spliced in. -/
def argumentPieces : Node → List Piece
  | expr items _ => itemPieces items
  | node => itemPieces [node]

mutual

/-- A statement. A token that is an operand has a semicolon of its own. -/
def pieces : Node → List Piece
  | token t => .exact t :: if t.isOperand then [symbol ";"] else []
  | importDecl name _ _ _ => word "use" :: Piece.ofPath name ++ [symbol ";"]
  | varDecl name isMutable initializer _ =>
    letPieces name isMutable ++ itemPieces initializer ++ [symbol ";"]
  | assignment name items _ => [word name, symbol "="] ++ itemPieces items ++ [symbol ";"]
  | fnCall name args _ =>
    [word name, symbol "("] ++ separated "," (args.map argumentPieces) ++
      [symbol ")", symbol ";"]
  | fnDecl name _ body _ => fnPieces name ++ bodyPieces body ++ [symbol "\x7d"]
  | expr items _ => itemPieces items
  | endOfFile _ | unaryOp _ | binaryOp _ | fnParams _ => []

/-- The statements of a function. -/
def bodyPieces : List Node → List Piece
  | [] => []
  | item :: items => pieces item ++ bodyPieces items

end

/-- The recursion over a body is a concatenation over its items. -/
theorem bodyPieces_eq (body : List Node) : bodyPieces body = body.flatMap pieces := by
  induction body with
  | nil => rw [bodyPieces, List.flatMap_nil]
  | cons item items ih => rw [bodyPieces, List.flatMap_cons, ih]

/-- The spellings of a statement that is written back. -/
def spellings (node : Node) : List Spelling :=
  node.pieces.map Piece.spelling

@[simp]
theorem itemPieces_token (ts : List Token) :
    itemPieces (ts.map token) = ts.map Piece.exact := by
  induction ts with
  | nil => rfl
  | cons t ts ih => exact congrArg (Piece.exact t :: ·) ih

end Node

@[simp]
theorem Chain.argumentPieces_argument (c : Chain) :
    c.argument.argumentPieces = c.tokens.map Piece.exact := by
  obtain ⟨first, rest⟩ := c
  cases rest with
  | nil => rfl
  | cons t rest => exact Node.itemPieces_token _

/-! ### What a state has kept -/

/-- The pieces in front of an expression. -/
def Purpose.pieces : Purpose → List Piece
  | initializer _ name isMutable => letPieces name.text isMutable
  | rvalue name => [word name.text, symbol "="]
  | argument name previous =>
    [word name.text, symbol "("] ++
      (previous.reverse.map Node.argumentPieces).flatMap (· ++ [symbol ","])

/-- The pieces of the construct in progress. -/
def Phase.pieces : Phase → List Piece
  | idle => []
  | fnKeyword _ => [Piece.word "fn"]
  | fnName _ name => [Piece.word "fn", Piece.word name.text]
  | fnParams _ name => [Piece.word "fn", Piece.word name.text, symbol "("]
  | fnHead _ name => [Piece.word "fn", Piece.word name.text, symbol "(", symbol ")"]
  | letKeyword _ => [Piece.word "let"]
  | letName _ name => [Piece.word "let", Piece.word name.text]
  | letColon _ name => [Piece.word "let", Piece.word name.text, symbol ":"]
  | letMarker _ name isMutable => letPieces name.text isMutable
  | importPath _ text .name => Piece.word "use" :: Piece.ofPath text
  -- A path that is not complete ends with an empty word.
  | importPath _ text .nothing | importPath _ text (.colon _) =>
    Piece.word "use" :: (Piece.ofPath text).dropLast
  | word name => [.exact name]
  | literal t => [.exact t]
  | callOpen name => [Piece.word name.text, symbol "("]
  | operand purpose => purpose.pieces
  | sign purpose chain | value purpose chain => purpose.pieces ++ chain.tokens.map .exact
  | callClosed name args =>
    [Piece.word name.text, symbol "("] ++
      separated "," (args.reverse.map Node.argumentPieces) ++ [symbol ")"]

namespace Open

/-- The pieces of the functions that are still open. -/
def framePieces : List OpenFn → List Piece
  | [] => []
  | f :: outer => framePieces outer ++ (fnPieces f.name.text ++ f.body.reverse.flatMap Node.pieces)

/-- The pieces of the current statement. -/
def pieces (s : Open) : List Piece :=
  framePieces s.functions ++ s.phase.pieces

end Open

/-- The pieces behind a token: those of the statement it completed and of the current one. -/
def Progress.pieces (p : Progress) : List Piece :=
  p.finished.flatMap Node.pieces ++ p.state.pieces

private theorem Progress.pieces_close (fs : List OpenFn) (node : Node) :
    (Progress.close fs node).pieces = Open.framePieces fs ++ node.pieces := by
  cases fs with
  | nil => simp [Progress.close, Progress.pieces, finished, state, Open.pieces, Open.framePieces,
      Phase.pieces]
  | cons f outer => simp [Progress.close, Progress.pieces, finished, state, Open.pieces,
      Open.framePieces, Phase.pieces]

/-! ### Agreement with the tokens read -/

/-- Pieces stand for these tokens, one for each. -/
def Agree (ps : List Piece) (ts : List Token) : Prop :=
  List.Forall₂ Piece.Agrees ps ts

namespace Agree

/-- Agreement is kept when two runs of tokens are put together. -/
theorem append {ps qs : List Piece} {ts us : List Token} (h : Agree ps ts) (h' : Agree qs us) :
    Agree (ps ++ qs) (ts ++ us) :=
  List.rel_append h h'

/-- Tokens that agree with two rows of pieces are cut where the first row ends. -/
theorem of_append {ps qs : List Piece} {ts : List Token} (h : Agree (ps ++ qs) ts) :
    ∃ us vs, ts = us ++ vs ∧ Agree ps us ∧ Agree qs vs := by
  have htake := List.forall₂_take ps.length h
  have hdrop := List.forall₂_drop ps.length h
  rw [List.take_left] at htake
  rw [List.drop_left] at hdrop
  exact ⟨_, _, (List.take_append_drop ps.length ts).symm, htake, hdrop⟩

theorem concat {ps : List Piece} {q : Piece} {ts : List Token} {t : Token} (h : Agree ps ts)
    (hq : q.Agrees t) : Agree (ps ++ [q]) (ts ++ [t]) :=
  h.append (.cons hq .nil)

private theorem map_spelling {ps : List Piece} {ts : List Token} (h : Agree ps ts) :
    ps.map Piece.spelling = ts.map Token.spelling := by
  induction h with
  | nil => rfl
  | cons hp _ ih => rw [List.map_cons, List.map_cons, hp.spelling_eq, ih]

/-- Each piece stands for a token that was read. -/
theorem exists_agrees {ps : List Piece} {ts : List Token} {p : Piece} (h : Agree ps ts)
    (hp : p ∈ ps) : ∃ t ∈ ts, p.Agrees t := by
  induction h with
  | nil => cases hp
  | @cons q t qs us hq _ ih =>
    rcases List.mem_cons.mp hp with rfl | hp
    · exact ⟨t, List.mem_cons_self, hq⟩
    · obtain ⟨u, hu, hagrees⟩ := ih hp
      exact ⟨u, List.mem_cons_of_mem t hu, hagrees⟩

/-- A name that is kept as a token can be kept by its text. -/
theorem word_of_exact {ps : List Piece} {t : Token} {ts : List Token}
    (h : Agree (ps ++ [.exact t]) ts) (ht : t.kind = .identifier) :
    Agree (ps ++ [Piece.word t.text]) ts := by
  obtain ⟨us, vs, rfl, hus, hvs⟩ := h.of_append
  obtain ⟨u, _, rfl, hnil, rfl⟩ := List.forall₂_cons_left_iff.mp hvs
  obtain rfl := List.forall₂_nil_left_iff.mp hnil
  exact hus.concat (Piece.agrees_word ht)

end Agree

namespace Open

/-- A semicolon where a statement of a body can start. -/
structure IsEmptyStatement (s : Open) (t : Token) : Prop where
  idle : s.phase = .idle
  functions_ne : s.functions ≠ []
  semicolon : t.spelling = .symbol ";"

section

variable {fs : List OpenFn} {ps : List Piece} {q : Piece} {t : Token} {ts : List Token}

/-- A token that continues a construct adds one piece to it. -/
private theorem agree_enter {ψ : Phase} (h : Agree (framePieces fs ++ ps) ts)
    (hψ : ψ.pieces = ps ++ [q]) (hq : q.Agrees t) :
    Agree (Progress.reading ⟨fs, ψ⟩).pieces (ts ++ [t]) := by
  have hpieces : (Progress.reading ⟨fs, ψ⟩).pieces = framePieces fs ++ ps ++ [q] := by
    rw [List.append_assoc, ← hψ]
    rfl
  rw [hpieces]
  exact h.concat hq

/-- The last token of a construct completes the pieces of its node. -/
private theorem agree_close {node : Node} (h : Agree (framePieces fs ++ ps) ts)
    (hnode : node.pieces = ps ++ [q]) (hq : q.Agrees t) :
    Agree (Progress.close fs node).pieces (ts ++ [t]) := by
  rw [Progress.pieces_close, hnode, ← List.append_assoc]
  exact h.concat hq

end

/-- **A step keeps its token**, unless it is the semicolon of an empty statement. -/
theorem agree_step {s : Open} {t : Token} {p : Progress} {ts : List Token} (hs : s.WellFormed)
    (ht : t.spelling.Lexical) (hstep : Step s t p) (hne : ¬ s.IsEmptyStatement t)
    (h : Agree s.pieces ts) : Agree p.pieces (ts ++ [t]) := by
  cases hstep with
  | emptyStatement hsemicolon => exact absurd ⟨rfl, List.cons_ne_nil _ _, hsemicolon⟩ hne
  | fnKeyword h' | letKeyword h' | useKeyword h' | fnParams h' | fnHead h' | letColon h'
  | letMutable h' | letImmutable h' | callEmpty h' => exact agree_enter h rfl h'.symm
  | fnName h' | letName h' => exact agree_enter h rfl (Piece.agrees_word h')
  | word | literal => exact agree_enter (q := .exact t) h rfl rfl
  | letOperand | callOperand | operand => exact agree_enter (q := .exact t) h (by rfl) rfl
  | signOperand | valueSign =>
    refine agree_enter (q := .exact t) h ?_ rfl
    simp [Phase.pieces]
  -- Up to here the name could still have been a statement of its own, which keeps its token.
  | wordAssign h' | wordCall h' => exact agree_enter (h.word_of_exact hs.phase) rfl h'.symm
  | pathColon h' =>
    refine agree_enter h ?_ (Piece.agrees_symbol h')
    rw [Phase.pieces, Phase.pieces, Piece.dropLast_ofPath, List.cons_append]
  | @pathName fs k text last _ hlast hkind =>
    have hcolon : ':' ∉ t.text.toList := ht.colon_notMem hkind
    refine agree_enter (q := Piece.word t.text) h ?_ (Piece.agrees_word hkind)
    cases last with
    | name => exact absurd rfl hlast
    | nothing =>
      obtain rfl : text = "" := hs.phase
      have hempty : Piece.ofPath "" = [Piece.word ""] := Piece.ofPath_word (by simp)
      rw [Phase.pieces, Phase.pieces, hempty, String.empty_append, Piece.ofPath_word hcolon]
      rfl
    | colon l =>
      obtain ⟨front, rfl⟩ := hs.phase
      rw [Phase.pieces, Phase.pieces, Piece.ofPath_append hcolon, Piece.dropLast_ofPath]
      simp
  | argumentComma h' =>
    refine agree_enter h ?_ (Piece.agrees_symbol h')
    simp [Phase.pieces, Purpose.pieces]
  | argumentEnd h' =>
    refine agree_enter h ?_ (Piece.agrees_symbol h')
    simp [Phase.pieces, Purpose.pieces, Piece.separated_concat]
  | @fnBody fs k name _ h' =>
    have hpieces : (Progress.reading ⟨⟨k, name, []⟩ :: fs, .idle⟩).pieces =
        framePieces fs ++ (Phase.fnHead k name).pieces ++ [symbol "\x7b"] := by
      simp [Progress.pieces, Progress.finished, Progress.state, pieces, framePieces, Phase.pieces,
        fnPieces]
    rw [hpieces]
    exact h.concat (Piece.agrees_symbol h')
  | @bodyEnd f outer _ h' =>
    have hframe : pieces ⟨f :: outer, .idle⟩ =
        framePieces outer ++ (fnPieces f.name.text ++ f.body.reverse.flatMap Node.pieces) :=
      List.append_nil _
    rw [hframe] at h
    exact agree_close h (by rw [Node.pieces, Node.bodyPieces_eq]) (Piece.agrees_symbol h')
  | straySymbol hkind =>
    refine agree_close (q := .exact t) h ?_ rfl
    simp [Node.pieces, Phase.pieces, Token.isOperand, Kind.isOperand, hkind]
  | stray hkind =>
    refine agree_close (q := .exact t) h ?_ rfl
    rcases hkind with hkind | hkind <;>
      simp [Node.pieces, Phase.pieces, Token.isOperand, Kind.isOperand, hkind]
  | letEnd h' => exact agree_close h (by rw [Node.pieces]; rfl) (Piece.agrees_symbol h')
  | initializerEnd h' | rvalueEnd h' =>
    refine agree_close h ?_ (Piece.agrees_symbol h')
    rw [Node.pieces, Chain.items, Node.itemPieces_token]
    rfl
  | pathEnd h' => exact agree_close h (by rw [Node.pieces]; rfl) (Piece.agrees_symbol h')
  | wordEnd h' =>
    have hoperand := Token.isOperand_iff.mpr (.inl hs.phase)
    exact agree_close h (by rw [Node.pieces, if_pos hoperand]; rfl) (Piece.agrees_symbol h')
  | literalEnd h' =>
    have hoperand := Token.isOperand_iff.mpr (.inr hs.phase)
    exact agree_close h (by rw [Node.pieces, if_pos hoperand]; rfl) (Piece.agrees_symbol h')
  | callEnd h' =>
    refine agree_close h ?_ (Piece.agrees_symbol h')
    simp [Node.pieces, Phase.pieces]

end Open

/-! ### Whole texts -/

/-- The tokens `ts` without the semicolons of empty statements, which are those in front of which
a statement of a body can start. -/
inductive OmitsEmpty : List Token → List Token → Prop where
  | nil : OmitsEmpty [] []
  | drop {ts kept : List Token} {t : Token} :
      OmitsEmpty ts kept → ts.map Token.spelling ∈ Grammar.openBody →
        t.spelling = .symbol ";" → OmitsEmpty (ts ++ [t]) kept
  | keep {ts kept : List Token} {t : Token} :
      OmitsEmpty ts kept →
        ¬ (ts.map Token.spelling ∈ Grammar.openBody ∧ t.spelling = .symbol ";") →
          OmitsEmpty (ts ++ [t]) (kept ++ [t])

namespace Open

/-- Reading `ts` from the start has kept the tokens `kept` in the statements `ns` and in `s`. -/
structure Keeps (ts : List Token) (ns : List Node) (s : Open) (kept : List Token) : Prop where
  omitsEmpty : OmitsEmpty ts kept
  agree : Agree (ns.flatMap Node.pieces ++ s.pieces) kept

private theorem Keeps.agree_nodes {ts kept : List Token} {ns : List Node}
    (h : Keeps ts ns {} kept) :
    Agree (ns.flatMap Node.pieces) kept := by
  have hagree := h.agree
  have hnil : ({} : Open).pieces = [] := rfl
  rwa [hnil, List.append_nil] at hagree

/-- The semicolon of an empty statement changes nothing. -/
private theorem eq_of_isEmptyStatement {s : Open} {t : Token} {p : Progress}
    (h : s.IsEmptyStatement t)
    (hstep : Step s t p) : p = .reading s := by
  obtain ⟨fs, φ⟩ := s
  obtain ⟨rfl, hfs, hsemicolon⟩ := h
  cases fs with
  | nil => exact absurd rfl hfs
  | cons f outer => exact hstep.unique (.emptyStatement hsemicolon)

section

variable {ts kept : List Token} {t : Token} {ns : List Node} {s : Open} {p : Progress}

/-- The semicolon of an empty statement leaves everything as it was. -/
theorem Keeps.drop (h : Keeps ts ns s kept) (hts : ∀ u ∈ ts, u.spelling.Lexical)
    (hrun : Run {} ts ns s) (hempty : s.IsEmptyStatement t) : Keeps (ts ++ [t]) ns s kept := by
  have hopen := (mem_openBody_iff hts hrun).mpr ⟨hempty.idle, hempty.functions_ne⟩
  exact ⟨.drop h.omitsEmpty hopen hempty.semicolon, h.agree⟩

/-- Every other token is kept. -/
theorem Keeps.keep (h : Keeps ts ns s kept) (hts : ∀ u ∈ ts ++ [t], u.spelling.Lexical)
    (hrun : Run {} ts ns s) (hstep : Step s t p) (hne : ¬ s.IsEmptyStatement t) :
    Keeps (ts ++ [t]) (ns ++ p.finished) p.state (kept ++ [t]) := by
  have hts' : ∀ u ∈ ts, u.spelling.Lexical := fun u hu => hts u (List.mem_append_left [t] hu)
  refine ⟨.keep h.omitsEmpty ?_, ?_⟩
  · rintro ⟨hopen, hsemicolon⟩
    obtain ⟨hidle, hfs⟩ := (mem_openBody_iff hts' hrun).mp hopen
    exact hne ⟨hidle, hfs, hsemicolon⟩
  · obtain ⟨front, back, rfl, hfront, hback⟩ := h.agree.of_append
    have hstate := agree_step (wellFormed_initial.run hrun).1 (hts t (by simp)) hstep hne hback
    have hall := hfront.append hstate
    rw [Progress.pieces, ← List.append_assoc, ← List.flatMap_append, ← List.append_assoc] at hall
    exact hall

end

/-- **Reading keeps every token**, except the semicolons of empty statements. -/
theorem exists_keeps_of_run {ts : List Token} {ns : List Node} {s : Open}
    (hts : ∀ u ∈ ts, u.spelling.Lexical) (hrun : Run {} ts ns s) :
    ∃ kept, Keeps ts ns s kept := by
  -- Whether a token is dropped depends on all tokens in front of it, hence the induction from
  -- the back.
  induction ts using List.reverseRecOn generalizing ns s with
  | nil =>
    cases hrun
    exact ⟨[], .nil, .nil⟩
  | append_singleton ts t ih =>
    have hts' : ∀ u ∈ ts, u.spelling.Lexical := fun u hu => hts u (List.mem_append_left [t] hu)
    obtain ⟨ns₁, s₁, p, hfront, hstep, rfl, rfl⟩ := hrun.of_concat
    obtain ⟨kept, hkept⟩ := ih hts' hfront
    by_cases hempty : s₁.IsEmptyStatement t
    · obtain rfl := eq_of_isEmptyStatement hempty hstep
      rw [Progress.finished, List.append_nil]
      exact ⟨kept, hkept.drop hts' hfront hempty⟩
    · exact ⟨kept ++ [t], hkept.keep hts hfront hstep hempty⟩

/-- The last token of a statement is kept. -/
theorem exists_keeps_concat {ts : List Token} {t : Token} {ns : List Node}
    (hts : ∀ u ∈ ts ++ [t], u.spelling.Lexical) (hrun : Run {} (ts ++ [t]) ns {}) :
    ∃ kept, Keeps (ts ++ [t]) ns {} (kept ++ [t]) := by
  have hts' : ∀ u ∈ ts, u.spelling.Lexical := fun u hu => hts u (List.mem_append_left [t] hu)
  obtain ⟨ns₁, s₁, p, hfront, hstep, rfl, hstate⟩ := hrun.of_concat
  obtain ⟨kept, hkept⟩ := exists_keeps_of_run hts' hfront
  have hne : ¬ s₁.IsEmptyStatement t := by
    intro hempty
    -- Behind an empty statement its function is still open.
    obtain rfl := eq_of_isEmptyStatement hempty hstep
    exact hempty.functions_ne (congrArg functions hstate).symm
  rw [hstate]
  exact ⟨kept, hkept.keep hts hfront hstep hne⟩

end Open

/-- **Reading loses, repeats and moves no token.** If the end of a source text is reached, the
statements written back are its tokens, in order, without the semicolons of empty statements. And
every call that returns a statement takes exactly the tokens of that statement: they are what the
statement is written back as, the last of them is where the position is left, and a scanner finds
from there what has not been read. Pieces that are token nodes are the very tokens of the text. -/
theorem pieces_eq_tokens (path source : String) :
    (∀ nodes r, (Reader.ofSource path source).ReadsAll nodes r →
      ∃ kept, OmitsEmpty (tokenize path source) kept ∧
        nodes.flatMap Node.spellings = kept.map Token.spelling ∧
        List.Forall₂ Piece.Agrees (nodes.flatMap Node.pieces) kept) ∧
    ∀ earlier r₁ node r₂, (Reader.ofSource path source).Reads earlier r₁ →
      r₁.next = .ok (node, r₂) → node.isEndOfFile = false →
        ∃ block last kept, r₁.pending = block ++ last :: r₂.pending ∧
          OmitsEmpty ((block ++ [last]).map Lexeme.token) (kept ++ [last.token]) ∧
          List.Forall₂ Piece.Agrees node.pieces (kept ++ [last.token]) ∧
          r₂.cursor = last.stop ∧
          (Scanner.drain ⟨path, source, r₂.cursor⟩).1 = r₂.pending.map Lexeme.token := by
  constructor
  · intro nodes r h
    obtain ⟨kept, hkept⟩ :=
      Open.exists_keeps_of_run (fun _ => lexical_of_mem_tokenize) (Reader.readsAll_iff.mp h).1
    refine ⟨kept, hkept.omitsEmpty, ?_, hkept.agree_nodes⟩
    rw [← hkept.agree_nodes.map_spelling, List.map_flatMap]
    rfl
  · intro earlier r₁ node r₂ hreads hnext hnode
    obtain ⟨block, last, hpending, hrun, hr₂⟩ := Reader.exists_block_of_next hnext hnode
    obtain ⟨passed, hpassed, -⟩ := hreads.exists_run
    have hsource : sourceLexemes path source = passed ++ r₁.pending := by
      rw [← hpassed, Reader.ofSource_eq]
    have hsplit : sourceLexemes path source = (passed ++ block) ++ last :: r₂.pending := by
      rw [hsource, hpending, List.append_assoc]
    -- Words are cut at colons only in the path of an import, which needs that no name holds one.
    have hlexical : ∀ u ∈ (block ++ [last]).map Lexeme.token, u.spelling.Lexical := by
      have hsub : block ++ [last] ⊆ sourceLexemes path source := by
        have hcons : block ++ last :: r₂.pending = block ++ [last] ++ r₂.pending :=
          List.append_cons ..
        rw [hsource, hpending, hcons]
        exact List.subset_append_of_subset_right _ (List.subset_append_left _ _)
      intro u hu
      obtain ⟨l, hl, rfl⟩ := List.mem_map.mp hu
      exact lexical_of_mem_tokenize (mem_tokenize_of_mem (hsub hl))
    rw [List.map_append] at hlexical hrun
    obtain ⟨kept, hkept⟩ := Open.exists_keeps_concat hlexical hrun
    have hagree := hkept.agree_nodes
    rw [List.flatMap_singleton] at hagree
    have hcursor : r₂.cursor = last.stop := congrArg Reader.cursor hr₂
    refine ⟨block, last, kept, hpending, ?_, hagree, hcursor, ?_⟩
    · rw [List.map_append]
      exact hkept.omitsEmpty
    · rw [hcursor]
      exact drain_of_append hsplit

theorem pieces_eq_tokens_nested :
    let reader := Reader.ofSource "m" "fn f() \x7b ; g(1 + a); \x7d"
    ∃ nodes r, reader.ReadsAll nodes r ∧
      (∃ kept, OmitsEmpty (tokenize "m" "fn f() \x7b ; g(1 + a); \x7d") kept ∧
        nodes.flatMap Node.spellings = kept.map Token.spelling ∧
        List.Forall₂ Piece.Agrees (nodes.flatMap Node.pieces) kept) ∧
      ∃ node r₂, reader.Reads [] reader ∧ reader.next = .ok (node, r₂) ∧
        node.isEndOfFile = false ∧
        ∃ block last kept, reader.pending = block ++ last :: r₂.pending ∧
          OmitsEmpty ((block ++ [last]).map Lexeme.token) (kept ++ [last.token]) ∧
          List.Forall₂ Piece.Agrees node.pieces (kept ++ [last.token]) ∧
          r₂.cursor = last.stop ∧
          (Scanner.drain ⟨"m", "fn f() \x7b ; g(1 + a); \x7d", r₂.cursor⟩).1 =
            r₂.pending.map Lexeme.token := by
  intro reader
  let sum : Node :=
    .expr [.token ⟨.integer, "1", 1, ⟨"m", 1, 13⟩⟩, .token ⟨.symbol, "+", 0, ⟨"m", 1, 15⟩⟩,
      .token ⟨.identifier, "a", 0, ⟨"m", 1, 17⟩⟩] ⟨"m", 1, 13⟩
  let function : Node := .fnDecl "f" [] [.fnCall "g" [sum] ⟨"m", 1, 11⟩] ⟨"m", 1, 3⟩
  have hread : sourceStatements "m" "fn f() \x7b ; g(1 + a); \x7d" =
      [function].foldr Statements.next
        (.closed ((closing "fn f() \x7b ; g(1 + a); \x7d").location "m")) := by
    rw [sourceStatements_eq]
    cbv
  have hall : reader.ReadsAll [function] _ := readsAll_ofSource_iff.mpr ⟨hread, rfl⟩
  have hstep : ∃ r₂, reader.next = .ok (function, r₂) := by
    obtain ⟨_, _, hreads, _⟩ := hall
    cases hreads with
    | cons hnext _ _ => exact ⟨_, hnext⟩
  obtain ⟨r₂, hnext⟩ := hstep
  have hfirst := (pieces_eq_tokens _ _).2 [] reader _ r₂ (.nil reader) hnext rfl
  exact ⟨_, _, hall, (pieces_eq_tokens _ _).1 _ _ hall, _, r₂, .nil reader, hnext, rfl, hfirst⟩

end Dwo
