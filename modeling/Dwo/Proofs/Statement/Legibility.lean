import Dwo.Node.Dump
import Dwo.Proofs.Statement.Returned

/-!
# Listings can be read back

A listing puts texts between brackets, commas and quotes, and strings and unknown tokens may hold
all of these. Still nothing is lost, since each text can be told to end where it does: names and
integers end in front of any bracket, a symbol is one character, a string ends with its own quote,
and an unknown token stands alone on its line.

`Legible` says that two things can be told apart by what is written of them, whatever follows. It is
proved for tokens (`Token.legible_dump`, `Token.legible_line`), for items inside a line
(`Node.dumpItems_append_inj`), and by induction for statements of functions, where the indentation
tells how deep a line is (`Node.legible_line`). What cannot be read back is left out by `shown`:
places, and the digits of an integer, of which only the value is listed.
-/

namespace Dwo

/-! ### What a listing shows -/

/-- What a listing shows of a token: not its place, and of an integer its value only. -/
def Token.shown (t : Token) : Token where
  kind := t.kind
  text := if t.kind = .integer then "" else t.text
  value := t.value
  location := default

/-- A dump shows no more of a token than its shown form has. -/
@[simp]
theorem Token.dump_shown (t : Token) : t.shown.dump = t.dump := by
  rw [dump, dump]
  cases hkind : t.kind <;> simp [shown, hkind]

mutual

/-- What a listing shows of a tree: everything but places and the digits of integers. -/
def Node.shown : Node → Node
  | .endOfFile _ => .endOfFile default
  | .token t => .token t.shown
  | .importDecl name newName isLocal _ => .importDecl name newName isLocal default
  | .unaryOp _ => .unaryOp default
  | .binaryOp _ => .binaryOp default
  | .fnParams _ => .fnParams default
  | .expr items _ => .expr (shownAll items) default
  | .varDecl name isMutable initializer _ =>
    .varDecl name isMutable (shownAll initializer) default
  | .assignment name items _ => .assignment name (shownAll items) default
  | .fnDecl name params body _ => .fnDecl name (shownAll params) (shownAll body) default
  | .fnCall name args _ => .fnCall name (shownAll args) default

/-- What a listing shows of trees. -/
def Node.shownAll : List Node → List Node
  | [] => []
  | node :: nodes => node.shown :: shownAll nodes

end

namespace Node

/-- The recursion over a body is a map. -/
@[simp]
theorem shownAll_eq (nodes : List Node) : shownAll nodes = nodes.map shown := by
  induction nodes with
  | nil => rw [shownAll, List.map_nil]
  | cons node nodes ih => rw [shownAll, List.map_cons, ih]

mutual

private theorem dumpAt_shown (depth : Nat) :
    (node : Node) → node.shown.dumpAt depth = node.dumpAt depth
  | .endOfFile _ | .token _ | .unaryOp _ | .binaryOp _ | .fnParams _ => by simp [shown]
  | .importDecl _ newName _ _ => by cases newName <;> simp [shown]
  | .expr items _ | .varDecl _ _ items _ | .assignment _ items _ | .fnCall _ items _ => by
    have hitems := dumpItems_shown items
    simp [shown, hitems]
  | .fnDecl _ params body _ => by
    have hparams := dumpItems_shown params
    have hbody := dumpLines_shown (depth + 1) body
    simp [shown, hparams, hbody]

private theorem dumpItems_shown :
    (items : List Node) → dumpItems (items.map shown) = dumpItems items
  | [] => rfl
  | [item] => dumpAt_shown 0 item
  | item :: next :: items => by
    have hitem := dumpAt_shown 0 item
    have hitems := dumpItems_shown (next :: items)
    simp only [List.map_cons, dumpItems] at hitems ⊢
    rw [hitem, hitems]

private theorem dumpLines_shown (depth : Nat) : (items : List Node) →
    dumpLines depth (items.map shown) = dumpLines depth items
  | [] => rfl
  | item :: items => by
    have hitem := dumpAt_shown depth item
    have hitems := dumpLines_shown depth items
    simp only [List.map_cons, dumpLines]
    rw [hitem, hitems]

end

/-- A listing shows nothing else. -/
@[simp]
theorem dump_shown (node : Node) : node.shown.dump = node.dump :=
  dumpAt_shown 0 node

end Node

/-! ### Texts that can be told apart -/

/-- What is written of `a` and `b` can be told apart, whatever follows: if the texts are equal, both
have the same view, and both end at the same place. -/
def Legible {α β : Type} (write : α → String) (view : α → β) (a b : α) : Prop :=
  ∀ ⦃x y : String⦄, write a ++ x = write b ++ y → view a = view b ∧ x = y

namespace Legible

variable {α β : Type} {write : α → String} {view : α → β}

private theorem prepend {a b : α} (h : Legible write view a b) (front : String) :
    Legible (fun a => front ++ write a) view a b := by
  intro x y heq
  rw [String.append_assoc, String.append_assoc] at heq
  exact h ((String.append_right_inj front).mp heq)

/-- A fixed text behind what is written hides nothing of it. -/
theorem append {a b : α} (h : Legible write view a b) (back : String) :
    Legible (fun a => write a ++ back) view a b := by
  intro x y heq
  rw [String.append_assoc, String.append_assoc] at heq
  obtain ⟨hview, hrest⟩ := h heq
  exact ⟨hview, (String.append_right_inj back).mp hrest⟩

/-- Things that are written one behind the other can be told apart if any two of them can, and if
what stands behind the last one cannot be taken for another one. -/
theorem join {as bs : List α} {stop x y : String}
    (h : ∀ a ∈ as, ∀ b ∈ bs, Legible write view a b)
    (hstop : ∀ a ∈ as ++ bs, ∀ x y : String, write a ++ x ≠ stop ++ y)
    (heq : String.join (as.map write) ++ (stop ++ x) = String.join (bs.map write) ++ (stop ++ y)) :
    as.map view = bs.map view ∧ x = y := by
  induction as generalizing bs with
  | nil =>
    cases bs with
    | nil => simpa using heq
    | cons b bs =>
      rw [List.map_nil, String.join_nil, String.empty_append, List.map_cons, String.join_cons,
        String.append_assoc] at heq
      exact absurd heq.symm (hstop b List.mem_cons_self _ _)
  | cons a as ih =>
    cases bs with
    | nil =>
      rw [List.map_nil, String.join_nil, String.empty_append, List.map_cons, String.join_cons,
        String.append_assoc] at heq
      exact absurd heq (hstop a (by simp) _ _)
    | cons b bs =>
      simp only [List.map_cons, String.join_cons, String.append_assoc] at heq
      obtain ⟨hview, hrest⟩ := h a List.mem_cons_self b List.mem_cons_self heq
      have hpairs : ∀ a ∈ as, ∀ b ∈ bs, Legible write view a b := fun a ha b hb =>
        h a (List.mem_cons_of_mem _ ha) b (List.mem_cons_of_mem _ hb)
      have hapart : ∀ a ∈ as ++ bs, ∀ x y : String, write a ++ x ≠ stop ++ y := by
        intro c hc
        refine hstop c ?_
        rcases List.mem_append.mp hc with hc | hc <;> simp [hc]
      obtain ⟨hviews, hend⟩ := ih hpairs hapart hrest
      exact ⟨by rw [List.map_cons, List.map_cons, hview, hviews], hend⟩

end Legible

/-- A text without some character ends where that character stands. -/
theorem append_inj_of_notMem {c : Char} {a b x y : String} (ha : c ∉ a.toList)
    (hb : c ∉ b.toList) (h : a.toList ++ c :: x.toList = b.toList ++ c :: y.toList) :
    a = b ∧ x = y := by
  rw [← String.toList_inj, ← String.toList_inj]
  generalize a.toList = as at ha h ⊢
  generalize b.toList = bs at hb h ⊢
  induction as generalizing bs with
  | nil =>
    cases bs with
    | nil => exact ⟨rfl, (List.cons.inj h).2⟩
    | cons d bs => exact absurd ((List.cons.inj h).1 ▸ List.mem_cons_self) hb
  | cons d as ih =>
    cases bs with
    | nil => exact absurd ((List.cons.inj h).1 ▸ List.mem_cons_self) ha
    | cons e bs =>
      obtain ⟨rfl, hrest⟩ := List.cons.inj h
      obtain ⟨rfl, hend⟩ := ih (List.not_mem_of_not_mem_cons ha) bs
        (List.not_mem_of_not_mem_cons hb) hrest
      exact ⟨rfl, hend⟩

/-- A bracket does not make a token longer. -/
theorem Spelling.endsBefore_bracket {s : Spelling} (hunknown : s.kind ≠ .unknown)
    (hend : s.kind ≠ .endOfFile) (x : String) : s.EndsBefore (")" ++ x).toList := by
  rw [EndsBefore]
  cases hkind : s.kind with
  | unknown => exact absurd hkind hunknown
  | endOfFile => exact absurd hkind hend
  | _ => simp [isWordPart]

/-! ### Headings -/

/-- The first letters of a token in a listing. -/
def Kind.heading : Kind → String
  | endOfFile => "Token::EOF"
  | unknown => "Token::Unk"
  | identifier => "Token::Ide"
  | symbol => "Token::Sym"
  | integer => "Token::Int"
  | string => "Token::Str"

private theorem Kind.heading_inj {k k' : Kind} : k.heading = k'.heading ↔ k = k' := by
  cases k <;> cases k' <;> simp [heading]

namespace Node

/-- The first letters of a tree in a listing. They tell what kind of construct it is. -/
def heading : Node → String
  | endOfFile _ => "Node::EndO"
  | token t => t.kind.heading
  | importDecl .. => "Node::Impo"
  | unaryOp _ => "Node::Unar"
  | binaryOp _ => "Node::Bina"
  | fnParams _ => "Node::FnPa"
  | expr .. => "Node::Expr"
  | varDecl .. => "Node::VarD"
  | assignment .. => "Node::VarA"
  | fnDecl .. => "Node::FnDe"
  | fnCall .. => "Node::FnCa"

/-- A listing starts with its heading, whatever its parts are. -/
theorem take_dumpAt (node : Node) (depth : Nat) (x : String) :
    (node.dumpAt depth ++ x).toList.take 10 = node.heading.toList := by
  cases node with
  | token t => cases hkind : t.kind <;> simp [Token.dump, heading, Kind.heading, hkind]
  | importDecl name newName => cases newName <;> simp [heading]
  | _ => simp [heading]

/-- A dump opens with the heading of its node, which is told apart whatever follows. -/
private theorem heading_eq_of_append {a b : Node} {depth depth' : Nat} {x y : String}
    (h : a.dumpAt depth ++ x = b.dumpAt depth' ++ y) : a.heading = b.heading := by
  rw [← String.toList_inj, ← take_dumpAt a depth x, h, take_dumpAt]

/-- No bracket and no comma can be mistaken for an item. -/
theorem head?_dumpAt (node : Node) (depth : Nat) (x : String) :
    (node.dumpAt depth ++ x).toList.head? = some 'T' ∨
      (node.dumpAt depth ++ x).toList.head? = some 'N' := by
  have hhead : (node.dumpAt depth ++ x).toList.head? = node.heading.toList.head? := by
    rw [← take_dumpAt node depth x, List.head?_take, if_neg (by decide)]
  rw [hhead]
  cases node with
  | token t => cases hkind : t.kind <;> simp [heading, Kind.heading, hkind]
  | _ => simp [heading]

end Node

/-! ### Tokens -/

namespace Token

/-- The spelling that is listed for a token. -/
def written (t : Token) : Spelling where
  kind := t.kind
  text := if t.kind = .integer then toString t.value else t.text

variable {t u : Token}

/-- The end of file is not among the tokens that a source holds. -/
theorem kind_ne_of_isFound (h : (Piece.exact t).IsFound) : t.kind ≠ .endOfFile := by
  obtain ⟨path, source, _, ht, rfl⟩ := h
  exact (lexical_of_mem_tokenize ht).kind_ne

private theorem value_of_isFound (h : (Piece.exact t).IsFound) :
    t.value = lexemeValue t.kind t.text.toList := by
  obtain ⟨path, source, _, ht, rfl⟩ := h
  exact value_of_mem_tokenize ht

/-- What is listed for a token is a token again. -/
theorem occurs_written (h : (Piece.exact t).IsFound) : t.written.Occurs := by
  by_cases hkind : t.kind = .integer
  · have hvalue : t.value = (min (decimal t.text.toList) maxValue : Nat) := by
      rw [value_of_isFound h, lexemeValue, if_pos hkind]
      push_cast
      rfl
    have hwritten : t.written = ⟨.integer, toString (min (decimal t.text.toList) maxValue)⟩ := by
      rw [written, if_pos hkind, hvalue, hkind]
      rfl
    rw [hwritten]
    exact Spelling.occurs_of_isNumeral (isNumeral_toString _)
  · have hwritten : t.written = t.spelling := by
      rw [written, if_neg hkind]
      rfl
    rw [hwritten]
    exact h.occurs

/-- What is listed for a token is all that is shown of it. -/
theorem shown_eq_of_written_eq (ht : (Piece.exact t).IsFound) (hu : (Piece.exact u).IsFound)
    (h : t.written = u.written) : t.shown = u.shown := by
  obtain ⟨hkind, htext⟩ := Spelling.mk.inj h
  have hvalue : t.value = u.value := by
    by_cases hinteger : t.kind = .integer
    · rw [if_pos hinteger, if_pos (hkind ▸ hinteger)] at htext
      exact Int.repr_inj.mp htext
    · rw [value_of_isFound ht, value_of_isFound hu, lexemeValue, lexemeValue, if_neg hinteger,
        if_neg (hkind ▸ hinteger)]
  rw [shown, shown, hvalue, hkind]
  by_cases hinteger : u.kind = .integer
  · rw [if_pos hinteger, if_pos hinteger]
  · rw [if_neg (hkind ▸ hinteger), if_neg hinteger] at htext
    rw [htext]

/-- A dump opens with the name of the kind, so the kind is told apart whatever follows. -/
theorem kind_eq_of_append {x y : String} (h : t.dump ++ x = u.dump ++ y) : t.kind = u.kind := by
  have hnodes : (Node.token t).dumpAt 0 ++ x = (Node.token u).dumpAt 0 ++ y := h
  exact Kind.heading_inj.mp (Node.heading_eq_of_append hnodes)

/-- Inside a line, tokens can be told apart. -/
theorem legible_dump (ht : (Piece.exact t).IsFound) (hu : (Piece.exact u).IsFound)
    (hunknown : t.kind ≠ .unknown) : Legible dump shown t u := by
  intro x y h
  have hkind := kind_eq_of_append h
  have hend := kind_ne_of_isFound ht
  have hwritten : t.written.text ++ (")" ++ x) = u.written.text ++ (")" ++ y) := by
    cases hk : t.kind with
    | unknown => exact absurd hk hunknown
    | endOfFile => exact absurd hk hend
    | _ => simpa [dump, written, hk, ← hkind, String.append_assoc] using h
  have hunknown' : u.kind ≠ .unknown := hkind ▸ hunknown
  have hend' : u.kind ≠ .endOfFile := hkind ▸ hend
  obtain ⟨heq, hrest⟩ := (occurs_written ht).append_inj (occurs_written hu)
    (Spelling.endsBefore_bracket hunknown hend x)
    (Spelling.endsBefore_bracket hunknown' hend' y) hwritten
  exact ⟨shown_eq_of_written_eq ht hu heq, (String.append_right_inj ")").mp hrest⟩

/-- At the end of a line, unknown tokens can be told apart, too: whatever they consist of, they do
not go beyond the line. -/
theorem legible_line (ht : (Piece.exact t).IsFound) (hu : (Piece.exact u).IsFound) :
    Legible (fun t => t.dump ++ "\n") shown t u := by
  by_cases hunknown : t.kind = .unknown
  · intro x y h
    simp only [String.append_assoc] at h
    have hkind : u.kind = .unknown := (kind_eq_of_append h).symm.trans hunknown
    have htexts : t.text ++ "')" ++ ("\n" ++ x) = u.text ++ "')" ++ ("\n" ++ y) := by
      simpa [dump, hunknown, hkind, String.append_assoc] using h
    -- The text may hold the quote and the bracket that close it, but it cannot hold the newline.
    have htnewline : '\n' ∉ t.text.toList := ht.occurs.newline_notMem
    have hunewline : '\n' ∉ u.text.toList := hu.occurs.newline_notMem
    obtain ⟨htext, hrest⟩ : t.text ++ "')" = u.text ++ "')" ∧ x = y := by
      refine append_inj_of_notMem (c := '\n') ?_ ?_ (by simpa using congrArg String.toList htexts)
      · simpa using htnewline
      · simpa using hunewline
    refine ⟨shown_eq_of_written_eq ht hu ?_, hrest⟩
    rw [written, written, hunknown, hkind, (String.append_left_inj "')").mp htext]
    rfl
  · exact (legible_dump ht hu hunknown).append "\n"

end Token

/-- Operands and signs are known. -/
theorem IsChain.kind_ne {ts : List Token} {t : Token} (h : IsChain ts) (ht : t ∈ ts) :
    t.kind ≠ .unknown := by
  intro hkind
  rcases h.isOperand_or_isSign t ht with hoperand | hsign
  · simp [Token.isOperand, Kind.isOperand, hkind] at hoperand
  · simp [Token.isSign, Token.isSymbol, hkind] at hsign

/-! ### Items of a line -/

namespace Node

private theorem dumpItems_cons (item : Node) (items : List Node) :
    dumpItems (item :: items) =
      item.dumpAt 0 ++ String.join (items.map fun n => ", " ++ n.dumpAt 0) := by
  induction items generalizing item with
  | nil => simp [dumpItems]
  | cons next items ih =>
    rw [dumpItems, ih, List.map_cons, String.join_cons, String.append_assoc, String.append_assoc]
    exact List.cons_ne_nil next items

/-- Items with commas between them can be told apart if any two of them can. -/
theorem dumpItems_append_inj {as bs : List Node}
    (h : ∀ a ∈ as, ∀ b ∈ bs, Legible (dumpAt 0) shown a b) {stop : String}
    (hstop : stop = ")" ∨ stop = "])") {x y : String}
    (heq : dumpItems as ++ (stop ++ x) = dumpItems bs ++ (stop ++ y)) :
    as.map shown = bs.map shown ∧ x = y := by
  have hne : ∀ (n : Node) (x y : String), n.dumpAt 0 ++ x ≠ stop ++ y := by
    intro n x y hn
    have hhead := head?_dumpAt n 0 x
    rw [hn] at hhead
    rcases hstop with rfl | rfl <;> simp at hhead
  cases as with
  | nil =>
    cases bs with
    | nil => simpa [dumpItems] using heq
    | cons b bs =>
      rw [dumpItems_cons, String.append_assoc, dumpItems, String.empty_append] at heq
      exact absurd heq.symm (hne b _ _)
  | cons a as =>
    cases bs with
    | nil =>
      rw [dumpItems_cons, String.append_assoc, dumpItems, String.empty_append] at heq
      exact absurd heq (hne a _ _)
    | cons b bs =>
      rw [dumpItems_cons, dumpItems_cons, String.append_assoc, String.append_assoc] at heq
      obtain ⟨hfirst, hrest⟩ := h a List.mem_cons_self b List.mem_cons_self heq
      have hitems : ∀ a ∈ as, ∀ b ∈ bs, Legible (fun n => ", " ++ dumpAt 0 n) shown a b := by
        intro c hc d hd
        exact (h c (List.mem_cons_of_mem a hc) d (List.mem_cons_of_mem b hd)).prepend ", "
      have hcomma : ∀ n ∈ as ++ bs, ∀ x y : String, ", " ++ dumpAt 0 n ++ x ≠ stop ++ y := by
        intro n _ x y hn
        have hlist := congrArg String.toList hn
        rcases hstop with rfl | rfl <;> simp at hlist
      obtain ⟨hrest, hend⟩ := Legible.join hitems hcomma hrest
      exact ⟨by rw [List.map_cons, List.map_cons, hfirst, hrest], hend⟩

/-! ### Statements -/

/-- A name ends in front of anything that starts with another character. -/
theorem name_append_inj {a b stop x y : String} (ha : (Piece.word a).IsFound)
    (hb : (Piece.word b).IsFound) (hstop : stop.toList.head?.any (fun c => !isWordPart c) = true)
    (h : a ++ (stop ++ x) = b ++ (stop ++ y)) : a = b ∧ x = y := by
  have hends : ∀ z : String, ∀ c ∈ (stop ++ z).toList.head?, isWordPart c = false := by
    intro z c hc
    rw [String.toList_append] at hc
    cases hlist : stop.toList with
    | nil => simp [hlist] at hstop
    | cons d ds =>
      obtain rfl : d = c := by simpa [hlist] using hc
      simpa [hlist] using hstop
  obtain ⟨hword, hrest⟩ := ha.occurs.append_inj hb.occurs (hends x) (hends y) h
  exact ⟨Spelling.word_inj.mp hword, (String.append_right_inj stop).mp hrest⟩

private theorem marker_append_inj {m m' : Bool} {x y : String}
    (h : (if m then "mutable" else "immutable") ++ x =
      (if m' then "mutable" else "immutable") ++ y) : m = m' ∧ x = y := by
  cases m <;> cases m' <;> simpa [String.toList_inj] using congrArg String.toList h

private theorem exists_token_of_heading_eq {t : Token} {node : Node}
    (h : (token t).heading = node.heading) : ∃ u, node = token u := by
  cases node with
  | token u => exact ⟨u, rfl⟩
  | _ => cases hkind : t.kind <;> simp [heading, Kind.heading, hkind] at h

/-- The parts of expressions can be told apart. -/
theorem legible_expression {as bs : List Node} (has : IsExpression as) (hbs : IsExpression bs)
    (hfas : ∀ p ∈ itemPieces as, p.IsFound) (hfbs : ∀ p ∈ itemPieces bs, p.IsFound) :
    ∀ a ∈ as, ∀ b ∈ bs, Legible (dumpAt 0) shown a b := by
  obtain ⟨ts, hts, rfl⟩ := has
  obtain ⟨us, hus, rfl⟩ := hbs
  rw [itemPieces_token] at hfas hfbs
  intro a ha b hb x y h
  obtain ⟨t, ht, rfl⟩ := List.mem_map.mp ha
  obtain ⟨u, hu, rfl⟩ := List.mem_map.mp hb
  obtain ⟨hshown, hrest⟩ := Token.legible_dump (hfas _ (List.mem_map_of_mem ht))
    (hfbs _ (List.mem_map_of_mem hu)) (hts.kind_ne ht) h
  exact ⟨congrArg token hshown, hrest⟩

/-- Arguments are told apart by their dumps, also a single token from a longer expression. -/
private theorem legible_argument {a b : Node} (ha : a.IsArgument) (hb : b.IsArgument)
    (hfa : ∀ p ∈ a.argumentPieces, p.IsFound) (hfb : ∀ p ∈ b.argumentPieces, p.IsFound) :
    Legible (dumpAt 0) shown a b := by
  intro x y h
  have hheading := heading_eq_of_append h
  cases ha with
  | @operand t ht =>
    cases hb with
    | @operand u hu =>
      have htokens := legible_expression ⟨[t], .operand ht, rfl⟩ ⟨[u], .operand hu, rfl⟩ hfa hfb
      exact htokens _ List.mem_cons_self _ List.mem_cons_self h
    | expr => simpa using exists_token_of_heading_eq hheading
  | @expr ts l hts =>
    cases hb with
    | operand => simpa using exists_token_of_heading_eq hheading.symm
    | @expr us l' hus =>
      have htokens := legible_expression ⟨ts, hts, rfl⟩ ⟨us, hus, rfl⟩ hfa hfb
      simp only [dumpAt_expr, String.append_assoc, String.append_right_inj] at h
      obtain ⟨hitems, hrest⟩ := dumpItems_append_inj htokens (.inl rfl) h
      exact ⟨by simp only [shown, shownAll_eq, hitems], hrest⟩

private theorem legible_assignment {name name' : String} {items items' : List Node}
    {l l' : Location}
    (h : IsExpression items) (h' : IsExpression items')
    (hfound : (assignment name items l).IsFound) (hfound' : (assignment name' items' l').IsFound)
    (depth : Nat) :
    Legible (dumpAt depth) shown (assignment name items l) (assignment name' items' l') := by
  intro x y heq
  simp only [dumpAt_assignment, String.append_assoc, String.append_right_inj] at heq
  obtain ⟨rfl, hitems⟩ := name_append_inj (hfound _ (by simp [pieces]))
    (hfound' _ (by simp [pieces])) (by decide) heq
  have htokens := legible_expression h h' (fun p hp => hfound p (by simp [pieces, hp]))
    fun p hp => hfound' p (by simp [pieces, hp])
  obtain ⟨hshown, hrest⟩ := dumpItems_append_inj htokens (.inl rfl) hitems
  exact ⟨by simp only [shown, shownAll_eq, hshown], hrest⟩

/-- Declarations are told apart by their dumps, with their names, markers and values. -/
private theorem legible_varDecl {name name' : String} {isMutable isMutable' : Bool}
    {items items' : List Node} {l l' : Location}
    (h : IsInitializer isMutable items) (h' : IsInitializer isMutable' items')
    (hfound : (varDecl name isMutable items l).IsFound)
    (hfound' : (varDecl name' isMutable' items' l').IsFound) (depth : Nat) :
    Legible (dumpAt depth) shown (varDecl name isMutable items l)
      (varDecl name' isMutable' items' l') := by
  intro x y heq
  simp only [dumpAt_varDecl, String.append_assoc, String.append_right_inj] at heq
  obtain ⟨rfl, hname⟩ := marker_append_inj heq
  rw [String.append_right_inj] at hname
  obtain ⟨rfl, hitems⟩ := name_append_inj (hfound _ (by simp [pieces, letPieces]))
    (hfound' _ (by simp [pieces, letPieces])) (by decide) hname
  obtain ⟨hshown, hrest⟩ : items.map shown = items'.map shown ∧ x = y := by
    cases items with
    | nil =>
      cases items' with
      | nil => simpa using hitems
      | cons item' items' => simpa using congrArg String.toList hitems
    | cons item items =>
      cases items' with
      | nil => simpa using congrArg String.toList hitems
      | cons item' items' =>
        simp only [List.isEmpty_cons, Bool.false_eq_true, if_false, String.append_assoc,
          String.append_right_inj] at hitems
        have hexpr : IsExpression (item :: items) := h.resolve_left (by simp)
        have hexpr' : IsExpression (item' :: items') := h'.resolve_left (by simp)
        have htokens := legible_expression hexpr hexpr'
          (fun p hp => hfound p (by simp [pieces, hp])) fun p hp => hfound' p (by simp [pieces, hp])
        exact dumpItems_append_inj htokens (.inl rfl) hitems
  exact ⟨by simp only [shown, shownAll_eq, hshown], hrest⟩

/-- Calls are told apart by their dumps, with all of their arguments. -/
private theorem legible_fnCall {name name' : String} {args args' : List Node} {l l' : Location}
    (h : ∀ arg ∈ args, arg.IsArgument) (h' : ∀ arg ∈ args', arg.IsArgument)
    (hfound : (fnCall name args l).IsFound) (hfound' : (fnCall name' args' l').IsFound)
    (depth : Nat) : Legible (dumpAt depth) shown (fnCall name args l) (fnCall name' args' l') := by
  intro x y heq
  simp only [dumpAt_fnCall, String.append_assoc, String.append_right_inj] at heq
  obtain ⟨rfl, hargs⟩ := name_append_inj (hfound _ (by simp [pieces]))
    (hfound' _ (by simp [pieces])) (by decide) heq
  have hpairs : ∀ a ∈ args, ∀ b ∈ args', Legible (dumpAt 0) shown a b := by
    intro a ha b hb
    refine legible_argument (h a ha) (h' b hb) (fun p hp => hfound p ?_) fun p hp => hfound' p ?_
    · have hmem := Piece.mem_separated "," (List.mem_map_of_mem ha) hp
      simp [pieces, hmem]
    · have hmem := Piece.mem_separated "," (List.mem_map_of_mem hb) hp
      simp [pieces, hmem]
  obtain ⟨hshown, hrest⟩ := dumpItems_append_inj hpairs (.inr rfl) hargs
  exact ⟨by simp only [shown, shownAll_eq, hshown], hrest⟩

/-! ### Lines -/

/-- One level deeper is two blanks more. -/
private theorem indent_succ (depth : Nat) : indent (depth + 1) = indent depth ++ "  " := by
  induction depth with
  | zero => rfl
  | succ depth ih =>
    calc indent (depth + 2) = "  " ++ indent (depth + 1) := rfl
      _ = "  " ++ indent depth ++ "  " := by rw [ih, String.append_assoc]
      _ = indent (depth + 1) ++ "  " := rfl

private theorem dumpLines_eq (depth : Nat) (items : List Node) :
    dumpLines depth items =
      String.join (items.map fun n => indent depth ++ (n.dumpAt depth ++ "\n")) := by
  induction items with
  | nil => rfl
  | cons item items ih =>
    simp only [dumpLines, ih, List.map_cons, String.join_cons, String.append_assoc]

private theorem heading_eq_of_line {a b : Node} {depth : Nat} {x y : String}
    (h : a.dumpAt depth ++ "\n" ++ x = b.dumpAt depth ++ "\n" ++ y) : a.heading = b.heading := by
  rw [String.append_assoc, String.append_assoc] at h
  exact heading_eq_of_append h

private theorem isFound_of_mem_body {name : String} {params body : List Node} {l : Location}
    {item : Node}
    (h : (fnDecl name params body l).IsFound) (hitem : item ∈ body) : item.IsFound := by
  intro p hp
  refine h p ?_
  have hmem : p ∈ bodyPieces body := by
    rw [bodyPieces_eq]
    exact List.mem_flatMap.mpr ⟨item, hitem, hp⟩
  simp [pieces, hmem]

/-- **On lines of their own, statements of functions can be told apart**, by induction on the first
of them: the lines of a function are again such lines, at the next depth. -/
theorem legible_line {a b : Node} (ha : a.IsBodyItem) (hb : b.IsBodyItem) (hfa : a.IsFound)
    (hfb : b.IsFound) (depth : Nat) :
    Legible (fun n => n.dumpAt depth ++ "\n") shown a b := by
  induction ha generalizing b depth with
  | token t =>
    intro x y heq
    obtain ⟨u, rfl⟩ := exists_token_of_heading_eq (heading_eq_of_line heq)
    obtain ⟨hshown, hrest⟩ := Token.legible_line (hfa _ (by simp [pieces]))
      (hfb _ (by simp [pieces])) heq
    exact ⟨congrArg token hshown, hrest⟩
  | varDecl h =>
    intro x y heq
    have hheading := heading_eq_of_line heq
    cases hb with
    | varDecl h' => exact (legible_varDecl h h' hfa hfb depth).append "\n" heq
    | token => simpa using exists_token_of_heading_eq hheading.symm
    | assignment | fnCall | fnDecl => simp [heading] at hheading
  | assignment h =>
    intro x y heq
    have hheading := heading_eq_of_line heq
    cases hb with
    | assignment h' => exact (legible_assignment h h' hfa hfb depth).append "\n" heq
    | token => simpa using exists_token_of_heading_eq hheading.symm
    | varDecl | fnCall | fnDecl => simp [heading] at hheading
  | fnCall h =>
    intro x y heq
    have hheading := heading_eq_of_line heq
    cases hb with
    | fnCall h' => exact (legible_fnCall h h' hfa hfb depth).append "\n" heq
    | token => simpa using exists_token_of_heading_eq hheading.symm
    | varDecl | assignment | fnDecl => simp [heading] at hheading
  | @fnDecl name body l _ ih =>
    intro x y heq
    have hheading := heading_eq_of_line heq
    cases hb with
    | @fnDecl name' body' l' hbody' =>
      simp only [dumpAt_fnDecl, dumpLines_eq, String.append_assoc, String.append_right_inj] at heq
      obtain ⟨rfl, hlines⟩ := name_append_inj (hfa _ (by simp [pieces, fnPieces]))
        (hfb _ (by simp [pieces, fnPieces])) (by decide) heq
      have hpairs : ∀ a ∈ body, ∀ b ∈ body', Legible
          (fun n => indent (depth + 1) ++ (n.dumpAt (depth + 1) ++ "\n")) shown a b :=
        fun a ha b hb => (ih a ha (hbody' b hb) (isFound_of_mem_body hfa ha)
          (isFound_of_mem_body hfb hb) (depth + 1)).prepend _
      -- Every line of the body is deeper than the bracket that closes it.
      have hclose : ∀ n ∈ body ++ body', ∀ x y : String,
          indent (depth + 1) ++ (n.dumpAt (depth + 1) ++ "\n") ++ x ≠
            indent depth ++ "\x7d" ++ y := by
        intro n _ x y hn
        rw [indent_succ] at hn
        simp only [String.append_assoc, String.append_right_inj] at hn
        simpa using congrArg String.toList hn
      obtain ⟨hshown, hrest⟩ := Legible.join (x := "\n" ++ x) (y := "\n" ++ y) hpairs hclose
        (by simpa only [String.append_assoc, String.append_right_inj] using hlines)
      exact ⟨by simp only [shown, shownAll_eq, hshown], (String.append_right_inj _).mp hrest⟩
    | token => simpa using exists_token_of_heading_eq hheading.symm
    | varDecl | assignment | fnCall => simp [heading] at hheading

/-! ### Statements outside all functions -/

private theorem legible_importDecl {name name' : String} {l l' : Location}
    (hfound : (importDecl name none false l).IsFound)
    (hfound' : (importDecl name' none false l').IsFound) (depth : Nat) :
    Legible (dumpAt depth) shown (importDecl name none false l)
      (importDecl name' none false l') := by
  intro x y heq
  simp only [dumpAt_importDecl_none, String.append_assoc, String.append_right_inj] at heq
  have hpath : ')' ∉ name.toList :=
    (isImportPath_of_occurs fun p hp => (hfound p (by simp [pieces, hp])).occurs).notMem
      (by decide) (by decide)
  have hpath' : ')' ∉ name'.toList :=
    (isImportPath_of_occurs fun p hp => (hfound' p (by simp [pieces, hp])).occurs).notMem
      (by decide) (by decide)
  obtain ⟨rfl, hrest⟩ := append_inj_of_notMem hpath hpath'
    (by simpa using congrArg String.toList heq)
  exact ⟨rfl, hrest⟩

private theorem IsTopLevel.isBodyItem_or {node : Node} (h : node.IsTopLevel) :
    (∃ name l, node = .importDecl name none false l) ∨ node.IsBodyItem := by
  cases h with
  | importDecl => exact .inl ⟨_, _, rfl⟩
  | varDecl h => exact .inr (.varDecl h)
  | fnDecl h => exact .inr (.fnDecl h)

private theorem IsBodyItem.heading_ne {node : Node} (h : node.IsBodyItem) (name : String)
    (l : Location) : node.heading ≠ (Node.importDecl name none false l).heading := by
  cases h with
  | token t => cases hkind : t.kind <;> simp [heading, Kind.heading, hkind]
  | _ => simp [heading]

/-- The same outside all functions. -/
theorem legible_statement {a b : Node} (ha : a.IsTopLevel) (hb : b.IsTopLevel) (hfa : a.IsFound)
    (hfb : b.IsFound) : Legible (fun n => n.dump ++ "\n") shown a b := by
  intro x y heq
  have hheading : a.heading = b.heading := heading_eq_of_line heq
  rcases ha.isBodyItem_or with ⟨name, l, rfl⟩ | ha
  · rcases hb.isBodyItem_or with ⟨name', l', rfl⟩ | hb
    · exact (legible_importDecl hfa hfb 0).append "\n" heq
    · exact absurd hheading.symm (hb.heading_ne name l)
  · rcases hb.isBodyItem_or with ⟨name', l', rfl⟩ | hb
    · exact absurd hheading (ha.heading_ne name' l')
    · exact legible_line ha hb hfa hfb 0 heq

private theorem IsTopLevel.heading_ne {node : Node} (h : node.IsTopLevel) :
    node.heading ≠ (endOfFile default).heading := by
  cases h <;> simp [heading]

/-- **Statements can be recovered from their listing**, as far as it shows them. -/
theorem map_shown_eq_of_join_eq {as bs : List Node} (has : ∀ a ∈ as, a.IsTopLevel ∧ a.IsFound)
    (hbs : ∀ b ∈ bs, b.IsTopLevel ∧ b.IsFound)
    (h : String.join (as.map fun n => n.dump ++ "\n") ++ "Node::EndOfFile\n" =
      String.join (bs.map fun n => n.dump ++ "\n") ++ "Node::EndOfFile\n") :
    as.map shown = bs.map shown := by
  have hpairs : ∀ a ∈ as, ∀ b ∈ bs, Legible (fun n => n.dump ++ "\n") shown a b :=
    fun a ha b hb => legible_statement (has a ha).1 (hbs b hb).1 (has a ha).2 (hbs b hb).2
  have hclose : ∀ n ∈ as ++ bs, ∀ x y : String,
      n.dump ++ "\n" ++ x ≠ (endOfFile default).dump ++ "\n" ++ y := by
    intro n hn x y heq
    have htop : n.IsTopLevel := (List.mem_append.mp hn).elim (fun h => (has n h).1)
      fun h => (hbs n h).1
    exact htop.heading_ne (heading_eq_of_line heq)
  refine (Legible.join (x := "") (y := "") hpairs hclose ?_).1
  rw [String.append_empty]
  exact h

end Node

end Dwo
