import Dwo.Proofs.Session.Phases
import Dwo.Proofs.Statement.Legibility

/-!
# Listings of source texts

A source text is listed by its statements, one behind the other, and a last line for its end. The
statements can be read back from that (`compile_tree_eq_iff`): two texts have the same listing
exactly if they have the same statements, up to what no listing shows.

It is also listed by its tokens, and these can be read back as well (`compile_tokens_eq_iff`). Here
every text has a listing, and its lines are the tokens.

`Token.LooksLike` relates two tokens that a listing does not tell apart: they have the same
class and, but for integers, the same text, and integers have the same value. The direction that
takes work is from equal listings to equal lists. For statements it is
`map_shown_eq_of_join_eq`, and for tokens the lines of the listing are split at newlines, which
no token holds.
-/

namespace Dwo

/-! ### Listings of statements -/

/-- A listing consists of lines for the statements and one for the end. -/
theorem Statements.eq_join_of_listing {statements : Statements} {text : String}
    (h : statements.listing = .ok text) :
    statements.error? = none ∧
      text = String.join (statements.nodes.map fun n => n.dump ++ "\n") ++
        "Node::EndOfFile\n" := by
  rw [listing_eq] at h
  split at h
  · cases h
  · next herror =>
    refine ⟨herror, (Except.ok.inj h).symm.trans ?_⟩
    clear h
    induction statements.nodes with
    | nil => rfl
    | cons node nodes ih =>
      rw [List.foldr_cons, ih, List.map_cons, String.join_cons]
      exact String.append_assoc.symm

/-- What is listed has the form of statements and consists of tokens of the text. -/
theorem isTopLevel_and_isFound_of_mem_nodes {path source : String}
    (h : (sourceStatements path source).error? = none) :
    ∀ node ∈ (sourceStatements path source).nodes, node.IsTopLevel ∧ node.IsFound := by
  obtain ⟨l, hstatements⟩ := Statements.eq_foldr_of_error?_eq_none h
  obtain ⟨hrun, -⟩ := statements_eq_closed_iff.mp hstatements
  intro node hnode
  exact ⟨(Open.wellFormed_initial.run hrun).2 node hnode,
    Open.isFound_of_run (List.Subset.refl _) hrun node hnode⟩

/-- **Two source texts have the same listing exactly if they have the same statements**, but for
places and the digits of integers, of which the value is all that counts. So the statements can be
recovered from a listing: mutability, names, nesting, the arguments of calls, signs, strings, and
tokens that stand alone. -/
theorem compile_tree_eq_iff {path path' source source' text text' : String}
    (h : compile path source .tree = .ok text) (h' : compile path' source' .tree = .ok text') :
    text = text' ↔
      (sourceStatements path source).nodes.map Node.shown =
        (sourceStatements path' source').nodes.map Node.shown := by
  rw [compile_tree_eq_listing] at h h'
  obtain ⟨herror, rfl⟩ := Statements.eq_join_of_listing h
  obtain ⟨herror', rfl⟩ := Statements.eq_join_of_listing h'
  constructor
  · exact Node.map_shown_eq_of_join_eq (isTopLevel_and_isFound_of_mem_nodes herror)
      (isTopLevel_and_isFound_of_mem_nodes herror')
  · intro hshown
    have hmap : ∀ nodes : List Node, nodes.map (fun n => n.dump ++ "\n") =
        (nodes.map Node.shown).map fun n => n.dump ++ "\n" := by
      intro nodes
      rw [List.map_map]
      exact List.map_congr_left fun n _ => by rw [Function.comp, Node.dump_shown]
    rw [hmap, hshown, ← hmap]

/-- Two layouts, with two integers that are too large for a token. The string and what follows it, a
string without an end, hold what looks like the end of an item. -/
theorem compile_tree_eq_iff_quotes :
    let s := "fn f() \x7b\n  g(9223372036854775808, \"'), [\");\n  \"')\n\x7d"
    let s' := "fn f()\x7bg(99999999999999999999,\"'), [\");\"')\n\x7d//"
    ∃ text, compile "m" s .tree = .ok text ∧ compile "n" s' .tree = .ok text ∧
      (sourceStatements "m" s).nodes.map Node.shown =
        (sourceStatements "n" s').nodes.map Node.shown := by
  intro s s'
  let function (digits : String) (l₁ l₂ l₃ l₄ l₅ : Location) : Node :=
    .fnDecl "f" [] [.fnCall "g" [.token ⟨.integer, digits, maxValue, l₃⟩,
      .token ⟨.string, "\"'), [\"", 0, l₄⟩] l₂, .token ⟨.unknown, "\"')", 0, l₅⟩] l₁
  have hread : sourceStatements "m" s = .next (function "9223372036854775808" ⟨"m", 1, 3⟩
      ⟨"m", 2, 2⟩ ⟨"m", 2, 4⟩ ⟨"m", 2, 25⟩ ⟨"m", 3, 2⟩) (.closed ⟨"m", 4, 1⟩) := by
    rw [sourceStatements_eq]
    cbv
  have hread' : sourceStatements "n" s' = .next (function "99999999999999999999" ⟨"n", 1, 3⟩
      ⟨"n", 1, 7⟩ ⟨"n", 1, 9⟩ ⟨"n", 1, 30⟩ ⟨"n", 1, 39⟩) (.closed ⟨"n", 2, 3⟩) := by
    rw [sourceStatements_eq]
    cbv
  let text := (function "" default default default default default).dump ++ "\nNode::EndOfFile\n"
  have h : compile "m" s .tree = .ok text := by
    rw [compile_tree_eq_listing, hread]
    rfl
  have h' : compile "n" s' .tree = .ok text := by
    rw [compile_tree_eq_listing, hread']
    rfl
  exact ⟨text, h, h', (compile_tree_eq_iff h h').mp rfl⟩

/-! ### Listings of tokens -/

/-- A listing shows the same of two tokens: their class, and the value of integers or the text of
all others. -/
def Token.LooksLike (t u : Token) : Prop :=
  t.kind = u.kind ∧ if t.kind = .integer then t.value = u.value else t.text = u.text

namespace Token

variable {t u : Token}

private theorem LooksLike.dump_eq (h : t.LooksLike u) : t.dump = u.dump := by
  obtain ⟨hkind, hview⟩ := h
  rw [dump, dump, ← hkind]
  cases hk : t.kind with
  | endOfFile => rfl
  | integer =>
    rw [if_pos hk] at hview
    rw [hview]
  | _ =>
    rw [if_neg (by simp [hk])] at hview
    rw [hview]

private theorem looksLike_of_shown_eq (h : t.shown = u.shown) : t.LooksLike u := by
  obtain ⟨hkind, htext, hvalue, -⟩ := Token.mk.inj h
  refine ⟨hkind, ?_⟩
  split
  · exact hvalue
  · next hinteger => rwa [if_neg hinteger, if_neg (hkind ▸ hinteger)] at htext

private theorem isFound_of_mem_tokenize {path source : String} (h : t ∈ tokenize path source) :
    (Piece.exact t).IsFound :=
  ⟨path, source, t, h, rfl⟩

/-- A token is shown on one line. -/
theorem newline_notMem_dump (h : (Piece.exact t).IsFound) : '\n' ∉ t.dump.toList := by
  have hwritten : '\n' ∉ t.written.text.toList := (occurs_written h).newline_notMem
  rw [dump]
  cases hkind : t.kind with
  | endOfFile => simp
  | _ => simpa [written, hkind] using hwritten

end Token

/-- Lines without newlines in them are the texts between the newlines that are put behind them. -/
theorem splitOn_join_newline {lines : List String} (h : ∀ l ∈ lines, '\n' ∉ l.toList) :
    (String.join (lines.map (· ++ "\n"))).toList.splitOn '\n' =
      (lines ++ [""]).map String.toList := by
  induction lines with
  | nil => rfl
  | cons l lines ih =>
    obtain ⟨hl, hlines⟩ := List.forall_mem_cons.mp h
    have htext : (String.join ((l :: lines).map (· ++ "\n"))).toList =
        l.toList ++ '\n' :: (String.join (lines.map (· ++ "\n"))).toList := by
      simp [String.join_cons]
    rw [htext, List.splitOn_append_cons_self_of_not_mem hl, ih hlines]
    rfl

/-- A listing of tokens has a line for each token and one for the end. -/
theorem tokenListing_eq_join (path source : String) :
    tokenListing path source =
      String.join (((tokenize path source).map Token.dump ++ ["Token::EOF"]).map (· ++ "\n")) := by
  rw [tokenListing, List.map_append, List.map_append, List.map_map]
  rfl

/-- The lines of a token listing are the dumps of the tokens, and the end of file. -/
private theorem splitOn_tokenListing (path source : String) :
    (tokenListing path source).toList.splitOn '\n' =
      ((tokenize path source).map Token.dump ++ ["Token::EOF", ""]).map String.toList := by
  have hlines : ∀ l ∈ (tokenize path source).map Token.dump ++ ["Token::EOF"],
      '\n' ∉ l.toList := by
    intro l hl
    rcases List.mem_append.mp hl with hl | hl
    · obtain ⟨t, ht, rfl⟩ := List.mem_map.mp hl
      exact Token.newline_notMem_dump (Token.isFound_of_mem_tokenize ht)
    · rw [List.mem_singleton.mp hl]
      decide
  rw [tokenListing_eq_join, splitOn_join_newline hlines, List.append_assoc]
  rfl

/-- **Tokens can be recovered from their listing**, as far as it shows them. -/
theorem looksLike_of_tokenListing_eq {path path' source source' : String}
    (h : tokenListing path source = tokenListing path' source') :
    List.Forall₂ Token.LooksLike (tokenize path source) (tokenize path' source') := by
  have hpairs : ∀ t ∈ tokenize path source, ∀ u ∈ tokenize path' source',
      Legible (fun t => t.dump ++ "\n") Token.shown t u := fun t ht u hu =>
    Token.legible_line (Token.isFound_of_mem_tokenize ht) (Token.isFound_of_mem_tokenize hu)
  have hclose : ∀ t ∈ tokenize path source ++ tokenize path' source', ∀ x y : String,
      t.dump ++ "\n" ++ x ≠ (Token.endOfFile default).dump ++ "\n" ++ y := by
    intro t ht x y heq
    have hfound : (Piece.exact t).IsFound := (List.mem_append.mp ht).elim
      Token.isFound_of_mem_tokenize Token.isFound_of_mem_tokenize
    rw [String.append_assoc, String.append_assoc] at heq
    exact Token.kind_ne_of_isFound hfound (Token.kind_eq_of_append heq)
  have hjoin (path source : String) : tokenListing path source =
      String.join ((tokenize path source).map fun t => t.dump ++ "\n") ++
        ((Token.endOfFile default).dump ++ "\n" ++ "") := by
    rw [tokenListing, List.map_append, String.join_append]
    rfl
  rw [hjoin, hjoin] at h
  have hshown := (Legible.join hpairs hclose h).1
  rw [← List.forall₂_eq_eq_eq, List.forall₂_map_left_iff, List.forall₂_map_right_iff] at hshown
  exact hshown.imp fun _ _ => Token.looksLike_of_shown_eq

private theorem tokenListing_eq_of_looksLike {path path' source source' : String}
    (h : List.Forall₂ Token.LooksLike (tokenize path source) (tokenize path' source')) :
    tokenListing path source = tokenListing path' source' := by
  have hdumps : (tokenize path source).map Token.dump =
      (tokenize path' source').map Token.dump := by
    rw [← List.forall₂_eq_eq_eq, List.forall₂_map_left_iff, List.forall₂_map_right_iff]
    exact h.imp fun _ _ => Token.LooksLike.dump_eq
  rw [tokenListing_eq_join, tokenListing_eq_join, hdumps]

/-- **Every source text has a listing of its tokens, and it is faithful.** It is made of a line for
each token, one for the end of the text, and nothing else. Two texts have the same listing exactly
if they have as many tokens, and each token looks like the one at its place in the other text: they
have the same class and the same text, or the same value if they are integers. Unknown tokens are
listed as they are, with all the quotes and brackets in them, so this is due to the fact that no
token holds a newline. -/
theorem compile_tokens_eq_iff (path path' source source' : String) :
    ∃ text text', compile path source .tokens = .ok text ∧
      compile path' source' .tokens = .ok text' ∧
      text.toList.splitOn '\n' =
        ((tokenize path source).map Token.dump ++ ["Token::EOF", ""]).map String.toList ∧
      (text = text' ↔
        List.Forall₂ Token.LooksLike (tokenize path source) (tokenize path' source')) :=
  ⟨tokenListing path source, tokenListing path' source', compile_tokens_eq_ok path source,
    compile_tokens_eq_ok path' source', splitOn_tokenListing path source,
    looksLike_of_tokenListing_eq, tokenListing_eq_of_looksLike⟩

-- A string without an end may hold what closes an unknown token, and what stands on the last line.
example : compile "m" "\"')Token::EOF" .tokens =
    .ok "Token::Unknown('\"')Token::EOF')\nToken::EOF\n" := by
  rw [compile_tokens_eq_ok, tokenListing, tokenize_eq]
  cbv

end Dwo
