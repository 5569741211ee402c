import Dwo.Proofs.Statement.Pieces
import Dwo.Proofs.Token.Relexing

/-!
# Statements that are returned

Whatever a reader returns from a position of a source text, it has the form of a statement, and it
is written back with tokens of that text (`Open.occurs_of_run`). So its names are words, and the
path of an import is made of words with single colons between them (`Reader.isReturned_of_next`).

`Piece.IsFound` says that a piece can come from a source text, and `Node.IsFound` that all
pieces of a node do. Both are consequences of the invariant that reading keeps every token,
since the tokens that are kept are tokens of the text. The form of the statements is the
invariant of `Dwo.Proofs.Statement.WellFormed`; here the two are joined, for every position at
which a reader can be asked to go on.
-/

namespace Dwo

/-- Leaving out empty statements adds no token. -/
theorem OmitsEmpty.subset {ts kept : List Token} (h : OmitsEmpty ts kept) : kept ⊆ ts := by
  induction h with
  | nil => exact List.Subset.refl []
  | drop _ _ _ ih => exact List.subset_append_of_subset_left _ ih
  | keep _ _ ih =>
    exact List.append_subset.mpr
      ⟨List.subset_append_of_subset_left _ ih, List.subset_append_right _ _⟩

/-- A piece that stands for a token of some source text. -/
def Piece.IsFound (p : Piece) : Prop :=
  ∃ path source, ∃ t ∈ tokenize path source, p.Agrees t

/-- What is found in a source is spelled as a source can spell it. -/
theorem Piece.IsFound.occurs {p : Piece} (h : p.IsFound) : p.spelling.Occurs := by
  obtain ⟨path, source, t, ht, hagrees⟩ := h
  rw [hagrees.spelling_eq]
  exact occurs_of_mem_tokenize ht

/-- Every piece of a statement stands for a token of some source text. -/
def Node.IsFound (node : Node) : Prop :=
  ∀ p ∈ node.pieces, p.IsFound

/-- What has been read is written back with tokens that have been read. -/
theorem Open.exists_agrees_of_run {path source : String} {ts : List Token} {ns : List Node}
    {s : Open} {p : Piece} (hts : ts ⊆ tokenize path source) (hrun : Run {} ts ns s)
    (hp : p ∈ ns.flatMap Node.pieces ++ s.pieces) : ∃ t ∈ tokenize path source, p.Agrees t := by
  obtain ⟨kept, hkept⟩ := exists_keeps_of_run (fun u hu => lexical_of_mem_tokenize (hts hu)) hrun
  obtain ⟨t, ht, hagrees⟩ := hkept.agree.exists_agrees hp
  exact ⟨t, hts (hkept.omitsEmpty.subset ht), hagrees⟩

/-- A run over tokens of a source yields nodes that are made of tokens of a source. -/
theorem Open.isFound_of_run {path source : String} {ts : List Token} {ns : List Node} {s : Open}
    (hts : ts ⊆ tokenize path source) (hrun : Run {} ts ns s) : ∀ node ∈ ns, node.IsFound := by
  intro node hnode p hp
  have hmem : p ∈ ns.flatMap Node.pieces ++ s.pieces :=
    List.mem_append_left _ (List.mem_flatMap.mpr ⟨node, hnode, hp⟩)
  exact ⟨path, source, exists_agrees_of_run hts hrun hmem⟩

/-- So these tokens occur. -/
theorem Open.occurs_of_run {path source : String} {ts : List Token} {ns : List Node} {s : Open}
    (hts : ts ⊆ tokenize path source) (hrun : Run {} ts ns s) :
    ∀ node ∈ ns, ∀ p ∈ node.pieces, p.spelling.Occurs :=
  fun node hnode p hp => (isFound_of_run hts hrun node hnode p hp).occurs

/-! ### Paths -/

/-- Putting separators between parts keeps all that is in them. -/
theorem Piece.mem_separated {parts : List (List Piece)} {part : List Piece} {p : Piece}
    (text : String) (hpart : part ∈ parts) (hp : p ∈ part) : p ∈ separated text parts := by
  induction parts with
  | nil => cases hpart
  | cons first parts ih =>
    cases parts with
    | nil =>
      obtain rfl := List.mem_singleton.mp hpart
      simpa [separated] using hp
    | cons next parts =>
      rw [separated, List.intercalate_cons_cons, List.mem_append]
      rcases List.mem_cons.mp hpart with rfl | hpart
      · exact .inl (List.mem_append_left _ hp)
      · exact .inr (ih hpart)

/-- Words, one at least, with single colons between them. -/
def IsImportPath (path : String) : Prop :=
  ∃ words : List String, words ≠ [] ∧ (∀ w ∈ words, IsWord w.toList) ∧
    path = ":".intercalate words

/-- A path whose pieces occur in a source is made of words with colons between them. -/
theorem isImportPath_of_occurs {path : String}
    (h : ∀ p ∈ Piece.ofPath path, p.spelling.Occurs) : IsImportPath path := by
  refine ⟨(path.toList.splitOn ':').map String.ofList, by simp, ?_, ?_⟩
  · intro w hw
    obtain ⟨chars, hchars, rfl⟩ := List.mem_map.mp hw
    have hpiece : Piece.word (String.ofList chars) ∈ Piece.ofPath path :=
      Piece.mem_separated ":" (List.mem_map_of_mem hchars) (List.mem_singleton_self _)
    exact Spelling.Occurs.isWord (h _ hpiece) rfl
  · have hid : String.toList ∘ String.ofList = id := funext fun _ => String.toList_ofList
    rw [← String.toList_inj, String.toList_intercalate, List.map_map, hid, List.map_id]
    exact (List.intercalate_splitOn ':').symm

/-- A path has no other characters. -/
theorem IsImportPath.notMem {path : String} {c : Char} (h : IsImportPath path)
    (hc : isWordPart c = false) (hcolon : c ≠ ':') : c ∉ path.toList := by
  obtain ⟨words, -, hwords, rfl⟩ := h
  have hword : ∀ w ∈ words, c ∉ w.toList := by
    intro w hw hmem
    have hpart := (hwords w hw).2 c hmem
    rw [hc] at hpart
    cases hpart
  clear hwords
  induction words with
  | nil => simp
  | cons w words ih =>
    have hrest := ih fun v hv => hword v (List.mem_cons_of_mem w hv)
    have hfirst := hword w List.mem_cons_self
    cases words with
    | nil => simpa using hfirst
    | cons v words =>
      rw [String.intercalate_cons_cons, String.toList_append, String.toList_append]
      simp only [List.mem_append, not_or]
      exact ⟨⟨hfirst, by simpa using hcolon⟩, hrest⟩

/-! ### What a call returns -/

/-- What a call returns in front of the end of the text. -/
structure Node.IsReturned (node : Node) : Prop where
  isTopLevel : node.IsTopLevel
  isImportPath : ∀ path newName isLocal l, node = .importDecl path newName isLocal l →
    IsImportPath path

/-- **Every statement that is returned has the right form**, from whatever position of the text it
is read. -/
theorem Reader.isReturned_of_next {path source : String} {r r' : Reader} {node : Node}
    (hr : r.pending <:+ sourceLexemes path source) (h : r.next = .ok (node, r'))
    (hnode : node.isEndOfFile = false) :
    node.IsReturned ∧ r'.pending <:+ sourceLexemes path source := by
  obtain ⟨block, last, hpending, hrun, -⟩ := exists_block_of_next h hnode
  rw [hpending, List.append_cons] at hr
  have htokens : (block ++ [last]).map Lexeme.token ⊆ tokenize path source := by
    intro t ht
    obtain ⟨l, hl, rfl⟩ := List.mem_map.mp ht
    exact mem_tokenize_of_mem (hr.subset (List.mem_append_left _ hl))
  refine ⟨⟨(Open.wellFormed_initial.run hrun).2 node List.mem_cons_self, ?_⟩,
    (List.suffix_append _ _).trans hr⟩
  rintro name newName isLocal l rfl
  have hoccurs := Open.occurs_of_run htokens hrun _ List.mem_cons_self
  exact isImportPath_of_occurs fun p hp => hoccurs p (by simp [Node.pieces, hp])

end Dwo
