import Dwo.Proofs.Token.Order
import Dwo.Proofs.Token.Relexing

/-!
# The places of tokens

A scanner keeps the row and the column of its position and changes them with every character that it
moves over. `placeBehind` counts them from the text in front of a place instead: a row for each
newline, and a column for each character behind the last of them. The main result,
`token_places_exact`, says that the two agree for every token that a scanner ever returns, the one
that marks the end included, and that the tokens of a source text stand in the order of reading.

What a scanner is about to return is given by `Finds`: a position of a source text with the lexemes
that are found from there on.

`Finds` is kept by every call (`finds_after`): a call returns the first of the lexemes and
leaves the others, and at the end it returns the token that marks the end and stays where it is.
The place of a lexeme is the place of a position that is reached by moving over a text from the
opening, so the result comes down to one induction over characters.
-/

namespace Dwo

/-! ### Counting rows and columns -/

/-- The place behind a text, as counted from its newlines and from the characters of its last
line. -/
def placeBehind (path : String) (text : List Char) : Location where
  path := path
  row := 1 + text.count '\n'
  column := (text.rtakeWhile (· != '\n')).length

/-- From the start of a row, the column is the length of the last line. -/
theorem Cursor.column_past {c : Cursor} (h : c.column = 0) (text : List Char) :
    (c.past text).column = (text.rtakeWhile (· != '\n')).length := by
  -- A line is counted from its end, so characters are added at the end.
  induction text using List.reverseRecOn with
  | nil => exact h
  | append_singleton text ch ih =>
    rw [past_append, past_cons, past_nil, advance, List.rtakeWhile_concat]
    by_cases hch : ch = '\n'
    · simp [hch]
    · simp [hch, ih]

/-- Places are counted from behind the mark, as if it were not there. -/
private theorem location_past_opening (path source : String) (text : List Char) :
    ((opening source).1.past text).location path = placeBehind path text := by
  have hstart : (opening source).1.row = 1 ∧ (opening source).1.column = 0 := by
    rw [opening]
    split
    · exact ⟨rfl, rfl⟩
    · split <;> exact ⟨rfl, rfl⟩
  rw [Cursor.location, Cursor.row_past, Cursor.column_past hstart.2, hstart.1, placeBehind]

/-- Reading starts behind the bytes of a byte order mark, if there is one. -/
theorem exists_mark_offset (source : String) :
    ∃ mark, source = mark ++ String.ofList (opening source).2 ∧
      (mark = "\ufeff" ∨ mark = "" ∧ source.toList.head? ≠ some '\ufeff') ∧
      (opening source).1.offset = mark.utf8ByteSize := by
  obtain ⟨mark, hsource, hmark⟩ := exists_mark source
  obtain ⟨front, hsource', hoffset⟩ := Scanner.isAt_opening source
  obtain rfl : mark = front := List.append_cancel_right (hsource.symm.trans hsource')
  refine ⟨String.ofList mark, ?_, ?_, hoffset⟩
  · rw [← String.ofList_append, ← hsource, String.ofList_toList]
  · rcases hmark with rfl | ⟨rfl, hhead⟩
    · exact .inl rfl
    · refine .inr ⟨String.ofList_nil, ?_⟩
      rwa [hsource]

/-! ### What a scanner finds -/

/-- At the position `c` of a source text, the lexemes that are still to be found are `ls`. -/
def Finds (path source : String) (c : Cursor) (ls : List Lexeme) : Prop :=
  ∃ taken left, (opening source).2 = taken ++ left ∧ c = (opening source).1.past taken ∧
    lexemes path c left = ls

/-- From the opening of a source, all of its lexemes are found. -/
theorem finds_opening (path source : String) :
    Finds path source (opening source).1 (sourceLexemes path source) :=
  ⟨[], (opening source).2, rfl, rfl, rfl⟩

/-- From the end of a source, nothing is found. -/
theorem finds_closing (path source : String) : Finds path source (closing source) [] :=
  ⟨(opening source).2, [], (List.append_nil _).symm, rfl, lexemes_of_skipGap_eq_nil rfl path⟩

namespace Finds

variable {path source : String} {c : Cursor} {l : Lexeme} {ls : List Lexeme}

/-- With no lexeme left, a scanner goes to the end of its text. -/
theorem next_of_nil (h : Finds path source c []) :
    Scanner.next ⟨path, source, c⟩ =
      (closingToken path source, ⟨path, source, closing source⟩) := by
  obtain ⟨taken, left, htext, rfl, hls⟩ := h
  rw [Scanner.next_past htext]
  cases hscan : scan path ((opening source).1.past taken) left with
  | done stop =>
    rw [eq_closing_of_scan_eq_done htext hscan]
    rfl
  | found l rest =>
    rw [lexemes_eq_cons_iff.mpr ⟨rest, hscan, rfl⟩] at hls
    cases hls

/-- A lexeme that is left is found behind a gap, and then those behind it are left. -/
theorem exists_of_cons (h : Finds path source c (l :: ls)) :
    ∃ front word rest, (opening source).2 = front ++ (word ++ rest) ∧ word ≠ [] ∧
      c.offset ≤ ((opening source).1.past front).offset ∧ l.token.text = String.ofList word ∧
      l.token.location = ((opening source).1.past front).location path ∧
      l.stop = (opening source).1.past (front ++ word) ∧
      Scanner.next ⟨path, source, c⟩ = (l.token, ⟨path, source, l.stop⟩) ∧
      Finds path source l.stop ls := by
  obtain ⟨taken, left, htext, rfl, hls⟩ := h
  obtain ⟨rest, hscan, hrest⟩ := lexemes_eq_cons_iff.mp hls
  obtain ⟨gap, word, rfl, hne, hword, hlocation, hstop⟩ := exists_word_of_scan_eq_found hscan
  have hsplit : (opening source).2 = taken ++ gap ++ (word ++ rest) := by
    rw [htext, List.append_assoc]
  have hmoved : ((opening source).1.past taken).past gap =
      (opening source).1.past (taken ++ gap) := (Cursor.past_append _ _ _).symm
  have hend : l.stop = (opening source).1.past (taken ++ gap ++ word) := by
    rw [hstop, hmoved, ← Cursor.past_append]
  refine ⟨taken ++ gap, word, rest, hsplit, hne, ?_, hword, hmoved ▸ hlocation, hend, ?_, ?_⟩
  · rw [← hmoved, Cursor.offset_past _ gap]
    exact Nat.le_add_right _ _
  · rw [Scanner.next_past htext, hscan]
  · exact ⟨taken ++ gap ++ word, rest, by rw [hsplit, List.append_assoc _ word], hend, hrest⟩

end Finds

/-- The scanner behind so many tokens. -/
def Scanner.after (s : Scanner) : ℕ → Scanner
  | 0 => s
  | n + 1 => (s.after n).next.2

/-- **A scanner returns the tokens of its text one by one**: behind `n` of them, the others are
left. -/
theorem finds_after (path source : String) (n : ℕ) :
    ∃ c, (Scanner.ofSource path source).after n = ⟨path, source, c⟩ ∧
      Finds path source c ((sourceLexemes path source).drop n) := by
  induction n with
  | zero => exact ⟨_, Scanner.ofSource_eq path source, finds_opening path source⟩
  | succ n ih =>
    obtain ⟨c, hafter, hfinds⟩ := ih
    rw [Scanner.after, hafter]
    cases hdrop : (sourceLexemes path source).drop n with
    | nil =>
      rw [hdrop] at hfinds
      have hlater : (sourceLexemes path source).drop (n + 1) = [] := by
        rw [← List.tail_drop, hdrop, List.tail_nil]
      rw [hfinds.next_of_nil, hlater]
      exact ⟨_, rfl, finds_closing path source⟩
    | cons l ls =>
      rw [hdrop] at hfinds
      have hlater : (sourceLexemes path source).drop (n + 1) = ls := by
        rw [← List.tail_drop, hdrop, List.tail_cons]
      obtain ⟨_, _, _, -, -, -, -, -, -, hnext, hrest⟩ := hfinds.exists_of_cons
      rw [hnext, hlater]
      exact ⟨_, rfl, hrest⟩

/-! ### Places -/

/-- What is found at a position has the place that is counted from the text in front of it. -/
theorem Finds.exists_place {path source : String} {c : Cursor} {ls : List Lexeme}
    (h : Finds path source c ls) :
    let found := Scanner.next ⟨path, source, c⟩
    found.1 = (ls.head?.map Lexeme.token).getD (closingToken path source) ∧
      ∃ front rest, (opening source).2 = front ++ (found.1.text.toList ++ rest) ∧
        found.2.cursor = (opening source).1.past (front ++ found.1.text.toList) ∧
        found.1.location = placeBehind path front ∧ (ls = [] → rest = []) := by
  cases ls with
  | nil =>
    rw [h.next_of_nil]
    refine ⟨rfl, (opening source).2, [], ?_, ?_, ?_, fun _ => rfl⟩
    · exact (List.append_nil _).symm
    · exact congrArg _ (List.append_nil _).symm
    · exact location_past_opening path source (opening source).2
  | cons l ls =>
    obtain ⟨front, word, rest, htext, -, -, hword, hlocation, hstop, hnext, -⟩ := h.exists_of_cons
    have hlist : l.token.text.toList = word := by rw [hword, String.toList_ofList]
    rw [hnext]
    refine ⟨rfl, front, rest, by rw [hlist]; exact htext, by rw [hlist]; exact hstop, ?_, ?_⟩
    · rw [hlocation, location_past_opening]
    · exact fun hnil => absurd hnil (List.cons_ne_nil l ls)

/-- **The places of tokens are exact.** The token that a scanner returns behind `n` others is the
next one of its source text, or the one that marks the end. It stands behind a part of the source
text, apart from a byte order mark, and the scanner stops right behind it. Its row is one more than
the number of newlines in that part, and its column is the number of characters behind the last of
these newlines; the end is marked behind the whole text. Along the tokens of a source text and its
end, the row grows, or else the column does. -/
theorem token_places_exact (path source : String) :
    (∀ n, let s := (Scanner.ofSource path source).after n
      s.next.1 = (tokenize path source)[n]?.getD (closingToken path source) ∧
      ∃ mark front rest : String, source = mark ++ front ++ s.next.1.text ++ rest ∧
        (mark = "\ufeff" ∨ mark = "" ∧ source.toList.head? ≠ some '\ufeff') ∧
        s.next.2.cursor.offset = (mark ++ front ++ s.next.1.text).utf8ByteSize ∧
        s.next.1.location.path = path ∧
        s.next.1.location.row = 1 + front.toList.count '\n' ∧
        s.next.1.location.column = (front.toList.rtakeWhile (· != '\n')).length ∧
        ((tokenize path source).length ≤ n → rest = "")) ∧
    (tokenize path source ++ [closingToken path source]).Pairwise fun t u =>
      t.location.row < u.location.row ∨
        t.location.row = u.location.row ∧ t.location.column < u.location.column := by
  constructor
  · intro n s
    obtain ⟨c, hafter, hfinds⟩ := finds_after path source n
    obtain ⟨htoken, front, rest, htext, hcursor, hlocation, hend⟩ := hfinds.exists_place
    obtain ⟨mark, hsource, hmark, hoffset⟩ := exists_mark_offset source
    have hs : s = ⟨path, source, c⟩ := hafter
    rw [← hs] at htoken htext hcursor hlocation
    refine ⟨?_, mark, String.ofList front, String.ofList rest, ?_, hmark, ?_, ?_, ?_, ?_, ?_⟩
    · rw [htoken, List.head?_drop, tokenize_eq, List.getElem?_map]
    · rw [hsource, htext, String.ofList_append, String.ofList_append, String.ofList_toList,
        String.append_assoc, String.append_assoc]
    · rw [hcursor, Cursor.offset_past, hoffset, ← String.utf8ByteSize_append,
        String.ofList_append, String.ofList_toList, String.append_assoc]
    · rw [hlocation, placeBehind]
    · rw [hlocation, placeBehind, String.toList_ofList]
    · rw [hlocation, placeBehind, String.toList_ofList]
    · intro hn
      rw [tokenize_eq, List.length_map] at hn
      rw [hend (List.drop_eq_nil_of_le hn), String.ofList_nil]
  · have horder := List.pairwise_map.mp (pairwise_position_tokenize path source)
    exact horder.imp Prod.Lex.toLex_lt_toLex.mp

end Dwo
