import Dwo.Proofs.Token.Relexing

/-!
# Lines

Cutting a text starts over at every newline: a gap goes on behind it, a comment ends with it, and no
token reaches beyond it. So the lexemes of two texts with a newline between them are those of the
first text and those of the second one, further down (`sourceLexemes_append_newline`). Further down
means that rows and bytes are counted from elsewhere (`Lexeme.below`); columns start over with the
line. The main result, `tokenize_append_newline`, says the same of tokens.

There are two steps to it. First, cutting does not look at the position it starts from, and only
passes it on (`lexemes_below`). Second, a newline ends every lexeme and every comment, so
cutting a text that has a newline in it gives what cutting the part in front of the newline
gives, and then goes on behind it (`lexemes_append_newline`). A mark at the start of the second
text would be a token there, which is why the main results are about texts without one.
-/

namespace Dwo

/-! ### Further down -/

/-- The same column, some rows further down. -/
def Location.below (rows : Nat) (l : Location) : Location :=
  { l with row := l.row + rows }

/-- The position of a text that has so many bytes and rows in front of it. -/
def Cursor.below (bytes rows : Nat) (c : Cursor) : Cursor :=
  ⟨c.offset + bytes, c.row + rows, c.column⟩

/-- A lexeme of a text that has so many bytes and rows in front of it. -/
def Lexeme.below (bytes rows : Nat) (l : Lexeme) : Lexeme :=
  ⟨l.token.relocate (Location.below rows), l.stop.below bytes rows⟩

section

variable (bytes rows : Nat)

namespace Cursor

private theorem advance_below (c : Cursor) (ch : Char) :
    (c.below bytes rows).advance ch = (c.advance ch).below bytes rows := by
  rw [advance, advance]
  split
  · simp only [below, Nat.add_right_comm]
  · simp only [below, Nat.add_right_comm]

private theorem past_below (c : Cursor) (text : List Char) :
    (c.below bytes rows).past text = (c.past text).below bytes rows := by
  induction text generalizing c with
  | nil => rfl
  | cons ch text ih => rw [past_cons, past_cons, advance_below, ih]

end Cursor

/-- Where a gap ends does not depend on the lines above it. -/
private theorem skipGap_below (inComment : Bool) (cursor : Cursor) (text : List Char) :
    skipGap inComment (cursor.below bytes rows) text =
      ((skipGap inComment cursor text).1.below bytes rows, (skipGap inComment cursor text).2) := by
  have hleft := skipGap_snd inComment (cursor.below bytes rows) cursor text
  obtain ⟨gap, htext, hcursor⟩ := exists_skipGap_eq inComment cursor text
  obtain ⟨gap', htext', hcursor'⟩ := exists_skipGap_eq inComment (cursor.below bytes rows) text
  rw [hleft] at htext'
  obtain rfl : gap = gap' := List.append_cancel_right (htext.symm.trans htext')
  rw [← hleft, hcursor, ← Cursor.past_below, ← hcursor']

/-- What is cut off does not depend on the lines above it, only its place does. -/
private theorem lexemeAt_below (path : String) (start : Cursor) (c : Char) (cs : List Char) :
    lexemeAt path (start.below bytes rows) c cs =
      (lexemeAt path start c cs).below bytes rows := by
  simp only [lexemeAt, Cursor.past_below]
  rfl

/-- **Cutting does not depend on the place where a text starts**, apart from the places that it
gives to lexemes. -/
theorem lexemes_below (path : String) (cursor : Cursor) (text : List Char) :
    lexemes path (cursor.below bytes rows) text =
      (lexemes path cursor text).map (Lexeme.below bytes rows) := by
  fun_induction lexemes path cursor text with
  | case1 cursor text stop hscan =>
    have hskip := skipGap_below bytes rows false cursor text
    rw [scan_eq_done_iff.mp hscan] at hskip
    rw [lexemes_of_skipGap_eq_nil hskip, List.map_nil]
  | case2 cursor text l rest hscan ih =>
    obtain ⟨start, c, cs, hgap, rfl, rfl⟩ := scan_eq_found_iff.mp hscan
    have hskip := skipGap_below bytes rows false cursor text
    rw [hgap] at hskip
    rw [lexemes_of_skipGap_eq_cons hskip, lexemeAt_below, List.map_cons, ← ih]
    rfl

end

/-! ### Newlines -/

/-- A gap that reaches a newline goes on behind it; what stands in front of the newline ends there
for good. -/
theorem skipGap_append_newline (inComment : Bool) (cursor : Cursor) (s t : List Char) :
    skipGap inComment cursor (s ++ '\n' :: t) =
      match skipGap inComment cursor s with
      | (stop, []) => skipGap false (stop.advance '\n') t
      | (start, c :: cs) => (start, c :: (cs ++ '\n' :: t)) := by
  fun_induction skipGap inComment cursor s with
  | case1 inComment cursor => cases inComment <;> rfl
  | case2 cursor c cs ih => exact ih
  | case3 cursor c cs hblank ih =>
    rw [List.cons_append, skipGap, if_pos hblank]
    exact ih
  | case4 cursor c cs hblank hslash ih =>
    have hslash' : c = '/' ∧ (cs ++ '\n' :: t).head? = some '/' := by
      rw [List.head?_append, hslash.2]
      exact ⟨hslash.1, rfl⟩
    rw [List.cons_append, skipGap, if_neg hblank, if_pos hslash']
    exact ih
  | case5 cursor c cs hblank hslash =>
    have hslash' : ¬ (c = '/' ∧ (cs ++ '\n' :: t).head? = some '/') := by
      rintro ⟨hc, hnext⟩
      cases cs with
      | nil => exact absurd hnext (by simp)
      | cons d cs => exact hslash ⟨hc, hnext⟩
    rw [List.cons_append, skipGap, if_neg hblank, if_neg hslash']

private theorem takeWhile_append_newline {p : Char → Bool} (hp : p '\n' = false)
    (cs t : List Char) : (cs ++ '\n' :: t).takeWhile p = cs.takeWhile p := by
  induction cs with
  | nil => simp [hp]
  | cons c cs ih => rw [List.cons_append, List.takeWhile_cons, List.takeWhile_cons, ih]

/-- A line feed ends a quoted string just as the end of the text does. -/
private theorem quotedExtent_append_newline (escaped : Bool) (length : Nat) (cs t : List Char) :
    quotedExtent escaped length (cs ++ '\n' :: t) = quotedExtent escaped length cs := by
  fun_induction quotedExtent escaped length cs with
  | case1 escaped length => rw [List.nil_append, quotedExtent, if_pos rfl]
  | case2 escaped length cs => rw [List.cons_append, quotedExtent, if_pos rfl]
  | case3 length c cs hc ih => rw [List.cons_append, quotedExtent, if_neg hc, if_pos rfl, ih]
  | case4 escaped length cs hc hescaped =>
    rw [List.cons_append, quotedExtent, if_neg hc, if_neg hescaped, if_pos rfl]
  | case5 escaped length c cs hc hescaped hquote ih =>
    rw [List.cons_append, quotedExtent, if_neg hc, if_neg hescaped, if_neg hquote, ih]

/-- No token reaches beyond a newline. -/
theorem extent_append_newline (c : Char) (cs t : List Char) :
    extent c (cs ++ '\n' :: t) = extent c cs := by
  rw [extent, extent, takeWhile_append_newline (by decide), takeWhile_append_newline (by decide),
    takeWhile_append_newline (by decide), quotedExtent_append_newline]

private theorem extent_le (c : Char) (cs : List Char) : (extent c cs).2 ≤ cs.length + 1 := by
  have hrun (p : Char → Bool) : (cs.takeWhile p).length + 1 ≤ cs.length + 1 :=
    Nat.succ_le_succ (List.takeWhile_sublist p).length_le
  rw [extent]
  split
  · exact hrun isWordPart
  split
  · exact hrun Char.isDigit
  split
  · obtain ⟨body, rest, hcs, -, hlength, -⟩ := exists_quotedExtent false 1 cs
    have hcount := congrArg List.length hcs
    rw [List.length_append] at hcount
    omega
  split
  · omega
  · exact hrun _

/-- No lexeme reaches over a line feed, so further lines do not change it. -/
private theorem lexemeAt_append_newline (path : String) (start : Cursor) (c : Char)
    (cs t : List Char) :
    lexemeAt path start c (cs ++ '\n' :: t) = lexemeAt path start c cs := by
  have htake : (c :: (cs ++ '\n' :: t)).take (extent c cs).2 = (c :: cs).take (extent c cs).2 := by
    rw [← List.cons_append, List.take_append_of_le_length (extent_le c cs)]
  rw [lexemeAt, lexemeAt, extent_append_newline, htake]

/-- **Cutting starts over at a newline.** -/
theorem lexemes_append_newline (path : String) (cursor : Cursor) (s t : List Char) :
    lexemes path cursor (s ++ '\n' :: t) =
      lexemes path cursor s ++ lexemes path ((cursor.past s).advance '\n') t := by
  fun_induction lexemes path cursor s with
  | case1 cursor s stop hscan =>
    have hgap := scan_eq_done_iff.mp hscan
    have hskip := skipGap_append_newline false cursor s t
    obtain ⟨gap, htext, hstop⟩ := exists_skipGap_eq false cursor s
    rw [hgap, List.append_nil] at htext
    rw [hgap, ← htext] at hstop
    rw [hgap] at hskip
    rw [lexemes_congr hskip, List.nil_append, ← hstop]
  | case2 cursor s l rest hscan ih =>
    obtain ⟨taken, htext, hstop⟩ := exists_of_scan_eq_found hscan
    obtain ⟨start, c, cs, hgap, rfl, rfl⟩ := scan_eq_found_iff.mp hscan
    have hskip := skipGap_append_newline false cursor s t
    rw [hgap] at hskip
    have hdrop : (c :: (cs ++ '\n' :: t)).drop (extent c cs).2 =
        (c :: cs).drop (extent c cs).2 ++ '\n' :: t := by
      rw [← List.cons_append, List.drop_append_of_le_length (extent_le c cs)]
    rw [lexemes_of_skipGap_eq_cons hskip, lexemeAt_append_newline, extent_append_newline, hdrop,
      ih, List.cons_append, htext, Cursor.past_append, ← hstop]

/-! ### Source texts -/

/-- Further lines do not change where a text opens. -/
private theorem opening_append_newline (s t : String) :
    opening (s ++ "\n" ++ t) = ((opening s).1, (opening s).2 ++ '\n' :: t.toList) := by
  have htext : (s ++ "\n" ++ t).toList = s.toList ++ '\n' :: t.toList := by simp
  rw [opening, opening, htext]
  cases s.toList with
  | nil => rfl
  | cons c cs =>
    by_cases hmark : c = '\ufeff'
    · simp [hmark]
    · simp [hmark]

/-- The last row is counted by the line feeds. -/
private theorem row_closing (s : String) : (closing s).row = s.toList.count '\n' + 1 := by
  rw [closing, Cursor.row_past, Nat.add_comm, opening]
  cases s.toList with
  | nil => rfl
  | cons c cs =>
    by_cases hmark : c = '\ufeff'
    · simp [hmark]
    · simp [hmark, Cursor.start]

/-- Behind a text and a newline, a row starts. -/
theorem advance_closing (s : String) :
    (closing s).advance '\n' =
      Cursor.start.below ((closing s).offset + 1) (s.toList.count '\n' + 1) := by
  rw [Cursor.advance, if_pos rfl, row_closing, Cursor.below, Nat.add_comm Cursor.start.offset,
    Nat.add_comm Cursor.start.row]
  rfl

/-- **The lexemes of two texts with a newline between them** are those of the first text and,
further down, those of the second. -/
theorem sourceLexemes_append_newline {t : String} (path s : String)
    (ht : t.toList.head? ≠ some '\ufeff') :
    sourceLexemes path (s ++ "\n" ++ t) =
      sourceLexemes path s ++ (sourceLexemes path t).map
        (Lexeme.below ((closing s).offset + 1) (s.toList.count '\n' + 1)) := by
  have hnext : ((opening s).1.past (opening s).2).advance '\n' =
      Cursor.start.below ((closing s).offset + 1) (s.toList.count '\n' + 1) := advance_closing s
  rw [sourceLexemes, opening_append_newline, lexemes_append_newline, hnext, lexemes_below,
    sourceLexemes, sourceLexemes, opening_of_head? ht]

/-- A text behind a full line ends where it would end alone, moved down by the lines above
it. -/
theorem closing_append_newline {t : String} (s : String)
    (ht : t.toList.head? ≠ some '\ufeff') :
    closing (s ++ "\n" ++ t) =
      (closing t).below ((closing s).offset + 1) (s.toList.count '\n' + 1) := by
  have hnext : ((opening s).1.past (opening s).2).advance '\n' =
      Cursor.start.below ((closing s).offset + 1) (s.toList.count '\n' + 1) := advance_closing s
  have hclosing : closing t = Cursor.start.past t.toList := by rw [closing, opening_of_head? ht]
  rw [closing, opening_append_newline, Cursor.past_append, Cursor.past_cons, hnext,
    Cursor.past_below, hclosing]

/-- **Cutting is local to lines.** If a text `t` without a byte order mark is put below a text `s`,
the tokens are those of `s`, and then those of `t` with the same columns, classes, texts and values,
as many rows further down as there are newlines in front of `t`. It does not matter where `s` ends:
in a string behind a backslash, in a comment, or behind a slash. -/
theorem tokenize_append_newline {t : String} (path s : String)
    (ht : t.toList.head? ≠ some '\ufeff') :
    tokenize path (s ++ "\n" ++ t) =
      tokenize path s ++ (tokenize path t).map fun u =>
        { u with
          location := { u.location with row := u.location.row + (1 + s.toList.count '\n') } } := by
  have hlexemes := congrArg (List.map Lexeme.token) (sourceLexemes_append_newline path s ht)
  rw [List.map_append, List.map_map] at hlexemes
  rw [Nat.add_comm 1, tokenize_eq, hlexemes, tokenize_eq, tokenize_eq, List.map_map]
  rfl

/-- A string that is open behind a backslash, above a quote, a comment and a slash. -/
theorem tokenize_append_newline_backslash :
    let s := "let a := \"b\\"
    let t := "\"; // c\n/"
    t.toList.head? ≠ some '\ufeff' ∧
      tokenize "m" (s ++ "\n" ++ t) =
        tokenize "m" s ++ (tokenize "m" t).map fun u =>
          { u with
            location :=
              { u.location with row := u.location.row + (1 + s.toList.count '\n') } } := by
  intro s t
  have hmark : t.toList.head? ≠ some '\ufeff' := by decide
  exact ⟨hmark, tokenize_append_newline "m" s hmark⟩

end Dwo
