import Dwo.Proofs.Token.Bytes

/-!
# Scanning by bytes and by characters

From a position between two characters, a scanner that goes byte by byte passes over the same
gap, finds the same end of the token behind it and cuts off the same text as `scan`, which goes
character by character. The results are `Scanner.next_eq` for one token and `Scanner.trail_eq`
for all of them. Between the bytes of a character there is nothing to find: a scanner stands
there only while it passes over the character.

The case to be careful with is a string. Behind a backslash only one byte is protected, and the
character there may have more. These others neither end a line nor are they a quote or a
backslash, so they are passed over as well, one by one (`Cursor.IsAt.stringEnd_skipEscaped`).

The proof goes along the scanner. A gap is passed over comment by comment
(`Cursor.IsAt.tokenStart_eq`), the end of the token is found by its first byte
(`Cursor.IsAt.exists_tokenEnd_eq`), and what is between the two is a slice at positions between
characters, so it is a text. From there on `tokenize_eq` and its companions give the tokens of a
source text by its lexemes, and no later module looks at bytes.
-/

namespace Dwo

variable {source : String} {c : Cursor} {ch : Char} {left : List Char}

/-! ### Gaps -/

/-- The rest of a comment, with the newline that ends it. -/
def commentOf (left : List Char) : List Char :=
  left.takeWhile (· != '\n') ++ (left.dropWhile (· != '\n')).take 1

/-- The text behind a comment. -/
def behindComment (left : List Char) : List Char :=
  (left.dropWhile (· != '\n')).drop 1

/-- A comment and what is behind it make up the text. -/
private theorem commentOf_append_behindComment (left : List Char) :
    commentOf left ++ behindComment left = left := by
  rw [commentOf, behindComment, List.append_assoc, List.take_append_drop,
    List.takeWhile_append_dropWhile]

private theorem length_behindComment_lt {left : List Char} (h : left ≠ []) :
    (behindComment left).length < left.length := by
  have hlength := List.length_dropWhile_le (· != '\n') left
  have hpos := List.length_pos_iff.mpr h
  rw [behindComment, List.length_drop]
  omega

/-- A comment runs through the end of its line. -/
theorem skipGap_comment (c : Cursor) (left : List Char) :
    skipGap true c left = skipGap false (c.past (commentOf left)) (behindComment left) := by
  rw [commentOf, behindComment]
  induction left generalizing c with
  | nil => rfl
  | cons ch left ih =>
    rw [skipGap]
    by_cases hch : ch = '\n'
    · simp [hch]
    · have hne : (ch != '\n') = true := bne_iff_ne.mpr hch
      simp only [hne, ih, List.takeWhile_cons, List.dropWhile_cons, if_true, List.cons_append,
        Cursor.past_cons]

/-- Blanks are passed over one by one. -/
theorem skipGap_blanks (c : Cursor) (left : List Char) :
    skipGap false c left =
      skipGap false (c.past (left.takeWhile isBlank)) (left.dropWhile isBlank) := by
  induction left generalizing c with
  | nil => rfl
  | cons ch left ih =>
    by_cases hch : isBlank ch = true
    · rw [skipGap, if_pos hch, ih, List.takeWhile_cons_of_pos hch, List.dropWhile_cons_of_pos hch,
        Cursor.past_cons]
    · rw [List.takeWhile_cons_of_neg hch, List.dropWhile_cons_of_neg hch, Cursor.past_nil]

namespace Cursor.IsAt

/-- A comment is passed over as far as its line goes. -/
theorem skipComment_eq (h : c.IsAt source left) :
    c.skipComment source = c.past (commentOf left) := by
  have hsplit : c.IsAt source (left.takeWhile (· != '\n') ++ left.dropWhile (· != '\n')) := by
    rwa [List.takeWhile_append_dropWhile]
  have hline := hsplit.past
  rw [skipComment, h.bumpWhile_eq (.ne (by decide)), commentOf, past_append]
  cases hrest : left.dropWhile (· != '\n') with
  | nil =>
    rw [hrest] at hline
    rw [bump, hline.byteAt_of_nil, List.take_nil, past_nil]
  | cons ch rest =>
    have hch : ch = '\n' := by
      have hhead := List.head?_dropWhile_not (· != '\n') left
      rw [hrest] at hhead
      simpa using hhead
    subst hch
    rw [hrest] at hline
    rw [hline.bump_eq (by decide), List.take_succ_cons, List.take_zero, past_cons, past_nil]

/-- **Gaps are the same by bytes and by characters.** -/
theorem tokenStart_eq (h : c.IsAt source left) :
    c.tokenStart source = (skipGap false c left).1 := by
  induction hn : left.length using Nat.strong_induction_on generalizing c left with
  | _ n ih =>
  -- The induction is on the length of the text, because a comment is passed over as a whole.
  have hblank : c.bumpWhile source isBlankByte = c.past (left.takeWhile isBlank) :=
    h.bumpWhile_eq refines_isBlank
  have hsplit : c.IsAt source (left.takeWhile isBlank ++ left.dropWhile isBlank) := by
    rwa [List.takeWhile_append_dropWhile]
  have hat := hsplit.past
  have hfirst := List.head?_dropWhile_not isBlank left
  have hlength := List.length_dropWhile_le isBlank left
  rw [skipGap_blanks, tokenStart, hblank]
  generalize c.past (left.takeWhile isBlank) = here at hat ⊢
  generalize left.dropWhile isBlank = rest at hat hfirst hlength ⊢
  have hslash : byteAt source here.offset = some '/'.toUInt8 ↔ rest.head? = some '/' :=
    hat.byteAt_eq_some_iff (by decide)
  cases rest with
  | nil =>
    rw [dif_neg (by simp [hslash])]
    rfl
  | cons ch rest =>
    have hch : ¬isBlank ch = true := by simpa using hfirst
    have hsecond : byteAt source (here.advance ch).offset = some '/'.toUInt8 ↔
        rest.head? = some '/' := hat.advance.byteAt_eq_some_iff (by decide)
    rw [skipGap, if_neg hch]
    split
    -- A comment, by the two slashes that both find.
    · next hcomment =>
      obtain rfl : ch = '/' := by simpa using hslash.mp hcomment.1
      have hrest : rest.head? = some '/' := hsecond.mp hcomment.2
      have hskip : skipGap true (here.advance '/') rest = skipGap true here ('/' :: rest) := rfl
      rw [if_pos ⟨rfl, hrest⟩, hskip, skipGap_comment, hat.skipComment_eq]
      have hlt := length_behindComment_lt (List.cons_ne_nil '/' rest)
      refine ih _ (by omega) ?_ rfl
      rw [← commentOf_append_behindComment ('/' :: rest)] at hat
      exact hat.past
    · next hcomment =>
      rw [if_neg]
      rintro ⟨rfl, hrest⟩
      exact hcomment ⟨hslash.mpr rfl, hsecond.mpr hrest⟩

end Cursor.IsAt

/-! ### Quoted tokens -/

namespace Cursor

private theorem stringEnd_of_none (h : byteAt source c.offset = none) :
    c.stringEnd source = (.unknown, c) := by
  rw [stringEnd]
  split
  · rfl
  · next h' => cases h.symm.trans h'

private theorem stringEnd_of_some {b : UInt8} (h : byteAt source c.offset = some b) :
    c.stringEnd source =
      if b = '\n'.toUInt8 then (.unknown, c)
      else if b = '"'.toUInt8 then (.string, c.bump source)
      else if b = '\\'.toUInt8 then ((c.bump source).skipEscaped source).stringEnd source
      else (c.bump source).stringEnd source := by
  conv_lhs => rw [stringEnd]
  split
  · next h' => cases h.symm.trans h'
  · next h' => cases h.symm.trans h'; rfl

/-- Bytes without a meaning of their own are passed over. -/
theorem stringEnd_of_plain {plain bytes : List UInt8}
    (hplain : ∀ b ∈ plain, b ≠ '\n'.toUInt8 ∧ b ≠ '"'.toUInt8 ∧ b ≠ '\\'.toUInt8)
    (h : bytesFrom source c.offset = plain ++ bytes) :
    c.stringEnd source = (c.overBytes plain).stringEnd source := by
  induction plain generalizing c with
  | nil => rfl
  | cons b plain ih =>
    obtain ⟨⟨hline, hquote, hbackslash⟩, hrest⟩ := List.forall_mem_cons.mp hplain
    obtain ⟨hbump, hbytes⟩ := bump_of_bytesFrom h
    have hsome : byteAt source c.offset = some b := by
      rw [byteAt_eq_head?, h]
      rfl
    rw [stringEnd_of_some hsome, if_neg hline, if_neg hquote, if_neg hbackslash, hbump,
      ih hrest hbytes, overBytes_cons]

namespace IsAt

/-- A string ends in front of a line feed, which no backslash escapes. -/
private theorem stringEnd_newline (h : c.IsAt source ('\n' :: left)) :
    c.stringEnd source = (.unknown, c) ∧ c.skipEscaped source = c := by
  have hbyte : byteAt source c.offset = some '\n'.toUInt8 :=
    (h.byteAt_eq_some_iff (by decide)).mpr rfl
  constructor
  · rw [stringEnd_of_some hbyte, if_pos rfl]
  · rw [skipEscaped, hbyte]
    exact if_pos rfl

/-- A quote that is not escaped closes the string. -/
private theorem stringEnd_quote (h : c.IsAt source ('"' :: left)) :
    c.stringEnd source = (.string, c.advance '"') := by
  have hbyte : byteAt source c.offset = some '"'.toUInt8 :=
    (h.byteAt_eq_some_iff (by decide)).mpr rfl
  rw [stringEnd_of_some hbyte, if_neg (by decide), if_pos rfl, h.bump_eq (by decide)]

/-- Behind a backslash the scanner skips what is escaped before it looks for the quote
again. -/
private theorem stringEnd_backslash (h : c.IsAt source ('\\' :: left)) :
    c.stringEnd source = ((c.advance '\\').skipEscaped source).stringEnd source := by
  have hbyte : byteAt source c.offset = some '\\'.toUInt8 :=
    (h.byteAt_eq_some_iff (by decide)).mpr rfl
  rw [stringEnd_of_some hbyte, if_neg (by decide), if_neg (by decide), if_pos rfl,
    h.bump_eq (by decide)]

/-- Over a character that neither ends a line nor is a quote or a backslash, reading a string goes
on. -/
theorem stringEnd_of_cons (h : c.IsAt source (ch :: left)) (hline : ch ≠ '\n') (hquote : ch ≠ '"')
    (hbackslash : ch ≠ '\\') : c.stringEnd source = (c.advance ch).stringEnd source := by
  have hplain : ∀ b ∈ String.utf8EncodeChar ch,
      b ≠ '\n'.toUInt8 ∧ b ≠ '"'.toUInt8 ∧ b ≠ '\\'.toUInt8 := by
    intro b hb
    rw [Ne, Ne, Ne, eq_toUInt8_iff (by decide) hb, eq_toUInt8_iff (by decide) hb,
      eq_toUInt8_iff (by decide) hb]
    exact ⟨hline, hquote, hbackslash⟩
  rw [stringEnd_of_plain hplain h.bytesFrom_eq, overBytes_utf8EncodeChar]

/-- Behind a backslash only one byte is protected. The others of that character are passed over
because they have no meaning of their own. -/
theorem stringEnd_skipEscaped (h : c.IsAt source (ch :: left)) (hline : ch ≠ '\n') :
    (c.skipEscaped source).stringEnd source = (c.advance ch).stringEnd source := by
  obtain ⟨b, hb, hsome⟩ := h.exists_byteAt_of_cons
  have hnot : b ≠ '\n'.toUInt8 := by rwa [Ne, eq_toUInt8_iff (by decide) hb]
  rw [skipEscaped, hsome]
  dsimp only
  rw [if_neg hnot]
  rcases utf8EncodeChar_cases ch with ⟨hch, -⟩ | ⟨-, first, rest, hbytes, -, hrest⟩
  · rw [h.bump_eq hch]
  · have hfrom : bytesFrom source c.offset = first :: (rest ++ encode left) := by
      rw [h.bytesFrom_eq, encode_cons, hbytes, List.cons_append]
    obtain ⟨hbump, hbehind⟩ := bump_of_bytesFrom hfrom
    -- All bytes behind the first are `0x80` at least, so none of them is taken for a character.
    have hplain : ∀ b ∈ rest, b ≠ '\n'.toUInt8 ∧ b ≠ '"'.toUInt8 ∧ b ≠ '\\'.toUInt8 := by
      intro b hb
      have hle := (hrest b hb).1
      refine ⟨?_, ?_, ?_⟩ <;> (rintro rfl; exact absurd hle (by decide))
    rw [hbump, stringEnd_of_plain hplain hbehind, ← overBytes_cons, ← hbytes,
      overBytes_utf8EncodeChar]

/-- The characters of a lexeme that is one longer. -/
theorem past_take_succ {n k : ℕ} (h : n + 1 ≤ k) (c : Cursor) (ch : Char) (left : List Char) :
    c.past ((ch :: left).take (k - n)) = (c.advance ch).past (left.take (k - (n + 1))) := by
  obtain ⟨m, rfl⟩ := Nat.exists_eq_add_of_le h
  rw [Nat.add_sub_cancel_left, show n + 1 + m - n = m + 1 by omega, List.take_succ_cons, past_cons]

/-- **A quoted token ends at the same place by bytes and by characters.** Before it, `n` characters
have been read; in the second case the last of them was a backslash. -/
theorem stringEnd_eq (n : ℕ) (h : c.IsAt source left) :
    c.stringEnd source = ((quotedExtent false n left).1,
        c.past (left.take ((quotedExtent false n left).2 - n))) ∧
      (c.skipEscaped source).stringEnd source = ((quotedExtent true n left).1,
        c.past (left.take ((quotedExtent true n left).2 - n))) := by
  induction left generalizing c n with
  | nil =>
    have hnone := h.byteAt_of_nil
    have hskip : c.skipEscaped source = c := by rw [skipEscaped, hnone]
    rw [hskip, stringEnd_of_none hnone]
    simp [quotedExtent]
  | cons ch left ih =>
    by_cases hline : ch = '\n'
    · subst hline
      rw [h.stringEnd_newline.2, h.stringEnd_newline.1]
      simp [quotedExtent]
    -- Both parts go through the induction together: a backslash leads from the first to the
    -- second, and any character behind it leads back.
    obtain ⟨hplain, hescaped⟩ := ih (n + 1) h.advance
    have hle := le_quotedExtent false (n + 1) left
    constructor
    · by_cases hquote : ch = '"'
      · subst hquote
        rw [h.stringEnd_quote]
        simp [quotedExtent]
      by_cases hbackslash : ch = '\\'
      · subst hbackslash
        have hle' := le_quotedExtent true (n + 1) left
        have hextent : quotedExtent false n ('\\' :: left) = quotedExtent true (n + 1) left := rfl
        rw [h.stringEnd_backslash, hescaped, hextent, past_take_succ hle']
      · have hextent : quotedExtent false n (ch :: left) = quotedExtent false (n + 1) left := by
          rw [quotedExtent, if_neg hline, if_neg Bool.false_ne_true, if_neg hquote,
            beq_eq_false_iff_ne.mpr hbackslash]
        rw [h.stringEnd_of_cons hline hquote hbackslash, hplain, hextent, past_take_succ hle]
    · rw [h.stringEnd_skipEscaped hline, hplain, quotedExtent, if_neg hline, if_pos rfl,
        past_take_succ hle]

/-! ### Tokens -/

/-- **A token ends at the same place by bytes and by characters**, if it does not start with a
blank. -/
theorem exists_tokenEnd_eq (h : c.IsAt source (ch :: left)) (hblank : isBlank ch = false) :
    ∃ first, byteAt source c.offset = some first ∧
      c.tokenEnd source first =
        ((extent ch left).1, c.past ((ch :: left).take (extent ch left).2)) := by
  obtain ⟨first, hfirst, hbyte⟩ := h.exists_byteAt_of_cons
  refine ⟨first, hbyte, ?_⟩
  have htake (q : Char → Bool) (hq : q ch = true) :
      (ch :: left).take ((left.takeWhile q).length + 1) = (ch :: left).takeWhile q := by
    rw [List.takeWhile_cons_of_pos hq, List.take_succ_cons]
    exact congrArg _ (List.prefix_iff_eq_take.mp (List.takeWhile_prefix q)).symm
  -- The first byte of a character decides on the class of the token as the character does.
  rw [tokenEnd, extent, refines_isWordStart ch first hfirst, refines_isDigit ch first hfirst,
    refines_isPunctuation ch first hfirst]
  split
  · next hword =>
    rw [h.bumpWhile_eq refines_isWordPart, htake _ (of_isWordStart hword).1]
  · split
    · next hdigit => rw [h.bumpWhile_eq refines_isDigit, htake _ hdigit]
    · by_cases hquote : ch = '"'
      · subst hquote
        have hle := le_quotedExtent false 1 left
        rw [if_pos ((eq_toUInt8_iff (by decide) hfirst).mpr rfl), if_pos rfl,
          h.bump_eq (by decide), (h.advance.stringEnd_eq 1).1]
        exact congrArg _ (past_take_succ hle c '"' left).symm
      · rw [if_neg (mt (eq_toUInt8_iff (by decide) hfirst).mp hquote), if_neg hquote]
        split
        · next hpunctuation =>
          rw [h.bump_eq (toNat_lt_of_isPunctuation hpunctuation)]
          rfl
        · rw [h.bumpWhile_eq refines_isBlank.not, htake _ (by simp [hblank])]

end IsAt

end Cursor

/-! ### Scanners -/

namespace Scanner

/-- **A scanner finds what `scan` finds**, from any position between two characters. -/
theorem next_eq (path : String) (h : c.IsAt source left) :
    next ⟨path, source, c⟩ =
      match scan path c left with
      | .done stop => (.endOfFile (stop.location path), ⟨path, source, stop⟩)
      | .found lexeme _ => (lexeme.token, ⟨path, source, lexeme.stop⟩) := by
  obtain ⟨gap, htext, hstart⟩ := exists_skipGap_eq false c left
  have hat : (skipGap false c left).1.IsAt source (skipGap false c left).2 := by
    rw [htext] at h
    rw [hstart]
    exact h.past
  have htoken := h.tokenStart_eq
  rw [next, htoken, scan]
  cases hgap : skipGap false c left with
  | mk start rest =>
    rw [hgap] at hat
    cases rest with
    | nil => rw [hat.byteAt_of_nil]
    | cons ch rest =>
      obtain ⟨first, hfirst, hend⟩ := hat.exists_tokenEnd_eq (of_skipGap_eq_cons hgap).1
      -- The token is a slice between two such positions, so cutting it does not fail.
      have hword : start.IsAt source
          ((ch :: rest).take (extent ch rest).2 ++ (ch :: rest).drop (extent ch rest).2) := by
        rwa [List.take_append_drop]
      simp only [hfirst, hend, hword.slice?_eq, Option.getD_some, String.toList_ofList]

/-- **A scanner returns all lexemes that are left**, and stops at the end of its text. -/
theorem trail_eq (path : String) (h : c.IsAt source left) :
    trail ⟨path, source, c⟩ = (lexemes path c left, ⟨path, source, c.past left⟩) := by
  fun_induction lexemes path c left with
  | case1 c left stop hscan =>
    rw [trail, next_eq path h, hscan, ← eq_past_of_scan_eq_done hscan]
    rfl
  | case2 c left l rest hscan ih =>
    obtain ⟨taken, rfl, hstop⟩ := exists_of_scan_eq_found hscan
    have hat : l.stop.IsAt source rest := by
      rw [hstop]
      exact h.past
    have hkind := Bool.eq_false_iff.mp (isEndOfFile_of_scan_eq_found hscan)
    rw [trail, next_eq path h, hscan]
    dsimp only
    rw [dif_neg hkind, ih hat, Cursor.past_append, ← hstop]

/-! ### Whole source texts -/

/-- Reading starts between two characters. -/
theorem isAt_opening (source : String) : (opening source).1.IsAt source (opening source).2 := by
  rw [opening]
  split
  · next h => exact ⟨[], h, by simp [Cursor.start]⟩
  · next c cs h =>
    split
    · exact ⟨[c], h, by simp⟩
    · exact ⟨[], h, by simp [Cursor.start]⟩

/-- The first bytes of a text tell its first character. -/
theorem head?_eq_of_encode_eq {text : List Char} {ch : Char} {rest : List UInt8}
    (h : encode text = String.utf8EncodeChar ch ++ rest) : text.head? = some ch := by
  cases text with
  | nil =>
    obtain ⟨first, bytes, hbytes⟩ := exists_utf8EncodeChar_eq_cons ch
    rw [hbytes] at h
    cases h
  | cons d text =>
    rw [encode_cons] at h
    have hdecode := congrArg (fun bytes => bytes.toByteArray.utf8DecodeChar? 0) h
    simp only [List.toByteArray_append, ByteArray.utf8DecodeChar?_utf8EncodeChar_append] at hdecode
    exact hdecode

/-- A text starts with the bytes of a byte order mark only if it starts with that mark. -/
theorem isMarked_iff (source : String) :
    (byteAt source 0 = some 0xef ∧ byteAt source 1 = some 0xbb ∧ byteAt source 2 = some 0xbf) ↔
      source.toList.head? = some '\ufeff' := by
  have hmark : String.utf8EncodeChar '\ufeff' = [0xef, 0xbb, 0xbf] := by decide
  have hbyte (n : ℕ) : byteAt source n = (encode source.toList)[n]? := by
    have hat : Cursor.start.IsAt source source.toList := ⟨[], rfl, by simp [Cursor.start]⟩
    rw [byteAt_eq_head?, bytesFrom, List.head?_drop, ← hat.bytesFrom_eq]
    rfl
  simp only [hbyte]
  generalize source.toList = text
  constructor
  · rintro ⟨h0, h1, h2⟩
    rw [← List.head?_eq_getElem?] at h0
    obtain ⟨bytes, hbytes⟩ := List.head?_eq_some_iff.mp h0
    rw [hbytes, List.getElem?_cons_succ, ← List.head?_eq_getElem?] at h1
    obtain ⟨bytes, rfl⟩ := List.head?_eq_some_iff.mp h1
    rw [hbytes, List.getElem?_cons_succ, List.getElem?_cons_succ, ← List.head?_eq_getElem?] at h2
    obtain ⟨rest, rfl⟩ := List.head?_eq_some_iff.mp h2
    -- Three bytes have been found one by one; together they are the encoding of the mark.
    have hsplit : encode text = String.utf8EncodeChar '\ufeff' ++ rest := by
      rw [hbytes, hmark]
      rfl
    exact head?_eq_of_encode_eq hsplit
  · intro h
    obtain ⟨rest, rfl⟩ := List.head?_eq_some_iff.mp h
    rw [encode_cons, hmark]
    exact ⟨rfl, rfl, rfl⟩

/-- A scanner starts where reading starts. -/
theorem ofSource_eq (path source : String) :
    ofSource path source = ⟨path, source, (opening source).1⟩ := by
  simp only [ofSource, isMarked_iff]
  rw [opening]
  cases source.toList with
  | nil => rfl
  | cons ch rest =>
    simp only [List.head?_cons, Option.some_inj]
    split
    · next hch =>
      subst hch
      rfl
    · rfl

variable {taken : List Char}

/-- What a scanner finds behind a part of its source. -/
theorem next_past (h : (opening source).2 = taken ++ left) (path : String) :
    next ⟨path, source, (opening source).1.past taken⟩ =
      match scan path ((opening source).1.past taken) left with
      | .done stop => (.endOfFile (stop.location path), ⟨path, source, stop⟩)
      | .found lexeme _ => (lexeme.token, ⟨path, source, lexeme.stop⟩) := by
  have hat := isAt_opening source
  rw [h] at hat
  exact next_eq path hat.past

/-- What is left to a scanner behind a part of its source. -/
theorem trail_past (h : (opening source).2 = taken ++ left) (path : String) :
    trail ⟨path, source, (opening source).1.past taken⟩ =
      (lexemes path ((opening source).1.past taken) left, ⟨path, source, closing source⟩) := by
  have hat := isAt_opening source
  rw [h] at hat
  rw [trail_eq path hat.past, closing, h, Cursor.past_append]

/-- Draining a fresh scanner gives the lexemes of the source and leaves it at the end. -/
theorem trail_ofSource (path source : String) :
    (ofSource path source).trail =
      (sourceLexemes path source, ⟨path, source, closing source⟩) := by
  rw [ofSource_eq]
  exact trail_eq path (isAt_opening source)

end Scanner

/-- **The tokens of a source text are those of its lexemes.** -/
theorem tokenize_eq (path source : String) :
    tokenize path source = (sourceLexemes path source).map Lexeme.token := by
  rw [tokenize, Scanner.drain, Scanner.trail_ofSource]

/-- The token of every scanned lexeme is in the listing. -/
theorem mem_tokenize_of_mem {path source : String} {l : Lexeme}
    (h : l ∈ sourceLexemes path source) : l.token ∈ tokenize path source := by
  rw [tokenize_eq]
  exact List.mem_map_of_mem h

end Dwo
