import Dwo.Proofs.Token.Relexing

/-!
# Where strings end

A backslash in a string protects the character behind it, so a quote ends a string unless it is
protected. Whether it is can be told from the backslashes right in front of it: they protect
each other in pairs, and an odd one is left for the quote (`IsClosingQuote`). Cutting a string
keeps no count but one bit, whether the last character was a backslash that is not protected
itself; that bit is the parity of the backslashes read last (`isProtecting`).

The main result is `quoted_token_ends_at_closing_quote`: a token that starts with a quote is a
string up to the first closing quote of its line, and without one it is the whole rest of the
line.

The invariant of the induction relates the bit to the text that has been read: `quotedExtent` is
started with `isProtecting` of that text and returns the first closing quote behind it
(`quotedExtent_eq_or`). Quotes that have been passed are not closing, and those further on are
judged by more text, so both parts of the statement are carried through the induction together.
-/

namespace Dwo

/-! ### Closing quotes -/

/-- The number of backslashes at the end of a text. -/
def trailingBackslashes (text : List Char) : ℕ :=
  (text.rtakeWhile (· == '\\')).length

/-- At place `i` of the text behind an opening quote stands a quote, behind an even number of
backslashes. -/
def IsClosingQuote (text : List Char) (i : ℕ) : Prop :=
  text[i]? = some '"' ∧ Even (trailingBackslashes (text.take i))

instance (text : List Char) (i : ℕ) : Decidable (IsClosingQuote text i) :=
  inferInstanceAs (Decidable (_ ∧ _))

private theorem trailingBackslashes_concat (text : List Char) (c : Char) :
    trailingBackslashes (text ++ [c]) =
      if c = '\\' then trailingBackslashes text + 1 else 0 := by
  rw [trailingBackslashes, List.rtakeWhile_concat]
  by_cases hc : c = '\\'
  · simp [hc, trailingBackslashes]
  · simp [hc]

/-- Whether a quote closes is decided by what stands before it. -/
private theorem isClosingQuote_append_iff {text rest : List Char} {i : ℕ} (hi : i < text.length) :
    IsClosingQuote (text ++ rest) i ↔ IsClosingQuote text i := by
  rw [IsClosingQuote, List.getElem?_append_left hi, List.take_append_of_le_length hi.le]
  rfl

/-- A quote closes the text before it unless an odd run of backslashes escapes it. -/
private theorem isClosingQuote_length_iff {text rest : List Char} {c : Char} :
    IsClosingQuote (text ++ c :: rest) text.length ↔
      c = '"' ∧ Even (trailingBackslashes text) := by
  rw [IsClosingQuote, List.getElem?_append_right le_rfl, List.take_left]
  simp

private theorem lt_length_of_isClosingQuote {text : List Char} {i : ℕ} (h : IsClosingQuote text i) :
    i < text.length :=
  (List.getElem?_eq_some_iff.mp h.1).1

/-- A character that is not a closing quote leaves a text without one. -/
theorem not_isClosingQuote_concat {text : List Char} {c : Char}
    (htext : ∀ i, ¬ IsClosingQuote text i) (hc : ¬ (c = '"' ∧ Even (trailingBackslashes text))) :
    ∀ i, ¬ IsClosingQuote (text ++ [c]) i := by
  intro i hi
  have hle := lt_length_of_isClosingQuote hi
  rw [List.length_append, List.length_singleton] at hle
  rcases Nat.lt_succ_iff_lt_or_eq.mp hle with hlt | rfl
  · exact htext i ((isClosingQuote_append_iff hlt).mp hi)
  · exact hc (isClosingQuote_length_iff.mp hi)

/-! ### Scanning -/

/-- Whether the last character of a text protects the next one. -/
def isProtecting (text : List Char) : Bool :=
  decide (Odd (trailingBackslashes text))

/-- Scanning goes on behind a character that neither closes a string nor ends its line. -/
theorem quotedExtent_cons {text : List Char} {c : Char} (hline : c ≠ '\n')
    (hc : ¬ (c = '"' ∧ Even (trailingBackslashes text))) (length : ℕ) (cs : List Char) :
    quotedExtent (isProtecting text) length (c :: cs) =
      quotedExtent (isProtecting (text ++ [c])) (length + 1) cs := by
  rw [quotedExtent, if_neg hline]
  by_cases hodd : Odd (trailingBackslashes text)
  · -- The character is protected. If it is a backslash, the number becomes even.
    have hnext : isProtecting (text ++ [c]) = false := by
      rw [isProtecting, trailingBackslashes_concat, decide_eq_false_iff_not, Nat.not_odd_iff_even]
      split
      · exact hodd.add_one
      · exact Even.zero
    have hlast : isProtecting text = true := decide_eq_true hodd
    rw [if_pos hlast, hnext]
  · have heven : Even (trailingBackslashes text) := Nat.not_odd_iff_even.mp hodd
    have hlast : ¬ isProtecting text = true := by simpa [isProtecting] using heven
    have hquote : c ≠ '"' := fun h => hc ⟨h, heven⟩
    have hnext : isProtecting (text ++ [c]) = (c == '\\') := by
      rw [isProtecting, trailingBackslashes_concat]
      by_cases hbackslash : c = '\\'
      · simp [hbackslash, heven.add_one]
      · simp [hbackslash]
    rw [if_neg hlast, if_neg hquote, hnext]

/-- **Scanning stops at the first closing quote of a line, or else at its end.** Here `text` has
been read behind the opening quote. -/
theorem quotedExtent_eq_or (text cs : List Char) (htext : ∀ i, ¬ IsClosingQuote text i) :
    let line := text ++ cs.takeWhile (· != '\n')
    (∃ i, IsClosingQuote line i ∧ (∀ j < i, ¬ IsClosingQuote line j) ∧
        quotedExtent (isProtecting text) (text.length + 1) cs = (.string, i + 2)) ∨
      ((∀ i, ¬ IsClosingQuote line i) ∧
        quotedExtent (isProtecting text) (text.length + 1) cs = (.unknown, line.length + 1)) := by
  -- Characters move from the rest to the text that has been read, so the line stays the same.
  induction cs generalizing text with
  | nil =>
    right
    rw [List.takeWhile_nil, List.append_nil]
    exact ⟨htext, rfl⟩
  | cons c cs ih =>
    by_cases hline : c = '\n'
    · right
      rw [List.takeWhile_cons_of_neg (by simp [hline]), List.append_nil, quotedExtent,
        if_pos hline]
      exact ⟨htext, rfl⟩
    rw [List.takeWhile_cons_of_pos (by simpa using hline)]
    by_cases hc : c = '"' ∧ Even (trailingBackslashes text)
    · left
      refine ⟨text.length, isClosingQuote_length_iff.mpr hc, ?_, ?_⟩
      · intro j hj
        rw [isClosingQuote_append_iff hj]
        exact htext j
      · have hnot : isProtecting text = false := by simpa [isProtecting] using hc.2
        rw [quotedExtent, if_neg hline, if_neg (by simp [hnot]), if_pos hc.1]
    · have hrest := ih (text ++ [c]) (not_isClosingQuote_concat htext hc)
      rw [List.length_append, List.length_singleton, List.append_assoc] at hrest
      rw [quotedExtent_cons hline hc]
      exact hrest

/-! ### Tokens -/

/-- What a scanner finds behind a part of its source is the first token of the rest, or the end. -/
theorem fst_next_of_past {source : String} {taken left : List Char} {cursor : Cursor}
    (h : (opening source).2 = taken ++ left) (hcursor : cursor = (opening source).1.past taken)
    (path : String) :
    (Scanner.next ⟨path, source, cursor⟩).1 =
      ((lexemes path cursor left).head?.map Lexeme.token).getD (closingToken path source) := by
  subst hcursor
  rw [Scanner.next_past h]
  cases hscan : scan path ((opening source).1.past taken) left with
  | done stop =>
    rw [lexemes_of_skipGap_eq_nil (scan_eq_done_iff.mp hscan), eq_closing_of_scan_eq_done h hscan]
    rfl
  | found l rest =>
    rw [lexemes_eq_cons_iff.mpr ⟨rest, hscan, rfl⟩]
    rfl

/-- The text of a lexeme starts with its first character. -/
theorem head?_text_lexemeAt (path : String) (start : Cursor) (c : Char) (cs : List Char) :
    (lexemeAt path start c cs).token.text.toList.head? = some c := by
  obtain ⟨n, hn⟩ := Nat.exists_eq_add_one_of_ne_zero (extent_pos c cs).ne'
  simp [lexemeAt, hn]

/-- The lexeme behind an opening quote, by the closing quotes of its line. -/
theorem lexemeAt_quote (path : String) (start : Cursor) (behind : List Char) :
    let line := behind.takeWhile (· != '\n')
    let t := (lexemeAt path start '"' behind).token
    (∀ i, IsClosingQuote line i → (∀ j < i, ¬ IsClosingQuote line j) →
        t.kind = .string ∧ t.text = String.ofList ('"' :: line.take (i + 1))) ∧
      ((∀ i, ¬ IsClosingQuote line i) →
        t.kind = .unknown ∧ t.text = String.ofList ('"' :: line)) := by
  intro line t
  have hextent : extent '"' behind =
      quotedExtent (isProtecting []) (([] : List Char).length + 1) behind := rfl
  have htake {n : ℕ} (hn : n ≤ line.length) : behind.take n = line.take n := by
    obtain ⟨rest, hrest⟩ := List.takeWhile_prefix (l := behind) (· != '\n')
    rw [← hrest]
    exact List.take_append_of_le_length hn
  rcases quotedExtent_eq_or [] behind (by simp [IsClosingQuote]) with
    ⟨i, hi, hfirst, hscan⟩ | ⟨hnone, hscan⟩
  · rw [List.nil_append] at hi hfirst
    have hword : t.kind = .string ∧ t.text = String.ofList ('"' :: line.take (i + 1)) := by
      simp only [t, lexemeAt, hextent, hscan, List.take_succ_cons, true_and]
      rw [htake (lt_length_of_isClosingQuote hi)]
    refine ⟨fun i' hi' hfirst' => ?_, fun hnone => absurd hi (hnone i)⟩
    rcases lt_trichotomy i i' with hlt | rfl | hlt
    · exact absurd hi (hfirst' i hlt)
    · exact hword
    · exact absurd hi' (hfirst i' hlt)
  · rw [List.nil_append] at hnone hscan
    refine ⟨fun i hi _ => absurd hi (hnone i), fun _ => ?_⟩
    simp only [t, lexemeAt, hextent, hscan, List.take_succ_cons, true_and]
    rw [htake le_rfl, List.take_length]

/-- **A token that starts with a quote ends at the first closing quote of its line.** Let `line` be
the rest of the line behind the quote that a token starts with. If there are closing quotes in it,
which are those behind an even number of backslashes, the token is a string and ends with the first
of them; otherwise it is of no class and ends with the line. The next token is looked for from the
end of its text on. -/
theorem quoted_token_ends_at_closing_quote {path source : String} {before after : List Token}
    {t : Token} (h : tokenize path source = before ++ t :: after)
    (hquote : t.text.toList.head? = some '"') :
    ∃ front behind, (opening source).2 = front ++ '"' :: behind ∧
      let line := behind.takeWhile (· != '\n')
      let start := (opening source).1.past front
      let stop := start.past t.text.toList
      t.location = start.location path ∧
      Scanner.next ⟨path, source, start⟩ = (t, ⟨path, source, stop⟩) ∧
      (∀ i, IsClosingQuote line i → (∀ j < i, ¬ IsClosingQuote line j) →
        t.kind = .string ∧ t.text = String.ofList ('"' :: line.take (i + 1))) ∧
      ((∀ i, ¬ IsClosingQuote line i) →
        t.kind = .unknown ∧ t.text = String.ofList ('"' :: line)) ∧
      (Scanner.next ⟨path, source, stop⟩).1 = after.head?.getD (closingToken path source) := by
  rw [tokenize_eq] at h
  obtain ⟨ls, _, hsplit, -, htail⟩ := List.map_eq_append_iff.mp h
  obtain ⟨l, rest, rfl, rfl, rfl⟩ := List.map_eq_cons_iff.mp htail
  obtain ⟨front, c, behind, htext, rfl, hrest⟩ := exists_lexemeAt_of_append hsplit
  obtain rfl : c = '"' := by
    rw [head?_text_lexemeAt] at hquote
    exact Option.some.inj hquote
  refine ⟨front, behind, htext, ?_⟩
  intro line start stop
  have hscan : scan path start ('"' :: behind) = .found (lexemeAt path start '"' behind) _ :=
    scan_eq_found_iff.mpr ⟨start, '"', behind, rfl, rfl, rfl⟩
  have hstop : stop = (lexemeAt path start '"' behind).stop :=
    congrArg start.past String.toList_ofList
  have hfound : Scanner.next ⟨path, source, start⟩ =
      ((lexemeAt path start '"' behind).token, ⟨path, source, stop⟩) := by
    rw [Scanner.next_past htext, hscan, hstop]
  obtain ⟨hclosed, hunclosed⟩ := lexemeAt_quote path start behind
  refine ⟨rfl, hfound, hclosed, hunclosed, ?_⟩
  obtain ⟨taken, left, hsource, hpast, hafter⟩ := exists_lexemes_of_append hsplit
  rw [hstop, fst_next_of_past hsource hpast, hafter, List.head?_map]

/-- A quote that is protected, one behind two backslashes, and a name behind it. -/
theorem quoted_token_ends_at_closing_quote_pair :
    let source := "\ufeff \"é\\\"\\\\\"a\""
    let t : Token := ⟨.string, "\"é\\\"\\\\\"", 0, ⟨"m", 1, 1⟩⟩
    ∃ after, tokenize "m" source = [] ++ t :: after ∧ t.text.toList.head? = some '"' ∧
      ∃ front behind, (opening source).2 = front ++ '"' :: behind ∧
        let line := behind.takeWhile (· != '\n')
        let start := (opening source).1.past front
        let stop := start.past t.text.toList
        t.location = start.location "m" ∧
        Scanner.next ⟨"m", source, start⟩ = (t, ⟨"m", source, stop⟩) ∧
        (∀ i, IsClosingQuote line i → (∀ j < i, ¬ IsClosingQuote line j) →
          t.kind = .string ∧ t.text = String.ofList ('"' :: line.take (i + 1))) ∧
        ((∀ i, ¬ IsClosingQuote line i) →
          t.kind = .unknown ∧ t.text = String.ofList ('"' :: line)) ∧
        (Scanner.next ⟨"m", source, stop⟩).1 = after.head?.getD (closingToken "m" source) := by
  intro source t
  let after : List Token :=
    [⟨.identifier, "a", 0, ⟨"m", 1, 8⟩⟩, ⟨.unknown, "\"", 0, ⟨"m", 1, 9⟩⟩]
  have htokens : tokenize "m" source = [] ++ t :: after := by
    rw [tokenize_eq]
    cbv
  have hquote : t.text.toList.head? = some '"' := by decide
  exact ⟨after, htokens, hquote, quoted_token_ends_at_closing_quote htokens hquote⟩

end Dwo
