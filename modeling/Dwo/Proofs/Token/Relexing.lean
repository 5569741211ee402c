import Dwo.Proofs.Token.Tiling

/-!
# Writing tokens down

A token can be cut off the text that it stands in, and also off another text that starts with it, if
what follows there does not make it longer. `Spelling.Stands` says that a token is cut off in front
of a text, and `Spelling.Occurs.stands` that only the first character of that text matters.

So the tokens of source texts can be written down again: one on each line, they are read back as
they are (`tokenize_onLines`, `tokenize_join_texts`). Texts that are put together from tokens in
other ways are dealt with by `Spells` and `Closes`, which say what the tokens of a part are,
whatever is put behind it.

* `spell`: the spellings of a text, which depend on nothing but its characters;
* `Spelling.Occurs`: a spelling that is cut off some text, so it can be written;
* `Spelling.EndsBefore`: a condition on the first character behind a token that keeps it as it
  is;
* `Closes` and `Spells`: what a text spells in front of everything, and in front of everything
  that starts with no word character.

Closed texts are put together freely (`Closes.append`). An open text needs something closed
behind it that is apart from it (`Spells.append_closes`), and marks provide that
(`closes_marks`).
-/

namespace Dwo

/-! ### The spellings of a text -/

/-- The spellings of the lexemes of a text. -/
def spell (text : List Char) : List Spelling :=
  (lexemes "" .start text).map fun l => l.token.spelling

/-- What is left behind a gap does not depend on the place that the gap starts from. -/
theorem skipGap_snd (inComment : Bool) (cursor cursor' : Cursor) (text : List Char) :
    (skipGap inComment cursor text).2 = (skipGap inComment cursor' text).2 := by
  fun_induction skipGap inComment cursor text generalizing cursor' with
  | case1 inComment cursor => cases inComment <;> rfl
  | case2 cursor c cs ih => exact ih _
  | case3 cursor c cs hblank ih =>
    rw [skipGap, if_pos hblank]
    exact ih _
  | case4 cursor c cs hblank hslash ih =>
    rw [skipGap, if_neg hblank, if_pos hslash]
    exact ih _
  | case5 cursor c cs hblank hslash => rw [skipGap, if_neg hblank, if_neg hslash]

/-- Where the gap reaches to the end there is nothing to scan. -/
theorem lexemes_of_skipGap_eq_nil {cursor stop : Cursor} {text : List Char}
    (h : skipGap false cursor text = (stop, [])) (path : String) :
    lexemes path cursor text = [] := by
  have hscan : scan path cursor text = .done stop := scan_eq_done_iff.mpr h
  rw [lexemes]
  split
  · rfl
  · next hfound =>
    rw [hscan] at hfound
    cases hfound

/-- Where the gap ends before a character, the lexeme that starts there comes first. -/
theorem lexemes_of_skipGap_eq_cons {cursor start : Cursor} {text cs : List Char} {c : Char}
    (h : skipGap false cursor text = (start, c :: cs)) (path : String) :
    lexemes path cursor text = lexemeAt path start c cs ::
      lexemes path (lexemeAt path start c cs).stop ((c :: cs).drop (extent c cs).2) :=
  lexemes_eq_cons_iff.mpr ⟨_, scan_eq_found_iff.mpr ⟨start, c, cs, h, rfl, rfl⟩, rfl⟩

/-- Neither do the spellings of a text. -/
theorem map_spelling_lexemes (path path' : String) (cursor cursor' : Cursor) (text : List Char) :
    (lexemes path cursor text).map (fun l => l.token.spelling) =
      (lexemes path' cursor' text).map fun l => l.token.spelling := by
  fun_induction lexemes path cursor text generalizing cursor' with
  | case1 cursor text stop hscan =>
    have hleft := skipGap_snd false cursor cursor' text
    rw [scan_eq_done_iff.mp hscan] at hleft
    have hskip : skipGap false cursor' text = ((skipGap false cursor' text).1, []) :=
      Prod.ext rfl hleft.symm
    rw [lexemes_of_skipGap_eq_nil hskip, List.map_nil]
  | case2 cursor text l rest hscan ih =>
    obtain ⟨start, c, cs, hskip, rfl, rfl⟩ := scan_eq_found_iff.mp hscan
    have hleft := skipGap_snd false cursor cursor' text
    rw [hskip] at hleft
    have hskip' : skipGap false cursor' text = ((skipGap false cursor' text).1, c :: cs) :=
      Prod.ext rfl hleft.symm
    rw [lexemes_of_skipGap_eq_cons hskip', List.map_cons, List.map_cons, ih]
    rfl

/-- What a text spells depends neither on the place it is read from nor on the name of its
file. -/
theorem spell_eq (path : String) (cursor : Cursor) (text : List Char) :
    (lexemes path cursor text).map (fun l => l.token.spelling) = spell text :=
  map_spelling_lexemes path "" cursor .start text

/-- Without a byte order mark, reading starts with the first character. -/
theorem opening_of_head? {source : String} (h : source.toList.head? ≠ some '\ufeff') :
    opening source = (.start, source.toList) := by
  rw [opening]
  split
  · next hsource => rw [hsource]
  · next c cs hsource =>
    rw [hsource] at h
    have hmark : c ≠ '\ufeff' := by simpa using h
    rw [if_neg hmark, hsource]

/-- A source text that does not start with a byte order mark has the spellings of its text. -/
theorem map_spelling_tokenize {source : String} (path : String)
    (h : source.toList.head? ≠ some '\ufeff') :
    (tokenize path source).map Token.spelling = spell source.toList := by
  rw [tokenize_eq, sourceLexemes, List.map_map, opening_of_head? h]
  exact spell_eq path _ _

@[simp]
theorem spell_nil : spell [] = [] := by
  rw [spell, lexemes]
  rfl

/-- The lexemes of a text are those of what is left behind a gap. -/
theorem lexemes_congr {cursor cursor' : Cursor} {text text' : List Char}
    (h : skipGap false cursor text = skipGap false cursor' text') (path : String) :
    lexemes path cursor text = lexemes path cursor' text' := by
  have hscan : scan path cursor text = scan path cursor' text' := by rw [scan, scan, h]
  rw [lexemes, lexemes, hscan]

/-- A blank in front is passed over. -/
theorem lexemes_cons_of_isBlank {c : Char} (h : isBlank c = true) (path : String)
    (cursor : Cursor) (text : List Char) :
    lexemes path cursor (c :: text) = lexemes path (cursor.advance c) text := by
  refine lexemes_congr ?_ path
  rw [skipGap, if_pos h]

private theorem spell_cons_of_isBlank {c : Char} (h : isBlank c = true) (text : List Char) :
    spell (c :: text) = spell text := by
  rw [spell, lexemes_cons_of_isBlank h, spell_eq]

/-! ### Tokens in front of a text -/

namespace Spelling

/-- In front of `rest`, this token is cut off. -/
def Stands (s : Spelling) (rest : List Char) : Prop :=
  ∃ c cs, s.text.toList = c :: cs ∧ isBlank c = false ∧
    ¬ (c = '/' ∧ (cs ++ rest).head? = some '/') ∧ extent c (cs ++ rest) = (s.kind, cs.length + 1)

/-- A token that is cut off has the form of its class. -/
theorem Stands.isLexeme {s : Spelling} {rest : List Char} (h : s.Stands rest) :
    IsLexeme [] rest s.kind s.text.toList := by
  obtain ⟨c, cs, htext, hblank, hcomment, hextent⟩ := h
  obtain ⟨text, rest', hsplit, hlength, hlexeme⟩ :=
    exists_isLexeme_extent (cut_nil (c :: (cs ++ rest))) hblank hcomment
  rw [hextent] at hlength hlexeme
  rw [← List.cons_append] at hsplit
  obtain ⟨rfl, rfl⟩ := List.append_inj hsplit hlength.symm
  rw [htext]
  exact hlexeme

/-- There is a text in front of which this token is cut off. -/
def Occurs (s : Spelling) : Prop :=
  ∃ rest, s.Stands rest

/-- **A token that stands in front of a text is the first of them together**, and the others are
those of that text. -/
theorem Stands.lexemes_append {s : Spelling} {rest : List Char} (h : s.Stands rest)
    (path : String) (cursor : Cursor) :
    lexemes path cursor (s.text.toList ++ rest) =
      ⟨s.tokenAt (cursor.location path), cursor.past s.text.toList⟩ ::
        lexemes path (cursor.past s.text.toList) rest := by
  obtain ⟨c, cs, htext, hblank, hcomment, hextent⟩ := h
  have hskip : skipGap false cursor (c :: (cs ++ rest)) = (cursor, c :: (cs ++ rest)) := by
    rw [skipGap, if_neg (by simp [hblank]), if_neg hcomment]
  have htake : (c :: (cs ++ rest)).take (extent c (cs ++ rest)).2 = c :: cs := by
    simp [hextent]
  have hdrop : (c :: (cs ++ rest)).drop (extent c (cs ++ rest)).2 = rest := by
    simp [hextent]
  have hlexeme : lexemeAt path cursor c (cs ++ rest) =
      ⟨s.tokenAt (cursor.location path), cursor.past (c :: cs)⟩ := by
    rw [lexemeAt, htake, hextent, ← htext, String.ofList_toList]
    rfl
  rw [htext, List.cons_append, lexemes_of_skipGap_eq_cons hskip, hlexeme, hdrop]

/-- Tokens that are cut off the same text are the same, and so is what is left of it. -/
theorem Stands.inj {s s' : Spelling} {x y : List Char} (hs : s.Stands x)
    (hs' : s'.Stands y) (h : s.text.toList ++ x = s'.text.toList ++ y) : s = s' ∧ x = y := by
  obtain ⟨c, cs, htext, -, -, hextent⟩ := hs
  obtain ⟨c', cs', htext', -, -, hextent'⟩ := hs'
  rw [htext, htext', List.cons_append, List.cons_append] at h
  obtain ⟨rfl, hrest⟩ := List.cons.inj h
  rw [hrest, hextent'] at hextent
  obtain ⟨hkind, hlength⟩ := Prod.mk.inj hextent
  obtain ⟨rfl, rfl⟩ := List.append_inj hrest (by omega)
  obtain ⟨kind, text⟩ := s
  obtain ⟨kind', text'⟩ := s'
  obtain rfl : text = text' := String.toList_inj.mp (htext.trans htext'.symm)
  exact ⟨congrArg (Spelling.mk · text) hkind.symm, rfl⟩

/-- A token that stands in front of a text is spelled before that text. -/
private theorem Stands.spell_append {s : Spelling} {rest : List Char} (h : s.Stands rest) :
    spell (s.text.toList ++ rest) = s :: spell rest := by
  rw [spell, h.lexemes_append, List.map_cons, spell_eq]
  rfl

end Spelling

/-! ### Changing what follows a token -/

/-- A run of characters of some class, with other characters behind it. -/
private theorem length_takeWhile_append {p : Char → Bool} {cs rest rest' : List Char}
    (h : ((cs ++ rest).takeWhile p).length = cs.length) (hrest : ∀ c ∈ rest'.head?, p c = false) :
    ((cs ++ rest').takeWhile p).length = cs.length := by
  have hcs : (cs ++ rest).takeWhile p = cs :=
    (List.prefix_iff_eq_take.mp (List.takeWhile_prefix p)).trans (by rw [h, List.take_left])
  have hall : ∀ c ∈ cs, p c = true := by
    intro c hc
    rw [← hcs] at hc
    exact List.mem_takeWhile_imp hc
  have hstop : rest'.takeWhile p = [] := by
    cases rest' with
    | nil => rfl
    | cons c rest' => simp [hrest c rfl]
  rw [List.takeWhile_append_of_pos hall, hstop, List.append_nil]

/-- A string ends with its quote, whatever is behind it; without that quote, it ends only with the
line. -/
private theorem quotedExtent_append {kind : Kind} {rest rest' : List Char} {escaped : Bool}
    {length : Nat} {cs : List Char}
    (h : quotedExtent escaped length (cs ++ rest) = (kind, length + cs.length))
    (hrest : kind ≠ .string → ∀ c ∈ rest'.head?, c = '\n') :
    quotedExtent escaped length (cs ++ rest') = (kind, length + cs.length) := by
  induction cs generalizing escaped length with
  | nil =>
    -- Nothing more is taken, so there was no quote, and the line has to end here as well.
    obtain ⟨body, _, -, -, hlength, hkind⟩ := exists_quotedExtent escaped length rest
    rw [List.nil_append] at h
    rw [h] at hlength hkind
    have hbody : body = [] := by
      rw [← List.length_eq_zero_iff]
      simpa using hlength
    obtain rfl : kind = .unknown := by
      rcases hkind with ⟨-, inner, hinner⟩ | ⟨hunknown, -⟩
      · simp [hbody] at hinner
      · exact hunknown
    cases rest' with
    | nil => rfl
    | cons c rest' =>
      rw [List.nil_append, quotedExtent, if_pos (hrest (by simp) c rfl)]
      rfl
  | cons c cs ih =>
    have hlength : length + (c :: cs).length = length + 1 + cs.length := by
      rw [List.length_cons]
      omega
    rw [hlength] at h ⊢
    rw [List.cons_append, quotedExtent] at h ⊢
    split at h
    · have heq := (Prod.mk.inj h).2
      omega
    next hnewline =>
    rw [if_neg hnewline]
    split at h
    · next hescaped =>
      rw [if_pos hescaped]
      exact ih h
    next hescaped =>
    rw [if_neg hescaped]
    split at h
    · next hquote =>
      rw [if_pos hquote]
      exact h
    · next hquote =>
      rw [if_neg hquote]
      exact ih h

namespace Spelling

/-- The text `rest` does not make this token longer, if it stands in front of it. -/
def EndsBefore (s : Spelling) (rest : List Char) : Prop :=
  match s.kind with
  | .identifier => ∀ c ∈ rest.head?, isWordPart c = false
  | .integer => ∀ c ∈ rest.head?, c.isDigit = false
  | .string => True
  | .symbol => s.text = "/" → rest.head? ≠ some '/'
  | .unknown | .endOfFile => ∀ c ∈ rest.head?, c = '\n'

/-- In front of a text that does not make it longer, a token has the length it has elsewhere. -/
theorem extent_append {s : Spelling} {c : Char} {cs rest rest' : List Char}
    (h : extent c (cs ++ rest) = (s.kind, cs.length + 1)) (hrest : s.EndsBefore rest') :
    extent c (cs ++ rest') = (s.kind, cs.length + 1) := by
  -- The first character decides on the class; within a class, only the end can differ.
  obtain ⟨kind, text⟩ := s
  rw [extent] at h ⊢
  split at h
  · next hword =>
    rw [if_pos hword]
    obtain ⟨rfl, hlength⟩ := Prod.mk.inj h
    rw [length_takeWhile_append (Nat.succ.inj hlength) hrest]
  next hword =>
  rw [if_neg hword]
  split at h
  · next hdigit =>
    rw [if_pos hdigit]
    obtain ⟨rfl, hlength⟩ := Prod.mk.inj h
    rw [length_takeWhile_append (Nat.succ.inj hlength) hrest]
  next hdigit =>
  rw [if_neg hdigit]
  split at h
  · next hquote =>
    rw [if_pos hquote]
    rw [Nat.add_comm] at h ⊢
    refine quotedExtent_append h fun hstring => ?_
    obtain ⟨_, _, -, -, -, hkind⟩ := exists_quotedExtent false 1 (cs ++ rest)
    rw [h] at hkind
    rcases hkind with ⟨rfl, -⟩ | ⟨rfl, -⟩
    · exact absurd rfl hstring
    · exact hrest
  next hquote =>
  rw [if_neg hquote]
  split at h
  · next hpunctuation =>
    rw [if_pos hpunctuation]
    exact h
  next hpunctuation =>
  rw [if_neg hpunctuation]
  obtain ⟨rfl, hlength⟩ := Prod.mk.inj h
  rw [length_takeWhile_append (Nat.succ.inj hlength)]
  intro d hd
  rw [hrest d hd]
  rfl

/-- **A token is cut off in front of any text that does not make it longer.** -/
theorem Occurs.stands {s : Spelling} {rest : List Char} (h : s.Occurs) (hrest : s.EndsBefore rest) :
    s.Stands rest := by
  obtain ⟨rest₀, c, cs, htext, hblank, hcomment, hextent⟩ := h
  refine ⟨c, cs, htext, hblank, ?_, extent_append hextent hrest⟩
  -- A slash is a token by itself, so a second one would have to come from the text behind it.
  rintro ⟨rfl, hslash⟩
  obtain ⟨kind, text⟩ := s
  have hsymbol : extent '/' (cs ++ rest₀) = (.symbol, 1) := rfl
  rw [hsymbol] at hextent
  obtain ⟨rfl, hlength⟩ := Prod.mk.inj hextent
  obtain rfl : cs = [] := List.length_eq_zero_iff.mp (Nat.succ.inj hlength).symm
  exact hrest (String.toList_inj.mp htext) hslash

/-- In front of texts that do not make them longer, tokens can be told apart. -/
theorem Occurs.append_inj {s s' : Spelling} {x y : String} (hs : s.Occurs) (hs' : s'.Occurs)
    (hx : s.EndsBefore x.toList) (hy : s'.EndsBefore y.toList) (h : s.text ++ x = s'.text ++ y) :
    s = s' ∧ x = y := by
  have hlist : s.text.toList ++ x.toList = s'.text.toList ++ y.toList := by
    rw [← String.toList_append, ← String.toList_append, h]
  obtain ⟨heq, hrest⟩ := (hs.stands hx).inj (hs'.stands hy) hlist
  exact ⟨heq, String.toList_inj.mp hrest⟩

/-- No token runs over the end of a line. -/
theorem Occurs.newline_notMem {s : Spelling} (h : s.Occurs) : '\n' ∉ s.text.toList := by
  obtain ⟨rest, hstands⟩ := h
  exact hstands.isLexeme.newline_notMem

/-- An identifier that occurs is written as a word. -/
theorem Occurs.isWord {s : Spelling} (h : s.Occurs) (hkind : s.kind = .identifier) :
    IsWord s.text.toList := by
  obtain ⟨rest, hstands⟩ := h
  have hlexeme := hstands.isLexeme
  rw [hkind] at hlexeme
  cases hlexeme with
  | word hword => exact hword.mem

/-- An integer that occurs is written as a numeral. -/
theorem Occurs.isNumeral {s : Spelling} (h : s.Occurs) (hkind : s.kind = .integer) :
    IsNumeral s.text.toList := by
  obtain ⟨rest, hstands⟩ := h
  have hlexeme := hstands.isLexeme
  rw [hkind] at hlexeme
  cases hlexeme with
  | numeral hnumeral => exact hnumeral.mem

/-- Every numeral is the text of an integer that occurs. -/
theorem occurs_of_isNumeral {text : String} (h : IsNumeral text.toList) :
    (⟨.integer, text⟩ : Spelling).Occurs := by
  obtain ⟨hne, hdigits⟩ := h
  obtain ⟨c, cs, htext⟩ := List.exists_cons_of_ne_nil hne
  rw [htext] at hdigits
  have hdigit : c.isDigit = true := hdigits c List.mem_cons_self
  refine ⟨[], c, cs, htext, ?_, ?_, ?_⟩
  · by_contra hblank
    have hpart := isWordPart_eq_false_of_isBlank (Bool.not_eq_false _ ▸ hblank)
    rw [isWordPart_of_isDigit hdigit] at hpart
    cases hpart
  · rintro ⟨rfl, -⟩
    exact absurd hdigit (by decide)
  · have hword : ¬ isWordStart c = true := by
      intro hword
      rw [(of_isWordStart hword).2] at hdigit
      cases hdigit
    have hrun : (cs ++ []).takeWhile Char.isDigit = cs := by
      rw [List.append_nil, List.takeWhile_eq_self_iff]
      exact fun d hd => hdigits d (List.mem_cons_of_mem c hd)
    rw [extent, if_neg hword, if_pos hdigit, hrun]

/-- A newline ends every token. -/
theorem endsBefore_of_newline (s : Spelling) {rest : List Char}
    (h : ∀ c ∈ rest.head?, c = '\n') : s.EndsBefore rest := by
  have hof {p : Char → Prop} (hp : p '\n') : ∀ c ∈ rest.head?, p c := by
    intro c hc
    rw [h c hc]
    exact hp
  obtain ⟨kind, text⟩ := s
  cases kind with
  | identifier | integer => exact hof (by decide)
  | string => exact True.intro
  | symbol => exact fun _ hslash => absurd (h _ hslash) (by decide)
  | unknown | endOfFile => exact h

end Spelling

/-- The decimal form of a number is a numeral. -/
theorem isNumeral_toString (n : Nat) : IsNumeral (toString n).toList := by
  rw [Nat.toString_eq_repr, Nat.toList_repr]
  exact ⟨Nat.toDigits_ne_nil, fun d hd => Nat.isDigit_of_mem_toDigits (by decide) (by decide) hd⟩

/-- A lexeme stands in front of what is left behind it. -/
theorem stands_lexemeAt {start : Cursor} {c : Char} {cs : List Char} (path : String)
    (hblank : isBlank c = false) (hcomment : ¬ (c = '/' ∧ cs.head? = some '/')) :
    (lexemeAt path start c cs).token.spelling.Stands ((c :: cs).drop (extent c cs).2) := by
  obtain ⟨text, rest, hsplit, hlength, -⟩ :=
    exists_isLexeme_extent (cut_nil (c :: cs)) hblank hcomment
  cases text with
  | nil =>
    have hpos := extent_pos c cs
    rw [← hlength] at hpos
    exact absurd hpos (Nat.lt_irrefl 0)
  | cons d text =>
    rw [List.cons_append] at hsplit
    obtain ⟨rfl, rfl⟩ := List.cons.inj hsplit
    have hrest : (c :: (text ++ rest)).drop (extent c (text ++ rest)).2 = rest := by
      rw [← hlength]
      simp
    have htext : (c :: (text ++ rest)).take (extent c (text ++ rest)).2 = c :: text := by
      rw [← hlength]
      simp
    rw [hrest]
    refine ⟨c, text, ?_, hblank, hcomment, Prod.ext rfl hlength.symm⟩
    exact (congrArg (fun word => (String.ofList word).toList) htext).trans String.toList_ofList

/-- The tokens of a source text occur. -/
theorem occurs_of_mem_tokenize {path source : String} {t : Token} (h : t ∈ tokenize path source) :
    t.spelling.Occurs := by
  have hlexemes (cursor : Cursor) (text : List Char) :
      ∀ l ∈ lexemes path cursor text, l.token.spelling.Occurs := by
    fun_induction lexemes path cursor text with
    | case1 cursor text stop hscan => exact fun l hl => by cases hl
    | case2 cursor text l rest hscan ih =>
      obtain ⟨start, c, cs, hskip, rfl, rfl⟩ := scan_eq_found_iff.mp hscan
      obtain ⟨hblank, hcomment⟩ := of_skipGap_eq_cons hskip
      intro l hl
      rcases List.mem_cons.mp hl with rfl | hl
      · exact ⟨_, stands_lexemeAt path hblank hcomment⟩
      · exact ih l hl
  rw [tokenize_eq] at h
  obtain ⟨l, hl, rfl⟩ := List.mem_map.mp h
  exact hlexemes _ _ l hl

/-! ### Tokens on lines -/

/-- Tokens written down, each on a line of its own. -/
def onLines (spellings : List Spelling) : List Char :=
  spellings.flatMap fun s => '\n' :: s.text.toList

/-- Only newlines end a row. -/
theorem Cursor.row_past (c : Cursor) (text : List Char) :
    (c.past text).row = c.row + text.count '\n' := by
  induction text generalizing c with
  | nil => rfl
  | cons ch text ih =>
    rw [past_cons, ih, advance]
    split
    · next hnewline =>
      rw [hnewline, List.count_cons_self, Nat.add_right_comm]
      rfl
    · next hnewline => rw [List.count_cons_of_ne hnewline]

/-- A token keeps to its line. -/
theorem Spelling.Stands.row_past {s : Spelling} {rest : List Char} (h : s.Stands rest)
    (c : Cursor) : (c.past s.text.toList).row = c.row := by
  rw [c.row_past, List.count_eq_zero_of_not_mem h.isLexeme.newline_notMem, Nat.add_zero]

/-- **Tokens that are written on lines of their own are read back**, each from the start of its
line. -/
theorem map_token_lexemes_onLines {spellings : List Spelling} (h : ∀ s ∈ spellings, s.Occurs)
    (path : String) (cursor : Cursor) :
    (lexemes path cursor (onLines spellings)).map Lexeme.token =
      spellings.mapIdx fun i s => s.tokenAt ⟨path, cursor.row + (i + 1), 0⟩ := by
  induction spellings generalizing cursor with
  | nil => rw [onLines, List.flatMap_nil, lexemes_of_skipGap_eq_nil rfl, List.map_nil,
      List.mapIdx_nil]
  | cons s spellings ih =>
    have hnext : ∀ c ∈ (onLines spellings).head?, c = '\n' := by
      cases spellings with
      | nil => simp [onLines]
      | cons next spellings => simp [onLines]
    have hstands : s.Stands (onLines spellings) :=
      (h s List.mem_cons_self).stands (s.endsBefore_of_newline hnext)
    have htext : onLines (s :: spellings) = '\n' :: (s.text.toList ++ onLines spellings) := by
      simp [onLines]
    have hrow : ((cursor.advance '\n').past s.text.toList).row = cursor.row + 1 :=
      hstands.row_past _
    have hrows (i : Nat) : cursor.row + 1 + (i + 1) = cursor.row + (i + 1 + 1) := by omega
    rw [htext, lexemes_cons_of_isBlank rfl, hstands.lexemes_append, List.map_cons,
      ih fun s' hs' => h s' (List.mem_cons_of_mem s hs'), hrow, List.mapIdx_cons]
    simp only [hrows]
    rfl

/-- Tokens written on lines of their own are scanned back, one in each row. -/
private theorem tokenize_onLines {spellings : List Spelling} (h : ∀ s ∈ spellings, s.Occurs)
    (path : String) :
    tokenize path (String.ofList (onLines spellings)) =
      spellings.mapIdx fun i s => s.tokenAt ⟨path, i + 2, 0⟩ := by
  have hmark : (String.ofList (onLines spellings)).toList.head? ≠ some '\ufeff' := by
    rw [String.toList_ofList]
    cases spellings with
    | nil => simp [onLines]
    | cons s spellings => simp [onLines]
  have hrows (i : Nat) : Cursor.start.row + (i + 1) = i + 2 := Nat.add_comm 1 (i + 1)
  rw [tokenize_eq, sourceLexemes, opening_of_head? hmark, String.toList_ofList,
    map_token_lexemes_onLines h]
  simp only [hrows]

/-- So there is a source text of these tokens. -/
theorem exists_tokenize {spellings : List Spelling} (h : ∀ s ∈ spellings, s.Occurs)
    (path : String) :
    ∃ source, (tokenize path source).map Token.spelling = spellings := by
  refine ⟨String.ofList (onLines spellings), ?_⟩
  rw [tokenize_onLines h]
  exact List.ext_getElem (by simp) fun i _ _ => by simp [Spelling.tokenAt, Token.spelling]

/-- **The text of a token is cut as that token again.** If the texts of the tokens of a source text
are written on lines of their own, behind an empty first line, then the tokens found there are the
same tokens, in the same order, at the starts of these lines. -/
theorem tokenize_join_texts (path path' source : String) :
    tokenize path' (String.join ((tokenize path source).map fun t => "\n" ++ t.text)) =
      (tokenize path source).mapIdx fun i t => { t with location := ⟨path', i + 2, 0⟩ } := by
  have htext : String.join ((tokenize path source).map fun t => "\n" ++ t.text) =
      String.ofList (onLines ((tokenize path source).map Token.spelling)) := by
    rw [← String.toList_inj, String.toList_join, String.toList_ofList, onLines, List.flatMap_map,
      List.flatMap_map]
    simp [Token.spelling]
  have hoccurs : ∀ s ∈ (tokenize path source).map Token.spelling, s.Occurs :=
    List.forall_mem_map.mpr fun _ => occurs_of_mem_tokenize
  rw [htext, tokenize_onLines hoccurs]
  refine List.ext_getElem (by simp) fun i _ hi => ?_
  rw [List.length_mapIdx] at hi
  have hmem : (tokenize path source)[i] ∈ tokenize path source := List.getElem_mem _
  simp [Spelling.tokenAt, Token.spelling, value_of_mem_tokenize hmem]

/-! ### Texts put together -/

/-- A text that starts with no word character, so that words and numerals end in front of it. -/
def Apart (rest : List Char) : Prop :=
  ∀ c ∈ rest.head?, isWordPart c = false

/-- The tokens of a text, whatever is put behind it. -/
def Closes (text : String) (spellings : List Spelling) : Prop :=
  ∀ rest, spell (text.toList ++ rest) = spellings ++ spell rest

/-- The tokens of a text, if what is put behind it starts with no word character. -/
def Spells (text : String) (spellings : List Spelling) : Prop :=
  ∀ rest, Apart rest → spell (text.toList ++ rest) = spellings ++ spell rest

section

variable {a b : String} {xs ys : List Spelling}

theorem closes_empty : Closes "" [] :=
  fun _ => rfl

/-- What a text spells in front of everything it spells in front of what starts with no word
character. -/
theorem Closes.spells (h : Closes a xs) : Spells a xs :=
  fun rest _ => h rest

/-- Two closed texts spell side by side what each of them spells alone. -/
theorem Closes.append (ha : Closes a xs) (hb : Closes b ys) : Closes (a ++ b) (xs ++ ys) := by
  intro rest
  rw [String.toList_append, List.append_assoc, ha, hb, List.append_assoc]

/-- Of two texts only the last may depend on what follows. -/
theorem Closes.append_spells (ha : Closes a xs) (hb : Spells b ys) :
    Spells (a ++ b) (xs ++ ys) := by
  intro rest hrest
  rw [String.toList_append, List.append_assoc, ha, hb rest hrest, List.append_assoc]

/-- A word or a numeral is closed by a text that starts with no word character. -/
theorem Spells.append_closes (ha : Spells a xs) (hb : Closes b ys)
    (hstart : b.toList.head?.map isWordPart = some false) : Closes (a ++ b) (xs ++ ys) := by
  intro rest
  have hrest : Apart (b.toList ++ rest) := by
    intro c hc
    cases hb' : b.toList with
    | nil => simp [hb'] at hstart
    | cons d ds =>
      rw [hb'] at hstart hc
      obtain rfl : d = c := Option.some.inj hc
      exact Option.some.inj hstart
  rw [String.toList_append, List.append_assoc, ha _ hrest, hb, List.append_assoc]

end

/-- The symbols that are cut off in front of every text. -/
def isMark (c : Char) : Bool :=
  isPunctuation c && c != '"' && c != '_' && c != '/'

/-- A mark is cut off whatever follows it. -/
theorem stands_symbol {c : Char} (h : isMark c = true) (rest : List Char) :
    (Spelling.symbol c.toString).Stands rest := by
  simp only [isMark, Bool.and_eq_true, bne_iff_ne] at h
  obtain ⟨⟨⟨hpunctuation, hquote⟩, hunderscore⟩, hslash⟩ := h
  have hblank : isBlank c = false := by
    by_contra hblank
    simp only [isBlank, Bool.not_eq_false, Bool.or_eq_true, beq_iff_eq] at hblank
    rcases hblank with ((((rfl | rfl) | rfl) | rfl) | rfl) | rfl <;>
      exact absurd hpunctuation (by decide)
  have halnum : c.isAlphanum = false := by
    rw [isPunctuation, Bool.and_eq_true] at hpunctuation
    simpa using hpunctuation.2
  have hword : ¬ isWordStart c = true := by
    intro hword
    have hpart := (of_isWordStart hword).1
    simp [isWordPart, halnum, hunderscore] at hpart
  have hdigit : ¬ c.isDigit = true := by
    intro hdigit
    simp [Char.isAlphanum, hdigit] at halnum
  refine ⟨c, [], by simp [Spelling.symbol], hblank, fun hcomment => hslash hcomment.1, ?_⟩
  rw [extent, if_neg hword, if_neg hdigit, if_neg hquote, if_pos hpunctuation]
  rfl

private theorem spell_cons_of_isMark {c : Char} (h : isMark c = true) (rest : List Char) :
    spell (c :: rest) = .symbol c.toString :: spell rest := by
  have happend := (stands_symbol h rest).spell_append
  simpa [Spelling.symbol] using happend

/-- Blanks and such symbols have the same tokens in front of every text. -/
theorem closes_marks {text : String} {spellings : List Spelling}
    (h : (text.toList.all fun c => isBlank c || isMark c) = true)
    (hspellings : ((text.toList.filter fun c => !isBlank c).map fun c => .symbol c.toString) =
      spellings) :
    Closes text spellings := by
  intro rest
  rw [← hspellings]
  clear hspellings
  generalize text.toList = cs at h
  induction cs with
  | nil => rfl
  | cons c cs ih =>
    rw [List.all_cons, Bool.and_eq_true] at h
    have hcs := ih h.2
    cases hblank : isBlank c with
    | true =>
      rw [List.cons_append, spell_cons_of_isBlank hblank,
        List.filter_cons_of_neg (by simp [hblank])]
      exact hcs
    | false =>
      have hmark : isMark c = true := by simpa [hblank] using h.1
      rw [List.cons_append, spell_cons_of_isMark hmark, List.filter_cons_of_pos (by simp [hblank]),
        hcs]
      rfl

/-- The text of an operand spells that operand alone, if no word character follows. -/
theorem Spelling.Occurs.spells {s : Spelling} (h : s.Occurs) (hkind : s.kind.isOperand = true) :
    Spells s.text [s] := by
  intro rest hrest
  refine (h.stands ?_).spell_append
  obtain ⟨kind, text⟩ := s
  cases kind with
  | identifier => exact hrest
  | integer =>
    intro c hc
    by_contra hdigit
    have hpart := isWordPart_of_isDigit (Bool.not_eq_false _ ▸ hdigit)
    rw [hrest c hc] at hpart
    cases hpart
  | string => exact True.intro
  | endOfFile | unknown | symbol => cases hkind

end Dwo
