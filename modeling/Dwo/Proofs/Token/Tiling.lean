import Dwo.Proofs.Token.Spelling

/-!
# Tilings of source texts

A source text is covered without overlap by gaps and tokens. `Tiles` says what such a covering
looks like: each gap is made of blanks and comments, and each token belongs to a class of texts
(`IsLexeme`), where words and numerals are as long as they can be on both sides. The main result is
that `tokenize` cuts every source text in this way (`tiles_tokenize`).

That a token could not have been longer to its right is seen where it is cut. That it could not
have started earlier depends on the text in front of it: no place where scanning takes up the text
again is inside a word or a numeral, which is what `Cut` says.

* `IsGap`: blanks and comments, where a comment runs to the end of its line or of the text;
* `IsMaximal`: a text of some class that would leave the class if it were longer on either side;
* `IsStray`: the characters that start none of the other classes; with one of them, a token runs
  up to the next blank;
* `Tiles`: gaps and tokens in turn, which end with a gap.

The definitions mention characters and texts alone, and neither positions nor the functions that
cut. The induction is on the list of lexemes (`tiles_lexemes`), with the text in front of the
current place as a parameter: a gap and a token both lead to a place that is a `Cut` again.
-/

namespace Dwo

/-! ### Gaps -/

/-- A run of blanks and comments in front of the text `rest`. There are six blanks (`isBlank_iff`).
A comment runs through the end of its line, or to the end of the whole text. -/
inductive IsGap (rest : List Char) : List Char → Prop where
  | nil : IsGap rest []
  | blank {c : Char} {gap : List Char} :
      isBlank c = true → IsGap rest gap → IsGap rest (c :: gap)
  | comment {body gap : List Char} :
      '\n' ∉ body → IsGap rest gap → IsGap rest ('/' :: '/' :: (body ++ '\n' :: gap))
  | lastComment {body : List Char} :
      '\n' ∉ body → rest = [] → IsGap rest ('/' :: '/' :: body)

/-- The rest of a comment, and the gap behind it. -/
def IsCommentGap (rest gap : List Char) : Prop :=
  (∃ body tail, '\n' ∉ body ∧ gap = body ++ '\n' :: tail ∧ IsGap rest tail) ∨
    ('\n' ∉ gap ∧ rest = [])

private theorem IsCommentGap.newline {rest gap : List Char} (h : IsGap rest gap) :
    IsCommentGap rest ('\n' :: gap) :=
  .inl ⟨[], gap, List.not_mem_nil, rfl, h⟩

/-- A comment may be longer by any character that does not end its line. -/
theorem IsCommentGap.cons {rest gap : List Char} {c : Char} (h : IsCommentGap rest gap)
    (hc : c ≠ '\n') : IsCommentGap rest (c :: gap) := by
  rcases h with ⟨body, tail, hbody, rfl, htail⟩ | ⟨hgap, hrest⟩
  · exact .inl ⟨c :: body, tail, List.not_mem_cons_of_ne_of_not_mem hc.symm hbody, rfl, htail⟩
  · exact .inr ⟨List.not_mem_cons_of_ne_of_not_mem hc.symm hgap, hrest⟩

/-- A comment is opened by two slashes. -/
theorem IsCommentGap.isGap {rest gap : List Char} (h : IsCommentGap rest gap)
    (hslash : (gap ++ rest).head? = some '/') : IsGap rest ('/' :: gap) := by
  rcases h with ⟨body, tail, hbody, rfl, htail⟩ | ⟨hgap, hrest⟩
  · cases body with
    | nil => exact absurd hslash (by simp)
    | cons c body =>
      obtain rfl : c = '/' := by simpa using hslash
      exact .comment (List.not_mem_of_not_mem_cons hbody) htail
  · cases gap with
    | nil => exact absurd hslash (by simp [hrest])
    | cons c body =>
      obtain rfl : c = '/' := by simpa using hslash
      exact .lastComment (List.not_mem_of_not_mem_cons hgap) hrest

/-- What is moved over between two tokens is a gap. -/
theorem exists_isGap_skipGap (inComment : Bool) (cursor : Cursor) (text : List Char) :
    ∃ gap, text = gap ++ (skipGap inComment cursor text).2 ∧
      if inComment then IsCommentGap (skipGap inComment cursor text).2 gap
      else IsGap (skipGap inComment cursor text).2 gap := by
  fun_induction skipGap inComment cursor text with
  | case1 inComment cursor =>
    refine ⟨[], rfl, ?_⟩
    cases inComment with
    | true => exact .inr ⟨List.not_mem_nil, rfl⟩
    | false => exact .nil
  | case2 cursor c cs ih =>
    obtain ⟨gap, htext, hgap⟩ := ih
    refine ⟨c :: gap, congrArg (c :: ·) htext, ?_⟩
    by_cases hc : c = '\n'
    · subst hc
      exact .newline hgap
    · rw [if_pos (bne_iff_ne.mpr hc)] at hgap
      exact hgap.cons hc
  | case3 cursor c cs hblank ih =>
    obtain ⟨gap, htext, hgap⟩ := ih
    exact ⟨c :: gap, congrArg (c :: ·) htext, .blank hblank hgap⟩
  | case4 cursor c cs hblank hslash ih =>
    obtain ⟨gap, htext, hgap⟩ := ih
    obtain ⟨rfl, hnext⟩ := hslash
    rw [htext] at hnext
    exact ⟨'/' :: gap, congrArg ('/' :: ·) htext, IsCommentGap.isGap hgap hnext⟩
  | case5 cursor c cs hblank hslash => exact ⟨[], rfl, .nil⟩

/-- A gap that is not empty ends with a blank, or the text ends with it. -/
theorem IsGap.eq_nil_or {rest gap : List Char} (h : IsGap rest gap) :
    gap = [] ∨ rest = [] ∨ ∃ front c, gap = front ++ [c] ∧ isBlank c = true := by
  induction h with
  | nil => exact .inl rfl
  | @blank c gap hc _ ih =>
    rcases ih with rfl | hrest | ⟨front, d, rfl, hd⟩
    · exact .inr (.inr ⟨[], c, rfl, hc⟩)
    · exact .inr (.inl hrest)
    · exact .inr (.inr ⟨c :: front, d, rfl, hd⟩)
  | @comment body gap _ _ ih =>
    rcases ih with rfl | hrest | ⟨front, d, rfl, hd⟩
    · exact .inr (.inr ⟨'/' :: '/' :: body, '\n', rfl, rfl⟩)
    · exact .inr (.inl hrest)
    · exact .inr (.inr ⟨'/' :: '/' :: (body ++ '\n' :: front), d, by simp, hd⟩)
  | lastComment _ hrest => exact .inr (.inl hrest)

/-! ### Classes of tokens -/

/-- ASCII letters, digits and `_`, where the first is not a digit. -/
def IsWord (text : List Char) : Prop :=
  (∃ c cs, text = c :: cs ∧ c.isDigit = false) ∧ ∀ c ∈ text, isWordPart c = true

/-- Digits, one at least. -/
def IsNumeral (text : List Char) : Prop :=
  text ≠ [] ∧ ∀ c ∈ text, c.isDigit = true

/-- Between `front` and `rest` stands a text of some class, and no longer text around it is in
that class. -/
structure IsMaximal (P : List Char → Prop) (front text rest : List Char) : Prop where
  mem : P text
  eq_nil_of_mem : ∀ a b c d, front = a ++ b → rest = c ++ d → P (b ++ text ++ c) → b = [] ∧ c = []

/-- Characters that are not ASCII, and the control characters of ASCII other than blanks. -/
def IsStray (c : Char) : Prop :=
  0x80 ≤ c.toNat ∨ ((c.toNat < 0x20 ∨ c.toNat = 0x7f) ∧ isBlank c = false)

/-- Between `front` and `rest` stands a token of some kind. -/
inductive IsLexeme (front rest : List Char) : Kind → List Char → Prop where
  | word {text : List Char} :
      IsMaximal IsWord front text rest → IsLexeme front rest .identifier text
  | numeral {text : List Char} :
      IsMaximal IsNumeral front text rest → IsLexeme front rest .integer text
  /-- A string ends with a quote. -/
  | string {body : List Char} :
      '\n' ∉ body → IsLexeme front rest .string ('"' :: (body ++ ['"']))
  /-- Without that quote, it runs to the end of its line. -/
  | unclosed {body : List Char} :
      '\n' ∉ body → (∀ c ∈ rest.head?, c = '\n') → IsLexeme front rest .unknown ('"' :: body)
  | symbol {c : Char} :
      isPunctuation c = true → c ≠ '"' → c ≠ '_' → (c = '/' → rest.head? ≠ some '/') →
        IsLexeme front rest .symbol [c]
  | stray {c : Char} {cs : List Char} :
      IsStray c → (∀ d ∈ c :: cs, isBlank d = false) → (∀ d ∈ rest.head?, isBlank d = true) →
        IsLexeme front rest .unknown (c :: cs)

theorem isWordPart_of_isDigit {c : Char} (h : c.isDigit = true) : isWordPart c = true := by
  simp [isWordPart, Char.isAlphanum, h]

/-- White space ends a word. -/
theorem isWordPart_eq_false_of_isBlank {c : Char} (h : isBlank c = true) :
    isWordPart c = false := by
  rcases isBlank_iff.mp h with rfl | rfl | rfl | rfl | rfl | rfl <;> decide

/-- A text that is as long as it can be does not go on with the character behind it. -/
theorem IsMaximal.notMem_concat {P : List Char → Prop} {front text cs : List Char} {c : Char}
    (h : IsMaximal P front text (c :: cs)) : ¬ P (text ++ [c]) := by
  intro hlonger
  have hnil := (h.eq_nil_of_mem front [] [c] cs (List.append_nil front).symm rfl hlonger).2
  cases hnil

/-- A word goes on with every word character. -/
theorem IsWord.concat {text : List Char} {c : Char} (h : IsWord text)
    (hc : isWordPart c = true) : IsWord (text ++ [c]) := by
  obtain ⟨⟨d, ds, rfl, hd⟩, hparts⟩ := h
  refine ⟨⟨d, ds ++ [c], rfl, hd⟩, ?_⟩
  intro e he
  rcases List.mem_append.mp he with he | he
  · exact hparts e he
  · rw [List.mem_singleton.mp he]
    exact hc

/-- A numeral goes on with every digit. -/
theorem IsNumeral.concat {text : List Char} {c : Char} (h : IsNumeral text)
    (hc : c.isDigit = true) : IsNumeral (text ++ [c]) := by
  refine ⟨by simp, ?_⟩
  intro e he
  rcases List.mem_append.mp he with he | he
  · exact h.2 e he
  · rw [List.mem_singleton.mp he]
    exact hc

/-- A longest word is followed by no word character. -/
private theorem isWordPart_head?_of_isMaximal {front text rest : List Char}
    (h : IsMaximal IsWord front text rest) : ∀ c ∈ rest.head?, isWordPart c = false := by
  intro c hc
  obtain ⟨cs, rfl⟩ := List.head?_eq_some_iff.mp hc
  by_contra hpart
  exact h.notMem_concat (h.mem.concat (Bool.not_eq_false _ ▸ hpart))

/-- A longest numeral is followed by no digit. -/
private theorem isDigit_head?_of_isMaximal {front text rest : List Char}
    (h : IsMaximal IsNumeral front text rest) : ∀ c ∈ rest.head?, c.isDigit = false := by
  intro c hc
  obtain ⟨cs, rfl⟩ := List.head?_eq_some_iff.mp hc
  by_contra hdigit
  exact h.notMem_concat (h.mem.concat (Bool.not_eq_false _ ▸ hdigit))

/-! ### Where scanning takes up a text -/

/-- Between `front` and `rest` no word and no numeral is cut in two: where word characters stand on
both sides, those in front are digits and the one behind is not. -/
def Cut (front rest : List Char) : Prop :=
  ∀ c ∈ rest.head?, isWordPart c = true → ∀ b, b <:+ front → b ≠ [] →
    (∀ d ∈ b, isWordPart d = true) → c.isDigit = false ∧ ∀ d ∈ b, d.isDigit = true

theorem cut_nil (rest : List Char) : Cut [] rest := by
  intro c _ _ b hb hne
  exact absurd (List.suffix_nil.mp hb) hne

private theorem cut_concat {front rest : List Char} {c : Char} (hc : isWordPart c = false) :
    Cut (front ++ [c]) rest := by
  intro _ _ _ b hb hne hparts
  rcases List.suffix_concat_iff.mp hb with rfl | ⟨b, rfl, -⟩
  · exact absurd rfl hne
  · have hpart := hparts c (by simp)
    rw [hc] at hpart
    cases hpart

private theorem cut_of_head? {front rest : List Char} (h : ∀ c ∈ rest.head?, isWordPart c = false) :
    Cut front rest := by
  intro c hc hpart
  rw [h c hc] at hpart
  cases hpart

namespace Cut

variable {front text rest : List Char}

/-- A gap separates. -/
theorem gap {gap : List Char} (h : Cut front (gap ++ rest)) (hgap : IsGap rest gap) :
    Cut (front ++ gap) rest := by
  rcases hgap.eq_nil_or with rfl | rfl | ⟨before, c, rfl, hc⟩
  · rw [List.append_nil]
    exact h
  · exact cut_of_head? fun c hc => by cases hc
  · rw [← List.append_assoc]
    exact cut_concat (isWordPart_eq_false_of_isBlank hc)

/-- A word that starts where scanning takes up the text could not start earlier. -/
theorem isMaximal_word (h : Cut front (text ++ rest)) (htext : IsWord text)
    (hrest : ∀ c ∈ rest.head?, isWordPart c = false) : IsMaximal IsWord front text rest := by
  refine ⟨htext, ?_⟩
  rintro a b c d rfl rfl ⟨⟨e, es, hfirst, he⟩, hparts⟩
  constructor
  · by_contra hb
    obtain ⟨⟨x, xs, rfl, -⟩, hxs⟩ := htext
    have hx : isWordPart x = true := hxs x List.mem_cons_self
    have hsuffix : ∀ y ∈ b, isWordPart y = true := fun y hy => hparts y (by simp [hy])
    have hdigits := (h x rfl hx b (List.suffix_append a b) hb hsuffix).2
    cases b with
    | nil => exact hb rfl
    | cons y ys =>
      obtain rfl : y = e := (List.cons.inj hfirst).1
      rw [hdigits y List.mem_cons_self] at he
      cases he
  · cases c with
    | nil => rfl
    | cons x xs =>
      have hx := hparts x (by simp)
      rw [hrest x rfl] at hx
      cases hx

/-- Neither could a numeral. -/
theorem isMaximal_numeral (h : Cut front (text ++ rest)) (htext : IsNumeral text)
    (hrest : ∀ c ∈ rest.head?, c.isDigit = false) : IsMaximal IsNumeral front text rest := by
  refine ⟨htext, ?_⟩
  rintro a b c d rfl rfl ⟨-, hdigits⟩
  constructor
  · by_contra hb
    obtain ⟨hne, htext⟩ := htext
    obtain ⟨x, xs, rfl⟩ := List.exists_cons_of_ne_nil hne
    have hx : x.isDigit = true := htext x List.mem_cons_self
    have hsuffix : ∀ y ∈ b, isWordPart y = true := fun y hy =>
      isWordPart_of_isDigit (hdigits y (by simp [hy]))
    have hnot := (h x rfl (isWordPart_of_isDigit hx) b (List.suffix_append a b) hb hsuffix).1
    rw [hx] at hnot
    cases hnot
  · cases c with
    | nil => rfl
    | cons x xs =>
      have hx := hdigits x (by simp)
      rw [hrest x rfl] at hx
      cases hx

/-- **A token separates**: behind it, again nothing is cut in two. -/
theorem lexeme {kind : Kind} (h : Cut front (text ++ rest)) (hl : IsLexeme front rest kind text) :
    Cut (front ++ text) rest := by
  cases hl with
  | word hword => exact cut_of_head? (isWordPart_head?_of_isMaximal hword)
  | numeral hnumeral =>
    obtain ⟨hne, hdigits⟩ := hnumeral.mem
    intro c hc hpart b hb hb_ne hparts
    refine ⟨isDigit_head?_of_isMaximal hnumeral c hc, ?_⟩
    obtain ⟨a, hb⟩ := hb
    rcases List.append_eq_append_iff.mp hb with ⟨b', rfl, rfl⟩ | ⟨a', -, rfl⟩
    · -- The word characters reach back over the whole numeral, which starts with a digit.
      obtain ⟨x, xs, rfl⟩ := List.exists_cons_of_ne_nil hne
      have hx : x.isDigit = true := hdigits x List.mem_cons_self
      have hfront : ∀ d ∈ b', isWordPart d = true := fun d hd =>
        hparts d (List.mem_append_left _ hd)
      have hnil : b' = [] := by
        by_contra hb'
        have hnot := (h x rfl (isWordPart_of_isDigit hx) b' (List.suffix_append a b') hb' hfront).1
        rw [hx] at hnot
        cases hnot
      rw [hnil, List.nil_append]
      exact hdigits
    · exact fun d hd => hdigits d (List.mem_append_right a' hd)
  | @string body =>
    have hlast : front ++ '"' :: (body ++ ['"']) = (front ++ '"' :: body) ++ ['"'] := by simp
    rw [hlast]
    exact cut_concat (by decide)
  | unclosed _ hrest =>
    refine cut_of_head? fun c hc => ?_
    rw [hrest c hc]
    decide
  | @symbol c hpunctuation _ hunderscore _ =>
    have hpart : isWordPart c = false := by
      simp only [isPunctuation, Bool.and_eq_true, Bool.not_eq_true'] at hpunctuation
      simp [isWordPart, hpunctuation.2, hunderscore]
    exact cut_concat hpart
  | stray _ _ hrest => exact cut_of_head? fun c hc => isWordPart_eq_false_of_isBlank (hrest c hc)

end Cut

/-! ### Cutting a token off -/

/-- The text of a lexeme that opened with a quote, up to a closing quote or the end of the line. -/
theorem exists_quotedExtent (escaped : Bool) (length : Nat) (cs : List Char) :
    ∃ body rest, cs = body ++ rest ∧ '\n' ∉ body ∧
      (quotedExtent escaped length cs).2 = length + body.length ∧
      (((quotedExtent escaped length cs).1 = .string ∧ ∃ inner, body = inner ++ ['"']) ∨
        ((quotedExtent escaped length cs).1 = .unknown ∧ ∀ c ∈ rest.head?, c = '\n')) := by
  fun_induction quotedExtent escaped length cs with
  | case1 escaped length =>
    exact ⟨[], [], rfl, List.not_mem_nil, rfl, .inr ⟨rfl, fun c hc => by cases hc⟩⟩
  | case2 escaped length cs =>
    refine ⟨[], '\n' :: cs, rfl, List.not_mem_nil, rfl, .inr ⟨rfl, ?_⟩⟩
    intro c hc
    exact (Option.some.inj hc).symm
  | case4 escaped length cs =>
    exact ⟨['"'], cs, rfl, by decide, rfl, .inl ⟨rfl, [], rfl⟩⟩
  | case3 length c cs hc ih | case5 escaped length c cs hc _ _ ih =>
    obtain ⟨body, rest, rfl, hbody, hlength, hkind⟩ := ih
    refine ⟨c :: body, rest, rfl, List.not_mem_cons_of_ne_of_not_mem (Ne.symm hc) hbody, ?_, ?_⟩
    · rw [hlength, List.length_cons]
      omega
    · rcases hkind with ⟨hstring, inner, rfl⟩ | hunknown
      · exact .inl ⟨hstring, c :: inner, rfl⟩
      · exact .inr hunknown

/-- What is no token of another class starts with a character that has no place in a text. -/
theorem isStray_of_eq_false {c : Char} (hblank : isBlank c = false)
    (hword : isWordStart c = false) (hdigit : c.isDigit = false)
    (hpunctuation : isPunctuation c = false) : IsStray c := by
  have hle (a b : Char) : a ≤ b ↔ a.toNat ≤ b.toNat := Char.le_def.trans UInt32.le_iff_toNat_le
  have halpha : c.isAlpha = false := (Bool.or_eq_false_iff.mp hword).1
  have hspace : c.toNat ≠ 0x20 := by
    intro hc
    obtain rfl : c = ' ' := Char.toNat_inj.mp hc
    cases hblank
  have hrange : ¬ ('!' ≤ c ∧ c ≤ '~') := by
    rintro ⟨hlower, hupper⟩
    simp [isPunctuation, Char.isAlphanum, halpha, hdigit, hlower, hupper] at hpunctuation
  have hbang : '!'.toNat = 0x21 := rfl
  have htilde : '~'.toNat = 0x7e := rfl
  rw [hle, hle] at hrange
  by_cases hascii : c.toNat < 0x80
  · exact .inr ⟨by omega, hblank⟩
  · exact .inl (by omega)

private theorem head?_dropWhile {p : Char → Bool} (cs : List Char) :
    ∀ c ∈ (cs.dropWhile p).head?, p c = false := by
  intro c hc
  have hhead := List.head?_dropWhile_not p cs
  rw [Option.mem_def.mp hc] at hhead
  exact hhead

/-- A first character, and what follows it as long as it is of some class. -/
private theorem cons_eq_append_dropWhile (p : Char → Bool) (c : Char) (cs : List Char) :
    c :: cs = (c :: cs.takeWhile p) ++ cs.dropWhile p := by
  rw [List.cons_append, List.takeWhile_append_dropWhile]

private theorem forall_mem_cons_takeWhile {p : Char → Bool} {c : Char} (hc : p c = true)
    (cs : List Char) : ∀ d ∈ c :: cs.takeWhile p, p d = true :=
  List.forall_mem_cons.mpr ⟨hc, fun _ => List.mem_takeWhile_imp⟩

/-- **The lexeme that is cut off is a token**, if nothing has been cut in two before it and neither
a blank nor a comment starts there. -/
theorem exists_isLexeme_extent {front cs : List Char} {c : Char} (hcut : Cut front (c :: cs))
    (hblank : isBlank c = false) (hcomment : ¬ (c = '/' ∧ cs.head? = some '/')) :
    ∃ text rest, c :: cs = text ++ rest ∧ text.length = (extent c cs).2 ∧
      IsLexeme front rest (extent c cs).1 text := by
  rw [extent]
  split
  · next hword =>
    have hsplit := cons_eq_append_dropWhile isWordPart c cs
    refine ⟨_, _, hsplit, rfl, .word ?_⟩
    rw [hsplit] at hcut
    obtain ⟨hpart, hdigit⟩ := of_isWordStart hword
    -- To the right the word ends because it took all it could, and to the left because of the cut.
    exact hcut.isMaximal_word ⟨⟨c, _, rfl, hdigit⟩, forall_mem_cons_takeWhile hpart cs⟩
      (head?_dropWhile cs)
  next hword =>
  split
  · next hdigit =>
    have hsplit := cons_eq_append_dropWhile Char.isDigit c cs
    refine ⟨_, _, hsplit, rfl, .numeral ?_⟩
    rw [hsplit] at hcut
    exact hcut.isMaximal_numeral ⟨List.cons_ne_nil _ _, forall_mem_cons_takeWhile hdigit cs⟩
      (head?_dropWhile cs)
  next hdigit =>
  split
  · next hquote =>
    obtain ⟨body, rest, rfl, hbody, hlength, hkind⟩ := exists_quotedExtent false 1 cs
    refine ⟨c :: body, rest, rfl, ?_, ?_⟩
    · rw [hlength, List.length_cons]
      omega
    · subst hquote
      rcases hkind with ⟨hstring, inner, rfl⟩ | ⟨hunknown, hrest⟩
      · rw [hstring]
        exact .string fun hmem => hbody (List.mem_append_left _ hmem)
      · rw [hunknown]
        exact .unclosed hbody hrest
  next hquote =>
  split
  · next hpunctuation =>
    refine ⟨[c], cs, rfl, rfl, .symbol hpunctuation hquote ?_ ?_⟩
    · rintro rfl
      exact hword (by decide)
    -- A second slash would have made the first one part of a gap.
    · exact fun hslash hnext => hcomment ⟨hslash, hnext⟩
  next hpunctuation =>
  have hsplit := cons_eq_append_dropWhile (fun d => !isBlank d) c cs
  refine ⟨_, _, hsplit, rfl, .stray ?_ ?_ ?_⟩
  · rw [Bool.not_eq_true] at hword hdigit hpunctuation
    exact isStray_of_eq_false hblank hword hdigit hpunctuation
  · have hfirst : (fun d => !isBlank d) c = true := by simp [hblank]
    intro d hd
    simpa using forall_mem_cons_takeWhile hfirst cs d hd
  · intro d hd
    simpa using head?_dropWhile cs d hd

/-! ### Tilings -/

/-- The text behind `front` is covered by gaps and tokens, in turn, where the tokens have these
spellings. A gap may be empty; a token is not, and keeps to its line. -/
inductive Tiles : (front text : List Char) → List Spelling → Prop where
  | gap {front text : List Char} : IsGap [] text → Tiles front text []
  | token {front gap text rest : List Char} {kind : Kind} {spellings : List Spelling} :
      IsGap (text ++ rest) gap → IsLexeme (front ++ gap) rest kind text →
        text ≠ [] → '\n' ∉ text → Tiles (front ++ gap ++ text) rest spellings →
          Tiles front (gap ++ text ++ rest) (⟨kind, String.ofList text⟩ :: spellings)

namespace IsLexeme

variable {front text rest : List Char} {kind : Kind}

/-- A lexeme is never empty. -/
private theorem ne_nil (h : IsLexeme front rest kind text) : text ≠ [] := by
  cases h with
  | word hword =>
    obtain ⟨⟨c, cs, rfl, -⟩, -⟩ := hword.mem
    exact List.cons_ne_nil c cs
  | numeral hnumeral => exact hnumeral.mem.1
  | string | unclosed | symbol | stray => exact List.cons_ne_nil _ _

/-- No lexeme holds a line feed: a string that is not closed on its line stops in front of
it. -/
theorem newline_notMem (h : IsLexeme front rest kind text) : '\n' ∉ text := by
  cases h with
  | word hword => exact fun hmem => absurd (hword.mem.2 _ hmem) (by decide)
  | numeral hnumeral => exact fun hmem => absurd (hnumeral.mem.2 _ hmem) (by decide)
  | string hbody => simpa using hbody
  | unclosed hbody => simpa using hbody
  | symbol hpunctuation =>
    intro hmem
    rw [← List.mem_singleton.mp hmem] at hpunctuation
    exact absurd hpunctuation (by decide)
  | stray _ hblank => exact fun hmem => absurd (hblank _ hmem) (by decide)

end IsLexeme

/-- **A text is tiled by its lexemes**, from every place on where nothing is cut in two. -/
theorem tiles_lexemes {front : List Char} (path : String) (cursor : Cursor) (text : List Char)
    (hcut : Cut front text) :
    Tiles front text ((lexemes path cursor text).map fun l => l.token.spelling) := by
  fun_induction lexemes path cursor text generalizing front with
  | case1 cursor text stop hscan =>
    obtain ⟨gap, htext, hgap⟩ := exists_isGap_skipGap false cursor text
    rw [scan_eq_done_iff.mp hscan] at htext hgap
    rw [List.append_nil] at htext
    subst htext
    exact .gap hgap
  | case2 cursor text l rest hscan ih =>
    obtain ⟨start, c, cs, hskip, rfl, rfl⟩ := scan_eq_found_iff.mp hscan
    obtain ⟨gap, htext, hgap⟩ := exists_isGap_skipGap false cursor text
    obtain ⟨hblank, hcomment⟩ := of_skipGap_eq_cons hskip
    rw [hskip] at htext hgap
    subst htext
    have hstart := hcut.gap hgap
    obtain ⟨word, rest, hsplit, hlength, hlexeme⟩ :=
      exists_isLexeme_extent hstart hblank hcomment
    have htake : (c :: cs).take (extent c cs).2 = word := by
      rw [hsplit]
      exact List.take_left' hlength
    have hdrop : (c :: cs).drop (extent c cs).2 = rest := by
      rw [hsplit]
      exact List.drop_left' hlength
    have hspelling : (lexemeAt path start c cs).token.spelling =
        ⟨(extent c cs).1, String.ofList word⟩ := by
      rw [← htake]
      rfl
    simp only [hsplit] at hstart hgap
    rw [hdrop] at ih
    rw [List.map_cons, hspelling, hdrop, hsplit, ← List.append_assoc]
    exact .token hgap hlexeme hlexeme.ne_nil hlexeme.newline_notMem (ih (hstart.lexeme hlexeme))

/-- Reading starts behind a byte order mark, if there is one. -/
theorem exists_mark (source : String) :
    ∃ mark, source.toList = mark ++ (opening source).2 ∧
      (mark = ['\ufeff'] ∨ mark = [] ∧ (opening source).2.head? ≠ some '\ufeff') := by
  rw [opening]
  split
  · next hsource => exact ⟨[], hsource, .inr ⟨rfl, by simp⟩⟩
  · next c cs hsource =>
    split
    · next hmark => exact ⟨[c], hsource, .inl (by rw [hmark])⟩
    · next hmark => exact ⟨[], hsource, .inr ⟨rfl, by simpa using hmark⟩⟩

/-- **Tokens tile their source text.** Behind a byte order mark, if there is one, the text consists
of gaps and tokens, in turn, and nothing else. A gap is made of blanks and comments. A token is not
empty and keeps to its line; it is a word or a numeral and as long as possible, a quoted string or
the rest of a line behind a quote, a single symbol, or a run of characters up to a blank that starts
with one that has no place in a text. -/
theorem tiles_tokenize (path source : String) :
    ∃ mark text, source.toList = mark ++ text ∧
      (mark = ['\ufeff'] ∨ mark = [] ∧ text.head? ≠ some '\ufeff') ∧
      Tiles [] text ((tokenize path source).map Token.spelling) := by
  obtain ⟨mark, hsource, hmark⟩ := exists_mark source
  refine ⟨mark, (opening source).2, hsource, hmark, ?_⟩
  rw [tokenize_eq, sourceLexemes, List.map_map]
  exact tiles_lexemes path (opening source).1 (opening source).2 (cut_nil _)

end Dwo
