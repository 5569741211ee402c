import Dwo.Proofs.Session.TokenStructure

/-!
# Strings in compiled programs

A string of the source is written into a program as it stands. In the source, a backslash protects
whatever character is behind it (`IsPaired`); in a program, it starts an escape, and strict mode
knows only some of them (`IsEscape`). So not every string makes a literal of the program:
`emitted_strings_refused` shows two that do not. The main result, `strings_of_compile`, says which
ones do.

A literal of a program is a chain of characters and escapes (`IsStringBody`), and an escape may be
longer than the pair of characters that it starts with. Still, both ways to divide a string agree on
where escapes start, because there is no backslash behind the first character of an escape
(`isStringLiteral_iff`).

* `IsPaired`: the bodies of strings of the source;
* `IsEscape`: the escapes of strict mode, with their hexadecimal digits;
* `IsStrict`: bodies in which each backslash that protects something starts such an escape, and
  no carriage return stands by itself.

That the strings of the source appear in the program unchanged, in their order, is part of the
result: they are found among the tokens of the compiled text, which are known by `Node.target`.
Whether a string is a literal can therefore be asked of the source.
-/

namespace Dwo

/-! ### Strings of the source -/

/-- Characters, and pairs of a backslash and the character that it protects. Neither a quote nor a
backslash stands by itself, and the line does not end. -/
inductive IsPaired : List Char → Prop where
  | nil : IsPaired []
  | character {c : Char} {rest : List Char} :
      c ≠ '"' → c ≠ '\\' → c ≠ '\n' → IsPaired rest → IsPaired (c :: rest)
  | pair {c : Char} {rest : List Char} :
      c ≠ '\n' → IsPaired rest → IsPaired ('\\' :: c :: rest)

/-- A character that is not a backslash stands by itself. -/
theorem IsPaired.of_cons {c : Char} {rest : List Char} (h : IsPaired (c :: rest)) (hc : c ≠ '\\') :
    c ≠ '"' ∧ c ≠ '\n' ∧ IsPaired rest := by
  cases h with
  | character hquote _ hnewline hrest => exact ⟨hquote, hnewline, hrest⟩
  | pair => exact absurd rfl hc

/-- A text without a backslash can be taken off, and put in front of something else. -/
theorem IsPaired.of_append {front rest : List Char} (h : IsPaired (front ++ rest))
    (hfront : '\\' ∉ front) :
    IsPaired rest ∧ ∀ rest', IsPaired rest' → IsPaired (front ++ rest') := by
  induction front with
  | nil => exact ⟨h, fun _ => id⟩
  | cons c front ih =>
    have hc : c ≠ '\\' := (List.ne_of_not_mem_cons hfront).symm
    obtain ⟨hquote, hnewline, h⟩ := IsPaired.of_cons h hc
    obtain ⟨hrest, hput⟩ := ih h (List.not_mem_of_not_mem_cons hfront)
    exact ⟨hrest, fun rest' h' => .character hquote hc hnewline (hput rest' h')⟩

/-- What is scanned up to the closing quote is paired, together with a backslash in front. -/
theorem exists_isPaired_of_quotedExtent {escaped : Bool} {length n : ℕ} {cs : List Char}
    (h : quotedExtent escaped length cs = (.string, n)) :
    ∃ body rest, cs = body ++ '"' :: rest ∧ n = length + body.length + 1 ∧
      IsPaired ((if escaped then ['\\'] else []) ++ body) := by
  fun_induction quotedExtent escaped length cs with
  | case1 => cases h
  | case2 => cases h
  | case3 length c cs hnewline ih =>
    obtain ⟨body, rest, rfl, hn, hbody⟩ := ih h
    refine ⟨c :: body, rest, rfl, ?_, .pair hnewline hbody⟩
    rw [hn, List.length_cons]
    omega
  | case4 escaped length cs hescaped =>
    refine ⟨[], cs, rfl, (Prod.mk.inj h).2.symm, ?_⟩
    rw [if_neg hescaped]
    exact .nil
  | case5 escaped length c cs hnewline hescaped hquote ih =>
    obtain ⟨body, rest, rfl, hn, hbody⟩ := ih h
    refine ⟨c :: body, rest, rfl, ?_, ?_⟩
    · rw [hn, List.length_cons]
      omega
    · rw [if_neg hescaped]
      by_cases hbackslash : c = '\\'
      · rw [if_pos (beq_iff_eq.mpr hbackslash)] at hbody
        rw [hbackslash]
        exact hbody
      · rw [if_neg (by simpa using hbackslash)] at hbody
        exact .character hquote hbackslash hnewline hbody

/-- A string token is paired between its quotes. -/
theorem Spelling.Occurs.exists_isPaired {s : Spelling} (h : s.Occurs) (hkind : s.kind = .string) :
    ∃ body, s.text.toList = '"' :: (body ++ ['"']) ∧ IsPaired body := by
  obtain ⟨rest, hstands⟩ := h
  have hlexeme := hstands.isLexeme
  obtain ⟨c, cs, htext, -, -, hextent⟩ := hstands
  rw [hkind] at hlexeme hextent
  rw [htext] at hlexeme
  obtain rfl : c = '"' := by
    cases hlexeme with
    | string => rfl
  have hscan : quotedExtent false 1 (cs ++ rest) = (.string, cs.length + 1) := hextent
  obtain ⟨body, rest', hsplit, hlength, hbody⟩ := exists_isPaired_of_quotedExtent hscan
  rw [List.append_cons] at hsplit
  have hlength' : cs.length = (body ++ ['"']).length := by
    rw [List.length_append, List.length_singleton]
    omega
  obtain ⟨rfl, -⟩ := List.append_inj hsplit hlength'
  exact ⟨body, htext, hbody⟩

/-! ### Literals of a program -/

/-- Hexadecimal digits. -/
def isHexDigit (c : Char) : Bool :=
  c.isDigit || (decide ('a' ≤ c) && decide (c ≤ 'f')) || (decide ('A' ≤ c) && decide (c ≤ 'F'))

/-- The number that a hexadecimal digit stands for. -/
def hexDigitValue (c : Char) : ℕ :=
  if c.isDigit then c.toNat - '0'.toNat else c.toLower.toNat - 'a'.toNat + 10

/-- The number that a run of hexadecimal digits denotes. -/
def hexadecimal (digits : List Char) : ℕ :=
  digits.foldl (fun n d => 16 * n + hexDigitValue d) 0

/-- What can stand between a backslash and the text `rest` in a string of strict mode. -/
inductive IsEscape (rest : List Char) : List Char → Prop where
  /-- A character for itself, a control character by its letter, or the end of a line. -/
  | character {c : Char} : c.isDigit = false → c ≠ 'x' → c ≠ 'u' → IsEscape rest [c]
  /-- The end of a line, if it is made of two characters. -/
  | lineEnd : IsEscape rest ['\r', '\n']
  /-- The character zero. Other digits, or more of them, would be an octal number. -/
  | zero : (∀ c ∈ rest.head?, c.isDigit = false) → IsEscape rest ['0']
  | byte {a b : Char} : isHexDigit a = true → isHexDigit b = true → IsEscape rest ['x', a, b]
  | unit {a b c d : Char} :
      isHexDigit a = true → isHexDigit b = true → isHexDigit c = true → isHexDigit d = true →
        IsEscape rest ['u', a, b, c, d]
  | codePoint {digits : List Char} :
      digits ≠ [] → (∀ d ∈ digits, isHexDigit d = true) → hexadecimal digits ≤ 0x10ffff →
        IsEscape rest ('u' :: '\x7b' :: (digits ++ ['\x7d']))

/-- What can stand between the quotes of a literal of strict mode. -/
inductive IsStringBody : List Char → Prop where
  | nil : IsStringBody []
  | character {c : Char} {rest : List Char} :
      c ≠ '"' → c ≠ '\\' → c ≠ '\n' → c ≠ '\r' → IsStringBody rest → IsStringBody (c :: rest)
  | escape {e rest : List Char} :
      IsEscape rest e → IsStringBody rest → IsStringBody ('\\' :: (e ++ rest))

/-- The literals in double quotes that strict mode knows. -/
def IsStringLiteral (text : String) : Prop :=
  ∃ body, text.toList = '"' :: (body ++ ['"']) ∧ IsStringBody body

/-- Behind its first character, an escape has no backslash and no carriage return. -/
theorem IsEscape.exists_cons {rest e : List Char} (h : IsEscape rest e) :
    ∃ c tail, e = c :: tail ∧ '\\' ∉ tail ∧ '\r' ∉ tail := by
  have hhex {d : Char} (hd : isHexDigit d = true) : '\\' ≠ d ∧ '\r' ≠ d := by
    constructor <;> rintro rfl <;> exact absurd hd (by decide)
  cases h with
  | character | zero => exact ⟨_, [], rfl, List.not_mem_nil, List.not_mem_nil⟩
  | lineEnd => exact ⟨_, _, rfl, by decide, by decide⟩
  | byte ha hb => exact ⟨_, _, rfl, by simp [hhex ha, hhex hb], by simp [hhex ha, hhex hb]⟩
  | unit ha hb hc hd =>
    exact ⟨_, _, rfl, by simp [hhex ha, hhex hb, hhex hc, hhex hd],
      by simp [hhex ha, hhex hb, hhex hc, hhex hd]⟩
  | codePoint _ hdigits =>
    refine ⟨_, _, rfl, ?_, ?_⟩
    · simpa using fun hmem => (hhex (hdigits _ hmem)).1 rfl
    · simpa using fun hmem => (hhex (hdigits _ hmem)).2 rfl

/-- The only escape by a digit is that of zero. -/
theorem IsEscape.eq_zero_of_isDigit {rest e tail : List Char} {c : Char} (h : IsEscape rest e)
    (he : c :: tail = e ++ rest) (hc : c.isDigit = true) : c = '0' := by
  cases h with
  | character hdigit =>
    obtain rfl := (List.cons.inj he).1
    exact absurd hc (by simp [hdigit])
  | zero => exact (List.cons.inj he).1
  | lineEnd | byte | unit | codePoint =>
    obtain rfl := (List.cons.inj he).1
    exact absurd hc (by decide)

/-! ### Strings that are literals -/

/-- Wherever a character or a pair starts, it is not a carriage return, and a backslash starts an
escape. -/
def IsStrict (body : List Char) : Prop :=
  ∀ front back, body = front ++ back → IsPaired front →
    back.head? ≠ some '\r' ∧
      ∀ behind, back = '\\' :: behind → ∃ e rest, behind = e ++ rest ∧ IsEscape rest e

private theorem IsStringBody.isStrict {body : List Char} (h : IsStringBody body) :
    IsStrict body := by
  induction h with
  | nil =>
    rintro front back hsplit -
    obtain ⟨-, rfl⟩ := List.nil_eq_append_iff.mp hsplit
    exact ⟨by simp, by simp⟩
  | @character c rest hquote hbackslash hnewline hreturn _ ih =>
    rintro front back hsplit hfront
    cases hfront with
    | nil =>
      obtain rfl : c :: rest = back := hsplit
      exact ⟨by simpa using hreturn, by simp [hbackslash]⟩
    | character _ _ _ hfront =>
      obtain ⟨-, hsplit⟩ := List.cons.inj hsplit
      exact ih _ _ hsplit hfront
    | pair => exact absurd (List.cons.inj hsplit).1 hbackslash
  | @escape e rest hescape _ ih =>
    rintro front back hsplit hfront
    cases hfront with
    | nil =>
      obtain rfl : '\\' :: (e ++ rest) = back := hsplit
      refine ⟨by simp, fun behind hbehind => ⟨e, rest, ?_, hescape⟩⟩
      exact (List.cons.inj hbehind).2.symm
    | character _ hbackslash => exact absurd (List.cons.inj hsplit).1.symm hbackslash
    | @pair c front _ hfront =>
      -- The pair is the start of the escape; `back` starts behind the escape or inside of it.
      obtain ⟨d, tail, rfl, hbackslash, hreturn⟩ := hescape.exists_cons
      have htail : tail ++ rest = front ++ back := (List.cons.inj (List.cons.inj hsplit).2).2
      obtain ⟨middle, rfl, rfl⟩ | ⟨middle, rfl, rfl⟩ := List.append_eq_append_iff.mp htail
      · exact ih middle back rfl (hfront.of_append hbackslash).1
      · cases middle with
        | nil => exact ih [] _ rfl .nil
        | cons m middle =>
          have hm : m ∈ front ++ m :: middle := by simp
          refine ⟨fun hhead => ?_, fun behind hbehind => ?_⟩
          · obtain rfl := Option.some.inj hhead
            exact absurd hm hreturn
          · obtain rfl := (List.cons.inj hbehind).1
            exact absurd hm hbackslash

/-- What stands behind a paired text in a strict one is strict. -/
theorem IsStrict.of_append (front : List Char) {body : List Char} (h : IsStrict (front ++ body))
    (hfront : ∀ rest, IsPaired rest → IsPaired (front ++ rest)) : IsStrict body := by
  rintro front' back rfl hfront'
  exact h (front ++ front') back (List.append_assoc _ _ _).symm (hfront front' hfront')

private theorem IsStrict.isStringBody {body : List Char} (h : IsStrict body)
    (hpaired : IsPaired body) :
    IsStringBody body := by
  -- An escape can take more than a pair, so the induction is on the length.
  induction hlength : body.length using Nat.strong_induction_on generalizing body with
  | _ n ih =>
    subst hlength
    obtain ⟨hreturn, hescapes⟩ := h [] body rfl .nil
    cases hpaired with
    | nil => exact .nil
    | @character c rest hquote hbackslash hnewline hrest =>
      have hstrict : IsStrict rest :=
        .of_append [c] h fun _ => .character hquote hbackslash hnewline
      exact .character hquote hbackslash hnewline (by simpa using hreturn)
        (ih _ (by simp) hstrict hrest rfl)
    | @pair c rest hnewline hrest =>
      obtain ⟨e, rest', hsplit, hescape⟩ := hescapes _ rfl
      obtain ⟨d, tail, rfl, hbackslash, -⟩ := hescape.exists_cons
      obtain ⟨rfl, rfl⟩ := List.cons.inj hsplit
      obtain ⟨hrest', hput⟩ := hrest.of_append hbackslash
      have hstrict : IsStrict rest' :=
        .of_append ('\\' :: c :: tail) h fun rest hr => .pair hnewline (hput rest hr)
      have hlength : rest'.length < ('\\' :: c :: (tail ++ rest')).length := by
        simp only [List.length_cons, List.length_append]
        omega
      exact .escape hescape (ih _ hlength hstrict hrest' rfl)

/-- **A string of the source is a literal of the program exactly if it is strict.** -/
theorem isStringLiteral_iff {text : String} {body : List Char} (hpaired : IsPaired body)
    (htext : text.toList = '"' :: (body ++ ['"'])) : IsStringLiteral text ↔ IsStrict body := by
  constructor
  · rintro ⟨body', htext', hbody⟩
    rw [htext] at htext'
    obtain rfl := List.append_cancel_right (List.cons.inj htext').2
    exact hbody.isStrict
  · exact fun h => ⟨body, htext, h.isStringBody hpaired⟩

/-! ### Strings of a declaration -/

private theorem Token.target_eq_of_kind {t : Token} (h : t.target.kind = .string) :
    t.target = t.spelling := by
  rw [target] at h ⊢
  split
  · next hkind =>
    rw [hkind] at h
    cases h
  · rfl

private theorem Spelling.ne_of_kind_eq_string {s : Spelling} (h : s.kind = .string) :
    (∀ text, s ≠ .word text) ∧ ∀ text, s ≠ .symbol text := by
  constructor <;> rintro text rfl <;> cases h

namespace Node

variable {s : Spelling}

private theorem exists_exact_of_mem_targetExpr {items : List Node} (h : s ∈ targetExpr items)
    (hkind : s.kind = .string) : ∃ t, Piece.exact t ∈ itemPieces items ∧ t.spelling = s := by
  obtain ⟨item, hitem, hs⟩ := List.mem_flatMap.mp h
  cases item with
  | token t =>
    obtain rfl := List.mem_singleton.mp hs
    exact ⟨t, List.mem_flatMap.mpr ⟨_, hitem, List.mem_singleton_self _⟩,
      (Token.target_eq_of_kind hkind).symm⟩
  | _ => cases hs

private theorem exists_exact_of_mem_targetArg {arg : Node} (h : s ∈ arg.targetArg)
    (hkind : s.kind = .string) : ∃ t, Piece.exact t ∈ arg.argumentPieces ∧ t.spelling = s := by
  cases arg <;> exact exists_exact_of_mem_targetExpr h hkind

private theorem exists_exact_of_mem_targetArgs {args : List Node}
    (h : s ∈ [Spelling.symbol ","].intercalate (args.map targetArg)) (hkind : s.kind = .string) :
    ∃ t, Piece.exact t ∈ Piece.separated "," (args.map argumentPieces) ∧ t.spelling = s := by
  obtain ⟨arg, harg, hs⟩ : ∃ arg ∈ args, s ∈ arg.targetArg := by
    induction args with
    | nil => cases h
    | cons arg args ih =>
      cases args with
      | nil => exact ⟨arg, List.mem_cons_self, by simpa using h⟩
      | cons next args =>
        rw [List.map_cons, List.map_cons, List.intercalate_cons_cons, List.mem_append,
          List.mem_append] at h
        rcases h with (h | h) | h
        · exact ⟨arg, List.mem_cons_self, h⟩
        · exact absurd (List.mem_singleton.mp h) ((Spelling.ne_of_kind_eq_string hkind).2 _)
        · obtain ⟨a, ha, hs⟩ := ih h
          exact ⟨a, List.mem_cons_of_mem arg ha, hs⟩
  obtain ⟨t, ht, hspelling⟩ := exists_exact_of_mem_targetArg hs hkind
  exact ⟨t, Piece.mem_separated "," (List.mem_map_of_mem harg) ht, hspelling⟩

/-- A string among the tokens of a compiled statement is a token of that statement. -/
theorem exists_exact_of_mem_targetItem {item : Node} (h : s ∈ item.targetItem)
    (hkind : s.kind = .string) : ∃ t, Piece.exact t ∈ item.pieces ∧ t.spelling = s := by
  obtain ⟨hword, hsymbol⟩ := Spelling.ne_of_kind_eq_string hkind
  cases item with
  | token t =>
    rw [targetItem] at h
    split at h
    · rcases List.mem_cons.mp h with rfl | h
      · exact ⟨t, by simp [pieces], (Token.target_eq_of_kind hkind).symm⟩
      · exact absurd (List.mem_singleton.mp h) (hsymbol _)
    · cases h
  | varDecl name isMutable initializer =>
    have hs : s ∈ targetExpr initializer := by
      have hvalue : s ∈ if initializer.isEmpty then []
          else .symbol "=" :: targetExpr initializer := by
        simpa [targetItem, hword, hsymbol] using h
      split at hvalue
      · cases hvalue
      · exact (List.mem_cons.mp hvalue).resolve_left (hsymbol _)
    obtain ⟨t, ht, hspelling⟩ := exists_exact_of_mem_targetExpr hs hkind
    exact ⟨t, by simp [pieces, ht], hspelling⟩
  | assignment name items =>
    have hs : s ∈ targetExpr items := by simpa [targetItem, hword, hsymbol] using h
    obtain ⟨t, ht, hspelling⟩ := exists_exact_of_mem_targetExpr hs hkind
    exact ⟨t, by simp [pieces, ht], hspelling⟩
  | fnCall name args =>
    have hs : s ∈ [Spelling.symbol ","].intercalate (args.map targetArg) := by
      simpa [targetItem, hword, hsymbol] using h
    obtain ⟨t, ht, hspelling⟩ := exists_exact_of_mem_targetArgs hs hkind
    exact ⟨t, by simp [pieces, ht], hspelling⟩
  | _ => cases h

/-- So is a string of a compiled declaration. -/
theorem exists_exact_of_mem_target {node : Node} (h : s ∈ node.target)
    (hkind : s.kind = .string) : ∃ t, Piece.exact t ∈ node.pieces ∧ t.spelling = s := by
  cases node with
  | fnDecl name params body =>
    obtain ⟨hword, hsymbol⟩ := Spelling.ne_of_kind_eq_string hkind
    have hs : s ∈ body.flatMap targetItem := by
      rw [target, List.mem_append, List.mem_append] at h
      simpa only [List.mem_cons, List.not_mem_nil, hword, hsymbol, false_or, or_false] using h
    obtain ⟨item, hitem, hs⟩ := List.mem_flatMap.mp hs
    obtain ⟨t, ht, hspelling⟩ := exists_exact_of_mem_targetItem hs hkind
    have hbody : Piece.exact t ∈ bodyPieces body := by
      rw [bodyPieces_eq]
      exact List.mem_flatMap.mpr ⟨item, hitem, ht⟩
    exact ⟨t, by simp [pieces, hbody], hspelling⟩
  | _ => exact exists_exact_of_mem_targetItem h hkind

end Node

/-! ### Strings of a program -/

private theorem Node.contribution_of_isDeclaration {node : Node} (h : node.isDeclaration = true)
    (before : List Node) : node.contribution before = node.render ++ "\n" := by
  cases node with
  | varDecl | fnDecl => rfl
  | _ => cases h

private theorem renderings_append (before nodes nodes' : List Node) :
    renderings before (nodes ++ nodes') =
      renderings before nodes ++ renderings (before ++ nodes) nodes' := by
  induction nodes generalizing before with
  | nil => simp [renderings]
  | cons node nodes ih =>
    rw [List.cons_append, renderings, renderings, ih, String.append_assoc, List.append_assoc]
    rfl

/-- **The strings of a compiled program.** If a source text is compiled, then what stands in the
program for a declaration has only strings of the source, unchanged. Between the quotes, such a
string is paired, and its line does not end. It is a literal of strict mode exactly if no carriage
return stands outside of a pair, and the backslash of every pair starts an escape. -/
theorem strings_of_compile {path source text : String}
    (h : compile path source .javaScript = .ok text) :
    ∃ nodes r, (Reader.ofSource path source).ReadsAll nodes r ∧
      ∀ before node after, nodes = before ++ node :: after → node.isDeclaration = true →
        (∃ later, text = prologue ++ renderings [] before ++ (node.render ++ "\n") ++ later) ∧
        ∀ path', ∀ t ∈ tokenize path' (node.render ++ "\n"), t.kind = .string →
          (∃ u ∈ tokenize path source, u.spelling = t.spelling) ∧
          ∃ body, t.text.toList = '"' :: (body ++ ['"']) ∧ '\n' ∉ body ∧ IsPaired body ∧
            (IsStringLiteral t.text ↔ IsStrict body) := by
  obtain ⟨nodes, r, last, hreads, hfeed, rfl⟩ := exists_feed_of_compile h
  refine ⟨nodes, r, hreads, ?_⟩
  rintro before node after rfl hdeclaration
  have hrun := (Reader.readsAll_iff.mp hreads).1
  have hnode : node ∈ before ++ node :: after := by simp
  refine ⟨?_, fun path' t ht hkind => ?_⟩
  · obtain ⟨later, hfinish⟩ := last.exists_finish_eq
    obtain ⟨-, houtput⟩ := Script.Built.start.feed hfeed
    refine ⟨renderings (before ++ [node]) after ++ later, ?_⟩
    rw [hfinish, houtput, renderings_append, List.nil_append, renderings,
      Node.contribution_of_isDeclaration hdeclaration]
    simp only [String.append_assoc]
  · have hspelling : t.spelling ∈ node.target := by
      rw [← map_spelling_tokenize_render path' ((Open.wellFormed_initial.run hrun).2 node hnode)
        hdeclaration (Open.occurs_of_run (List.Subset.refl _) hrun node hnode)]
      exact List.mem_map_of_mem ht
    -- A string of the product is a piece of the node, and that is a token of the source.
    obtain ⟨u, hu, heq⟩ := Node.exists_exact_of_mem_target hspelling hkind
    have hoccurs := occurs_of_mem_tokenize ht
    obtain ⟨body, htext, hbody⟩ := hoccurs.exists_isPaired hkind
    have hnewline : '\n' ∉ body := by
      have hline := hoccurs.newline_notMem
      rw [htext] at hline
      simpa using hline
    obtain ⟨v, hv, rfl⟩ := Open.exists_agrees_of_run (List.Subset.refl _) hrun
      (List.mem_append_left _ (List.mem_flatMap.mpr ⟨node, hnode, hu⟩))
    exact ⟨⟨u, hv, heq⟩, body, htext, hnewline, hbody, isStringLiteral_iff hbody htext⟩

/-- An escaped quote, an escape that is longer than a pair, and a pair of backslashes. -/
theorem strings_of_compile_escapes :
    let source := "fn f() \x7b g(\"\\\"\", \"\\x41\\\\\"); \x7d"
    ∃ text, compile "m" source .javaScript = .ok text ∧
      ∃ nodes r, (Reader.ofSource "m" source).ReadsAll nodes r ∧
        ∀ before node after, nodes = before ++ node :: after → node.isDeclaration = true →
          (∃ later, text = prologue ++ renderings [] before ++ (node.render ++ "\n") ++ later) ∧
          ∀ path', ∀ t ∈ tokenize path' (node.render ++ "\n"), t.kind = .string →
            (∃ u ∈ tokenize "m" source, u.spelling = t.spelling) ∧
            ∃ body, t.text.toList = '"' :: (body ++ ['"']) ∧ '\n' ∉ body ∧ IsPaired body ∧
              (IsStringLiteral t.text ↔ IsStrict body) := by
  intro source
  let call : Node :=
    .fnCall "g" [.token ⟨.string, "\"\\\"\"", 0, ⟨"m", 1, 11⟩⟩,
      .token ⟨.string, "\"\\x41\\\\\"", 0, ⟨"m", 1, 17⟩⟩] ⟨"m", 1, 9⟩
  have hread : sourceStatements "m" source =
      .next (.fnDecl "f" [] [call] ⟨"m", 1, 3⟩) (.closed ⟨"m", 1, 29⟩) := by
    rw [sourceStatements_eq]
    cbv
  have hcompile : compile "m" source .javaScript = .ok (prologue ++
      "function f() \x7b\n  g(\"\\\"\", \"\\x41\\\\\");\n\x7d\n") := by
    rw [compile, Session.run_javaScript_eq, hread]
    rfl
  exact ⟨_, hcompile, strings_of_compile hcompile⟩

/-- An octal escape, and a carriage return: both strings are written into the program, where they
are no literals. -/
theorem emitted_strings_refused :
    let source := "let a := \"\\1\";\nlet b := \"x\ry\";"
    let program := "let a = \"\\1\";\nlet b = \"x\ry\";\n"
    compile "m" source .javaScript = .ok (prologue ++ program) ∧
      (tokenize "m" program).filter (·.kind = .string) =
        [⟨.string, "\"\\1\"", 0, ⟨"m", 1, 8⟩⟩, ⟨.string, "\"x\ry\"", 0, ⟨"m", 2, 8⟩⟩] ∧
      ¬ IsStringLiteral "\"\\1\"" ∧ ¬ IsStringLiteral "\"x\ry\"" := by
  intro source program
  let octal : Node :=
    .varDecl "a" true [.token ⟨.string, "\"\\1\"", 0, ⟨"m", 1, 9⟩⟩] ⟨"m", 1, 4⟩
  let broken : Node :=
    .varDecl "b" true [.token ⟨.string, "\"x\ry\"", 0, ⟨"m", 2, 9⟩⟩] ⟨"m", 2, 4⟩
  have hread : sourceStatements "m" source =
      .next octal (.next broken (.closed ⟨"m", 2, 15⟩)) := by
    rw [sourceStatements_eq]
    cbv
  refine ⟨?_, ?_, fun hliteral => ?_, fun hliteral => ?_⟩
  · rw [compile, Session.run_javaScript_eq, hread]
    rfl
  · rw [tokenize_eq]
    cbv
  · have hpaired : IsPaired ['\\', '1'] := .pair (by decide) .nil
    obtain ⟨-, hescapes⟩ := (isStringLiteral_iff hpaired rfl).mp hliteral [] _ rfl .nil
    obtain ⟨e, rest, hsplit, hescape⟩ := hescapes _ rfl
    exact absurd (hescape.eq_zero_of_isDigit hsplit (by decide)) (by decide)
  · have hfront : IsPaired ['x'] := .character (by decide) (by decide) (by decide) .nil
    have hpaired : IsPaired ['x', '\r', 'y'] := by
      repeat refine .character (by decide) (by decide) (by decide) ?_
      exact .nil
    exact ((isStringLiteral_iff hpaired rfl).mp hliteral ['x'] _ rfl hfront).1 rfl

end Dwo
