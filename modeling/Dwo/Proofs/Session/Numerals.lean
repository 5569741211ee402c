import Dwo.Proofs.Session.TokenStructure

/-!
# Integer literals

The number that an integer literal denotes has no bound, and two things are made of it. The value of
its token has a bound, and a number beyond it counts as the largest value; listings show this value.
A program shows the number itself, since there a literal is a text that has only lost its leading
zeros. The main result, `integer_literal_exact`, says so for every run of digits, and that the two
texts are the same exactly for the numbers within the bound.

Leading zeros are dropped from the text, all but the last digit at most, so the number is kept
(`decimal_dropWhile`). The bound is the largest value of a signed integer of 64 bits. Beyond it
the listing and the program differ, and the result says exactly where.
-/

namespace Dwo

/-- The number that digits denote, the last of them being worth the least. -/
theorem decimal_eq_ofDigits (ds : List Char) :
    decimal ds = Nat.ofDigits 10 (ds.reverse.map fun d => d.toNat - '0'.toNat) := by
  rw [decimal, Nat.ofDigits_eq_foldr, List.foldr_map, List.foldr_reverse]
  simp only [Nat.cast_id, Nat.add_comm]

/-- What is left without leading zeros starts with a zero only if it is one. -/
theorem trimZeros_eq_zero {digits : String} (h : (trimZeros digits).toList.head? = some '0') :
    trimZeros digits = "0" := by
  have hhead := List.head?_dropWhile_not (· == '0') digits.toList
  rw [trimZeros] at h ⊢
  generalize digits.toList.dropWhile (· == '0') = ds at h hhead
  cases ds with
  | nil => rfl
  | cons d ds =>
    rw [String.toList_ofList, List.head?_cons] at h
    rw [Option.some.inj h] at hhead
    cases hhead

/-- Digits alone are a source text with one token. -/
theorem tokenize_numeral {digits : String} (h : IsNumeral digits.toList) (path : String) :
    tokenize path digits =
      [⟨.integer, digits, lexemeValue .integer digits.toList, ⟨path, 1, 0⟩⟩] := by
  have hoccurs : (⟨.integer, digits⟩ : Spelling).Occurs := Spelling.occurs_of_isNumeral h
  have hstands : (⟨.integer, digits⟩ : Spelling).Stands [] :=
    hoccurs.stands (Spelling.endsBefore_of_newline _ (by simp))
  have hmark : digits.toList.head? ≠ some '\ufeff' := by
    intro hhead
    have hdigit := h.2 _ (List.mem_of_mem_head? hhead)
    exact absurd hdigit (by decide)
  have hlexemes := hstands.lexemes_append path .start
  have hend (stop : Cursor) : lexemes path stop [] = [] := lexemes_of_skipGap_eq_nil rfl path
  rw [List.append_nil, hend] at hlexemes
  rw [tokenize_eq, sourceLexemes, opening_of_head? hmark, hlexemes]
  rfl

private theorem toString_min_eq_iff (n m : ℕ) :
    toString ((min n m : ℕ) : Int) = toString n ↔ n ≤ m := by
  have hcast : toString ((min n m : ℕ) : Int) = toString (min n m) := rfl
  rw [hcast, Nat.toString_eq_repr, Nat.toString_eq_repr, Nat.repr_inj, min_eq_left_iff]

/-- **A literal is shown by its value and compiled to its number.** Let `n` be the number that a run
of digits denotes. Alone, the digits are one integer token. Wherever a token has this text, its
value is `n`, but at most the largest of the signed numbers of 64 bits; it is written in a program
as the decimal form of `n`, which does not start with a zero unless it is `0`; and the value that
listings of tokens and of trees show is the same text exactly if `n` is not larger than that
number. -/
theorem integer_literal_exact {digits : String} (h : IsNumeral digits.toList) :
    let n : ℕ := Nat.ofDigits 10 (digits.toList.reverse.map fun d => d.toNat - '0'.toNat)
    (∀ path, tokenize path digits =
      [⟨.integer, digits, min (n : Int) (2 ^ 63 - 1), ⟨path, 1, 0⟩⟩]) ∧
    ∀ path source, ∀ t ∈ tokenize path source, t.kind = .integer → t.text = digits →
      t.value = min (n : Int) (2 ^ 63 - 1) ∧
      t.operandText = toString n ∧ exprText [.token t] = .ok t.operandText ∧
      (t.operandText.toList.head? = some '0' → t.operandText = "0") ∧
      ∃ shown, t.dump = "Token::Int(" ++ shown ++ ")" ∧
        (Node.token t).dump = "Token::Int(" ++ shown ++ ")" ∧
        (shown = t.operandText ↔ n ≤ 2 ^ 63 - 1) := by
  intro n
  have hn : decimal digits.toList = n := decimal_eq_ofDigits _
  have hvalue : lexemeValue .integer digits.toList = min (n : Int) (2 ^ 63 - 1) := by
    rw [lexemeValue, if_pos rfl, hn]
    rfl
  refine ⟨fun path => by rw [tokenize_numeral h, hvalue], ?_⟩
  rintro path source t ht hkind rfl
  have htext : t.operandText = trimZeros t.text := by rw [Token.operandText, hkind]
  have hnumber : t.operandText = toString n := by rw [htext, trimZeros_eq h, hn]
  have htoken : t.value = ((min n (2 ^ 63 - 1) : ℕ) : Int) := by
    rw [value_of_mem_tokenize ht, hkind, hvalue, Nat.cast_min]
    rfl
  have hdump : t.dump = "Token::Int(" ++ toString t.value ++ ")" := by rw [Token.dump, hkind]
  refine ⟨?_, hnumber, ?_, ?_, toString t.value, hdump, hdump, ?_⟩
  · rw [value_of_mem_tokenize ht, hkind, hvalue]
  · rw [exprText_cons, exprItems, exprItem, if_pos (Token.isOperand_iff.mpr (.inr (.inl hkind)))]
    exact congrArg Except.ok String.append_empty
  · rw [htext]
    exact trimZeros_eq_zero
  · rw [hnumber, htoken, toString_min_eq_iff]

/-- Leading zeros in front of the first number that is too large for a value. -/
theorem integer_literal_exact_beyond :
    let digits := "009223372036854775808"
    let source := "let a := 009223372036854775808;"
    let t : Token := ⟨.integer, digits, 9223372036854775807, ⟨"m", 1, 9⟩⟩
    let n : ℕ := Nat.ofDigits 10 (digits.toList.reverse.map fun d => d.toNat - '0'.toNat)
    IsNumeral digits.toList ∧ t ∈ tokenize "m" source ∧ t.kind = .integer ∧ t.text = digits ∧
      (∀ path, tokenize path digits =
        [⟨.integer, digits, min (n : Int) (2 ^ 63 - 1), ⟨path, 1, 0⟩⟩]) ∧
      t.value = min (n : Int) (2 ^ 63 - 1) ∧
      t.operandText = toString n ∧ exprText [.token t] = .ok t.operandText ∧
      (t.operandText.toList.head? = some '0' → t.operandText = "0") ∧
      ∃ shown, t.dump = "Token::Int(" ++ shown ++ ")" ∧
        (Node.token t).dump = "Token::Int(" ++ shown ++ ")" ∧
        (shown = t.operandText ↔ n ≤ 2 ^ 63 - 1) := by
  intro digits source t n
  have htokens : tokenize "m" "let a := 009223372036854775808;" =
      [⟨.identifier, "let", 0, ⟨"m", 1, 0⟩⟩, ⟨.identifier, "a", 0, ⟨"m", 1, 4⟩⟩,
        ⟨.symbol, ":", 0, ⟨"m", 1, 6⟩⟩, ⟨.symbol, "=", 0, ⟨"m", 1, 7⟩⟩, t,
        ⟨.symbol, ";", 0, ⟨"m", 1, 30⟩⟩] := by
    rw [tokenize_eq]
    cbv
  have hmem : t ∈ tokenize "m" source := by
    rw [htokens]
    simp
  have hdigits : IsNumeral digits.toList := (occurs_of_mem_tokenize hmem).isNumeral rfl
  obtain ⟨halone, hall⟩ := integer_literal_exact hdigits
  exact ⟨hdigits, hmem, rfl, rfl, halone, hall "m" source t hmem rfl rfl⟩

end Dwo
