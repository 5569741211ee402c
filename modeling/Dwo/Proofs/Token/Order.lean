import Dwo.Proofs.Token.Spelling

/-!
# The order of places

Places are ordered as they are met in reading, by row and then by column. Moving over a text moves
on in this order, so the tokens of a source text stand one behind the other, and the end of the text
stands behind all of them (`pairwise_position_tokenize`).

Rows and columns are compared together, as a pair in lexicographic order (`Location.position`).
Each character leads to a later position: a newline to a later row, any other one to a later
column of the same row.
-/

namespace Dwo

/-- The row and the column of a place, in the order of reading. -/
def Location.position (l : Location) : ℕ ×ₗ ℕ := toLex (l.row, l.column)

namespace Cursor

/-- The row and the column of a cursor, in the order of reading. -/
def position (c : Cursor) : ℕ ×ₗ ℕ := toLex (c.row, c.column)

private theorem position_location (c : Cursor) (path : String) :
    (c.location path).position = c.position := rfl

/-- Each character leads to a later position, in its row or in the next one. -/
private theorem position_lt_advance (c : Cursor) (ch : Char) :
    c.position < (c.advance ch).position := by
  rw [position, position, advance, Prod.Lex.toLex_lt_toLex]
  split
  · exact .inl (Nat.lt_succ_self c.row)
  · exact .inr ⟨rfl, Nat.lt_succ_self c.column⟩

private theorem position_le_past (c : Cursor) (text : List Char) :
    c.position ≤ (c.past text).position := by
  induction text generalizing c with
  | nil => exact le_rfl
  | cons ch text ih => exact (c.position_lt_advance ch).le.trans (ih (c.advance ch))

private theorem position_lt_past {text : List Char} (h : text ≠ []) (c : Cursor) :
    c.position < (c.past text).position := by
  obtain ⟨ch, rest, rfl⟩ := List.exists_cons_of_ne_nil h
  exact (c.position_lt_advance ch).trans_le ((c.advance ch).position_le_past rest)

end Cursor

/-- From any place on, lexemes stand one behind the other, in front of the end of the text. -/
theorem pairwise_position_lexemes (path : String) (cursor : Cursor) (text : List Char) :
    let positions := (lexemes path cursor text).map (fun l => l.token.location.position) ++
      [(cursor.past text).position]
    positions.Pairwise (· < ·) ∧ ∀ p ∈ positions, cursor.position ≤ p := by
  fun_induction lexemes path cursor text with
  | case1 cursor text stop hscan =>
    have hend := cursor.position_le_past text
    exact ⟨List.pairwise_singleton _ _, List.forall_mem_singleton.mpr hend⟩
  | case2 cursor text l rest hscan ih =>
    obtain ⟨gap, word, rfl, hne, -, hlocation, hstop⟩ := exists_word_of_scan_eq_found hscan
    have hgap : l.token.location.position = (cursor.past gap).position := by
      rw [hlocation, Cursor.position_location]
    have hend : cursor.past (gap ++ (word ++ rest)) = l.stop.past rest := by
      rw [hstop, Cursor.past_append, Cursor.past_append]
    have hword : l.token.location.position < l.stop.position := by
      rw [hgap, hstop]
      exact Cursor.position_lt_past hne _
    obtain ⟨hpairwise, hle⟩ := ih
    rw [List.map_cons, hend]
    refine ⟨List.pairwise_cons.mpr ⟨fun p hp => hword.trans_le (hle p hp), hpairwise⟩, ?_⟩
    have hfirst : cursor.position ≤ l.token.location.position := by
      rw [hgap]
      exact cursor.position_le_past gap
    exact List.forall_mem_cons.mpr ⟨hfirst, fun p hp => hfirst.trans (hword.le.trans (hle p hp))⟩

/-- **The tokens of a source text stand one behind the other**, in front of its end. -/
theorem pairwise_position_tokenize (path source : String) :
    ((tokenize path source ++ [closingToken path source]).map Token.location).Pairwise
      fun l l' => l.position < l'.position := by
  have h := (pairwise_position_lexemes path (opening source).1 (opening source).2).1
  rw [← List.pairwise_map, List.map_map, List.map_append, tokenize_eq, List.map_map]
  exact h

end Dwo
