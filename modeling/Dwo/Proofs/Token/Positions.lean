import Dwo.Proofs.Token.Relexing

/-!
# Positions of scanners

A scanner can be copied, its position can be saved, and it can be sent to any position that it or
one of its copies has saved. However this is done, a scanner stands only at few positions of its
source text (`IsStation`): at its start, at the end of one of its tokens, or at its end. All of them
lie between two characters, although positions are counted in bytes. So what is cut from the text
next is always a token of that text (`IsStation.next`).

`Scanners` are the copies of a scanner with what they have saved, and `Scanners.run` does something
with them, one `Scanners.Action` after the other. The main result is `isStation_of_run`.

A copy can be asked for its next token in several ways, it can be copied, and it can be sent to
a position that has been saved. The invariant `Scanners.AtStations` says that all copies and all
saved positions are at stations. `AtStations.perform` shows that every action keeps it, and
returns only tokens of the source text; `AtStations.run` follows by induction on the actions.
That a station is a valid position in the sense of UTF-8 is a property of the text in front of
it.
-/

namespace Dwo

/-! ### Places between two characters -/

/-- Moving over whole characters leads to a place between two characters. -/
theorem isValid_past {source : String} {taken left : List Char}
    (h : (opening source).2 = taken ++ left) :
    String.Pos.Raw.IsValid source ⟨((opening source).1.past taken).offset⟩ := by
  obtain ⟨front, hsource, hoffset⟩ := Scanner.isAt_opening source
  refine String.Pos.Raw.isValid_iff_exists_append.mpr
    ⟨String.ofList (front ++ taken), String.ofList left, ?_, ?_⟩
  · rw [← String.ofList_append, List.append_assoc, ← h, ← hsource, String.ofList_toList]
  · rw [Cursor.offset_past, hoffset, ← String.utf8ByteSize_append, ← String.ofList_append]
    rfl

/-- The token `t` of a source text is what the bytes from `start` to `stop` spell. -/
structure Token.IsSlice (t : Token) (path source : String) (start stop : Cursor) : Prop where
  isValid_start : String.Pos.Raw.IsValid source ⟨start.offset⟩
  isValid_stop : String.Pos.Raw.IsValid source ⟨stop.offset⟩
  start_lt_stop : start.offset < stop.offset
  stop_le : stop.offset ≤ source.utf8ByteSize
  bytes : source.toByteArray.extract start.offset stop.offset = t.text.toByteArray
  location : t.location = start.location path

/-- A text that is not empty is the slice from its start to its stop. -/
theorem isSlice_past {path source : String} {before word rest : List Char} {t : Token}
    (h : (opening source).2 = before ++ (word ++ rest)) (hne : word ≠ [])
    (htext : t.text = String.ofList word)
    (hlocation : t.location = ((opening source).1.past before).location path) :
    t.IsSlice path source ((opening source).1.past before)
      (((opening source).1.past before).past word) := by
  obtain ⟨front, hsource, hoffset⟩ := Scanner.isAt_opening source
  have hstart : ((opening source).1.past before).offset =
      (String.ofList (front ++ before)).utf8ByteSize := by
    rw [Cursor.offset_past, hoffset, ← String.utf8ByteSize_append, ← String.ofList_append]
  have hpos : 0 < (String.ofList word).utf8ByteSize := by
    rw [Nat.pos_iff_ne_zero, Ne, String.utf8ByteSize_eq_zero_iff]
    intro hempty
    have hnil := congrArg String.toList hempty
    rw [String.toList_ofList] at hnil
    exact hne hnil
  have hstop : (((opening source).1.past before).past word).offset =
      (String.ofList (front ++ before)).utf8ByteSize + (String.ofList word).utf8ByteSize := by
    rw [Cursor.offset_past, hstart]
  have hvalid : String.Pos.Raw.IsValid source
      ⟨(((opening source).1.past before).past word).offset⟩ := by
    have hleft : (opening source).2 = before ++ word ++ rest := by rw [h, List.append_assoc]
    rw [← Cursor.past_append]
    exact isValid_past hleft
  refine ⟨isValid_past h, hvalid, by omega, hvalid.le_utf8ByteSize, ?_, hlocation⟩
  rw [hstart, hstop, htext]
  have hsplit : source.toList = front ++ before ++ (word ++ rest) := by
    rw [hsource, h, List.append_assoc]
  exact extract_toByteArray hsplit

/-! ### Stations -/

/-- The positions between two calls of a scanner: the start of its text, the end of each token, and
the end of the text. -/
inductive IsStation (path source : String) : Cursor → Prop where
  | opening : IsStation path source (opening source).1
  | stop {l : Lexeme} : l ∈ sourceLexemes path source → IsStation path source l.stop
  | closing : IsStation path source (closing source)

namespace IsStation

variable {path source : String} {c : Cursor}

/-- At a station, the text is split into whole tokens on both sides. -/
theorem exists_append (h : IsStation path source c) :
    ∃ taken left, (Dwo.opening source).2 = taken ++ left ∧
      c = (Dwo.opening source).1.past taken ∧
      lexemes path c left <:+ sourceLexemes path source := by
  cases h with
  | opening => exact ⟨[], (Dwo.opening source).2, rfl, rfl, List.suffix_refl _⟩
  | stop hl =>
    obtain ⟨before, after, hsplit⟩ := List.append_of_mem hl
    obtain ⟨taken, left, htext, hstop, hafter⟩ := exists_lexemes_of_append hsplit
    refine ⟨taken, left, htext, hstop, ?_⟩
    rw [hafter, hsplit, List.append_cons]
    exact List.suffix_append _ _
  | closing =>
    refine ⟨(Dwo.opening source).2, [], (List.append_nil _).symm, rfl, ?_⟩
    rw [lexemes_of_skipGap_eq_nil rfl]
    exact List.nil_suffix

private theorem isValid (h : IsStation path source c) :
    String.Pos.Raw.IsValid source ⟨c.offset⟩ := by
  obtain ⟨taken, left, htext, rfl, -⟩ := h.exists_append
  exact isValid_past htext

/-- **From a station, a scanner moves to the next station**: over a token of its text, which it
returns, or to the end of the text. -/
theorem next (h : IsStation path source c) :
    Scanner.next ⟨path, source, c⟩ =
        (closingToken path source, ⟨path, source, Dwo.closing source⟩) ∨
      ∃ l ∈ sourceLexemes path source,
        Scanner.next ⟨path, source, c⟩ = (l.token, ⟨path, source, l.stop⟩) ∧
        ∃ start, l.token.IsSlice path source start l.stop := by
  obtain ⟨taken, left, htext, rfl, hsuffix⟩ := h.exists_append
  have hnext := Scanner.next_past htext path
  cases hscan : scan path ((Dwo.opening source).1.past taken) left with
  | done stop =>
    left
    rw [hnext, hscan, eq_closing_of_scan_eq_done htext hscan]
    rfl
  | found l rest =>
    have hmem : l ∈ sourceLexemes path source := by
      refine hsuffix.subset ?_
      rw [lexemes_eq_cons_iff.mpr ⟨rest, hscan, rfl⟩]
      exact List.mem_cons_self
    obtain ⟨gap, word, rfl, hne, hword, hlocation, hstop⟩ := exists_word_of_scan_eq_found hscan
    rw [← List.append_assoc] at htext
    rw [← Cursor.past_append] at hlocation
    right
    refine ⟨l, hmem, ?_, (Dwo.opening source).1.past (taken ++ gap), ?_⟩
    · rw [hnext, hscan]
    · rw [hstop, ← Cursor.past_append (Dwo.opening source).1 taken gap]
      exact isSlice_past htext hne hword hlocation

/-- Taking all tokens up to the end leads to the end. -/
theorem drain (h : IsStation path source c) :
    (∀ t ∈ (Scanner.drain ⟨path, source, c⟩).1, t ∈ tokenize path source) ∧
      (Scanner.drain ⟨path, source, c⟩).2 = ⟨path, source, Dwo.closing source⟩ := by
  obtain ⟨taken, left, htext, rfl, hsuffix⟩ := h.exists_append
  rw [Scanner.drain, Scanner.trail_past htext, tokenize_eq]
  exact ⟨List.map_subset Lexeme.token hsuffix.subset, rfl⟩

end IsStation

/-! ### Scanners that share what they save -/

/-- The copies of a scanner, oldest first, and the positions that they have saved, oldest first. -/
structure Scanners where
  scanners : List Scanner
  saved : List Cursor := []
deriving DecidableEq, Repr

/-- What can be done with a scanner. A position is restored by its number among those that have
been saved, by whichever scanner. -/
inductive Scanners.Action where
  | next
  | peek
  | next?
  | drain
  | save
  | restore (slot : Nat)
  | copy
deriving DecidableEq, Repr

namespace Scanners

/-- One scanner at the start of a source text. -/
def ofSource (path source : String) : Scanners :=
  ⟨[.ofSource path source], []⟩

/-- Does something with the scanner of a number, and returns the tokens that it returns. Nothing is
done if there is no such scanner or no such saved position. -/
def perform (b : Scanners) (i : Nat) (action : Action) : List Token × Scanners :=
  match b.scanners[i]? with
  | none => ([], b)
  | some s =>
    match action with
    | .next => ([s.next.1], { b with scanners := b.scanners.set i s.next.2 })
    | .peek => ([s.peek], b)
    | .next? => (s.next?.1.toList, { b with scanners := b.scanners.set i s.next?.2 })
    | .drain => (s.drain.1, { b with scanners := b.scanners.set i s.drain.2 })
    | .save => ([], { b with saved := b.saved ++ [s.cursor] })
    | .restore slot =>
      match b.saved[slot]? with
      | none => ([], b)
      | some c => ([], { b with scanners := b.scanners.set i (s.restore c) })
    | .copy => ([], { b with scanners := b.scanners ++ [s] })

/-- Does one thing after the other, and returns all tokens that are returned. -/
def run (b : Scanners) : List (Nat × Action) → List Token × Scanners
  | [] => ([], b)
  | (i, action) :: rest =>
    let (tokens, b') := b.perform i action
    let (later, b'') := b'.run rest
    (tokens ++ later, b'')

/-- All scanners are over this source text and stand at stations of it, and so do all positions that
have been saved. -/
structure AtStations (path source : String) (b : Scanners) : Prop where
  scanners : ∀ s ∈ b.scanners, ∃ c, IsStation path source c ∧ s = ⟨path, source, c⟩
  saved : ∀ c ∈ b.saved, IsStation path source c

/-- The tokens that a scanner over a source text may return. -/
def IsReturned (path source : String) (t : Token) : Prop :=
  t = closingToken path source ∨ t ∈ tokenize path source

variable {path source : String} {b : Scanners}

private theorem atStations_ofSource (path source : String) :
    (ofSource path source).AtStations path source where
  scanners := by
    intro s hs
    obtain rfl := List.mem_singleton.mp hs
    exact ⟨_, .opening, Scanner.ofSource_eq path source⟩
  saved := List.forall_mem_nil _

/-- One scanner moves to a station. -/
theorem AtStations.set {c : Cursor} (h : b.AtStations path source) (i : Nat)
    (hc : IsStation path source c) :
    AtStations path source { b with scanners := b.scanners.set i ⟨path, source, c⟩ } where
  scanners := by
    intro s hs
    rcases List.mem_or_eq_of_mem_set hs with hs | rfl
    · exact h.scanners s hs
    · exact ⟨c, hc, rfl⟩
  saved := h.saved

/-- **Whatever is done next**, scanners go from stations to stations and return tokens of their
text. -/
theorem AtStations.perform (h : b.AtStations path source) (i : Nat) (action : Action) :
    (∀ t ∈ (b.perform i action).1, IsReturned path source t) ∧
      (b.perform i action).2.AtStations path source := by
  rw [Scanners.perform]
  cases hs : b.scanners[i]? with
  | none => exact ⟨List.forall_mem_nil _, h⟩
  | some s =>
    obtain ⟨c, hc, rfl⟩ := h.scanners s (List.mem_of_getElem? hs)
    -- All ways to ask for a token come down to one call of `next`.
    have hnext : IsReturned path source (Scanner.next ⟨path, source, c⟩).1 ∧
        ∃ c', IsStation path source c' ∧
          (Scanner.next ⟨path, source, c⟩).2 = ⟨path, source, c'⟩ := by
      rcases hc.next with heq | ⟨l, hl, heq, -⟩
      · rw [heq]
        exact ⟨.inl rfl, _, .closing, rfl⟩
      · rw [heq]
        exact ⟨.inr (mem_tokenize_of_mem hl), _, .stop hl, rfl⟩
    obtain ⟨htoken, c', hc', hmoved⟩ := hnext
    cases action with
    | next =>
      simp only [hmoved]
      exact ⟨List.forall_mem_singleton.mpr htoken, h.set i hc'⟩
    | peek => exact ⟨List.forall_mem_singleton.mpr htoken, h⟩
    | next? =>
      simp only [Scanner.next?, hmoved]
      refine ⟨?_, h.set i hc'⟩
      intro t ht
      split at ht
      · cases ht
      · rw [List.mem_singleton.mp ht]
        exact htoken
    | drain =>
      obtain ⟨htokens, hend⟩ := hc.drain
      simp only [hend]
      exact ⟨fun t ht => .inr (htokens t ht), h.set i .closing⟩
    | save =>
      refine ⟨List.forall_mem_nil _, h.scanners, ?_⟩
      intro d hd
      rcases List.mem_append.mp hd with hd | hd
      · exact h.saved d hd
      · rw [List.mem_singleton.mp hd]
        exact hc
    | restore slot =>
      dsimp only
      split
      · exact ⟨List.forall_mem_nil _, h⟩
      · next d hd => exact ⟨List.forall_mem_nil _, h.set i (h.saved d (List.mem_of_getElem? hd))⟩
    | copy =>
      refine ⟨List.forall_mem_nil _, ?_, h.saved⟩
      intro s' hs'
      rcases List.mem_append.mp hs' with hs' | hs'
      · exact h.scanners s' hs'
      · rw [List.mem_singleton.mp hs']
        exact ⟨c, hc, rfl⟩

/-- Run lemma: along every sequence of calls the tokens are those of the source, and all
saved positions stay places of it. -/
theorem AtStations.run (h : b.AtStations path source) (actions : List (Nat × Action)) :
    (∀ t ∈ (b.run actions).1, IsReturned path source t) ∧
      (b.run actions).2.AtStations path source := by
  induction actions generalizing b with
  | nil => exact ⟨List.forall_mem_nil _, h⟩
  | cons first rest ih =>
    obtain ⟨i, action⟩ := first
    obtain ⟨htokens, hmoved⟩ := h.perform i action
    obtain ⟨hlater, hend⟩ := ih hmoved
    refine ⟨?_, hend⟩
    intro t ht
    rcases List.mem_append.mp ht with ht | ht
    · exact htokens t ht
    · exact hlater t ht

end Scanners

/-- **A position is never inside a character or a token.** Let something be done with a scanner over
a source text and its copies, one thing after the other: tokens are taken or looked at, positions
are saved and restored. Then every token that is returned is one of the text, or the one that marks
its end. And every position that is held or saved lies inside the text and between two characters of
it; it is the start of the text, the end of a token or the end of the text. What is cut off there is
nothing, because the text ends, or a slice from one such place to a later one, which is a token of
the text. -/
theorem isStation_of_run (path source : String) (actions : List (Nat × Scanners.Action)) :
    let result := (Scanners.ofSource path source).run actions
    (∀ t ∈ result.1, t = closingToken path source ∨ t ∈ tokenize path source) ∧
      (∀ s ∈ result.2.scanners, s.path = path ∧ s.source = source) ∧
      ∀ c ∈ result.2.saved ++ result.2.scanners.map Scanner.cursor,
        c.offset ≤ source.utf8ByteSize ∧ String.Pos.Raw.IsValid source ⟨c.offset⟩ ∧
        IsStation path source c ∧
        (Scanner.next ⟨path, source, c⟩ =
            (closingToken path source, ⟨path, source, closing source⟩) ∨
          ∃ t ∈ tokenize path source, ∃ start stop,
            Scanner.next ⟨path, source, c⟩ = (t, ⟨path, source, stop⟩) ∧
            t.IsSlice path source start stop) := by
  intro result
  obtain ⟨htokens, hstations⟩ := (Scanners.atStations_ofSource path source).run actions
  refine ⟨htokens, ?_, ?_⟩
  · intro s hs
    obtain ⟨c, -, rfl⟩ := hstations.scanners s hs
    exact ⟨rfl, rfl⟩
  · intro c hc
    have hstation : IsStation path source c := by
      rcases List.mem_append.mp hc with hc | hc
      · exact hstations.saved c hc
      · obtain ⟨s, hs, rfl⟩ := List.mem_map.mp hc
        obtain ⟨d, hd, rfl⟩ := hstations.scanners s hs
        exact hd
    refine ⟨hstation.isValid.le_utf8ByteSize, hstation.isValid, hstation, ?_⟩
    rcases hstation.next with hend | ⟨l, hl, hnext, start, hslice⟩
    · exact .inl hend
    · exact .inr ⟨l.token, mem_tokenize_of_mem hl, start, l.stop, hnext, hslice⟩

/-- A copy takes a string with a protected character of two bytes, and the first scanner goes on
behind it and back to the start. -/
theorem isStation_of_run_protected :
    let source := "\ufeff\"\\é\" é // é"
    let result := (Scanners.ofSource "m" source).run
      [(0, .save), (0, .copy), (1, .next), (1, .save), (0, .restore 1), (0, .next), (0, .next?),
        (0, .restore 0), (0, .peek)]
    let c : Cursor := ⟨8, 1, 4⟩
    c ∈ result.2.saved ++ result.2.scanners.map Scanner.cursor ∧
      c.offset ≤ source.utf8ByteSize ∧ String.Pos.Raw.IsValid source ⟨c.offset⟩ ∧
      IsStation "m" source c ∧
      (Scanner.next ⟨"m", source, c⟩ =
          (closingToken "m" source, ⟨"m", source, closing source⟩) ∨
        ∃ t ∈ tokenize "m" source, ∃ start stop,
          Scanner.next ⟨"m", source, c⟩ = (t, ⟨"m", source, stop⟩) ∧
          t.IsSlice "m" source start stop) := by
  intro source result c
  have hmem : c ∈ result.2.saved ++ result.2.scanners.map Scanner.cursor := by
    have hsaved : result.2.saved = [(Scanner.ofSource "m" source).cursor,
        (Scanner.ofSource "m" source).next.2.cursor] := rfl
    have hnext : (Scanner.ofSource "m" source).next.2.cursor = c := by
      rw [Scanner.ofSource_eq, Scanner.next_eq "m" (Scanner.isAt_opening source)]
      cbv
    rw [hsaved, hnext]
    exact List.mem_append_left _ (List.mem_cons_of_mem _ List.mem_cons_self)
  exact ⟨hmem, (isStation_of_run "m" source _).2.2 c hmem⟩

end Dwo
