import Dwo.Proofs.Session.Phases
import Dwo.Proofs.Token.Places

/-!
# Reading comes to an end

A call of a reader takes one token after the other and stops when a statement is complete, when a
token does not fit, or at the end of the text. `Scanner.read` is such a call on a scanner, which
does not know how many tokens there are and returns its last one for ever; it may give up after any
number of tokens. The main result, `reading_ends`, says that it need not take more tokens than are
left and the one that marks the end, and that it then returns what a reader returns.

A statement has three tokens at least (`Open.Run.three_le_length`), so the number of calls is
bounded as well. The call that comes to the end of the text leaves a reader that does not change any
more.

* `Reader.Calls`: calls of a reader, one after the other, with the nodes that they return;
* `Reader.IsOver`: a reader over a source text, at the position of a scanner that finds the same
  lexemes.

`Scanner.read` takes its tokens from a scanner by bytes, so the bound is on the calls of that
scanner. What is left in a text is counted by its lexemes, and each call of the scanner takes
off one of them (`Finds`); the token that marks the end is the only one that can be returned
twice.
-/

namespace Dwo

/-! ### Calls on a scanner -/

/-- Reads on from `state` with the tokens of a scanner, and returns what has been read and the
scanner behind it, or nothing if more than `fuel` tokens would have to be taken. -/
def Scanner.read : (fuel : ℕ) → (state : Open) → Scanner →
    Option (Except ParseError (Node × Scanner))
  | 0, _, _ => none
  | fuel + 1, state, s =>
    let t := s.next.1
    if t.isEndOfFile then
      if state.isInitial then some (.ok (.endOfFile t.location, s.next.2))
      else some (.error (state.unexpectedEnd t.location))
    else
      match state.step t with
      | .error e => some (.error e)
      | .ok (.reading state) => read fuel state s.next.2
      | .ok (.complete node) => some (.ok (node, s.next.2))

namespace Finds

variable {path source : String} {c : Cursor} {l : Lexeme} {ls rest : List Lexeme}

private theorem drain_eq (h : Finds path source c ls) :
    (Scanner.drain ⟨path, source, c⟩).1 = ls.map Lexeme.token := by
  obtain ⟨taken, left, htext, rfl, rfl⟩ := h
  rw [Scanner.drain, Scanner.trail_past htext]

/-- Behind any of the lexemes that are left, those behind it are left. -/
theorem of_append (h : Finds path source c (ls ++ l :: rest)) :
    Finds path source l.stop rest ∧ c.offset < l.stop.offset := by
  induction ls generalizing c with
  | nil =>
    obtain ⟨front, word, _, -, hne, hfront, -, -, hstop, -, hrest⟩ := h.exists_of_cons
    refine ⟨hrest, ?_⟩
    have hpos : 0 < (String.ofList word).utf8ByteSize := by
      rw [Nat.pos_iff_ne_zero, Ne, String.utf8ByteSize_eq_zero_iff, String.ofList_eq_empty_iff]
      exact hne
    rw [hstop, Cursor.past_append, Cursor.offset_past _ word]
    omega
  | cons k ls ih =>
    obtain ⟨front, word, _, -, -, hfront, -, -, hstop, -, hrest⟩ := h.exists_of_cons
    obtain ⟨hlater, hlt⟩ := ih hrest
    refine ⟨hlater, ?_⟩
    rw [hstop, Cursor.past_append, Cursor.offset_past _ word] at hlt
    omega

/-- A scanned token is never the end of file. -/
theorem isEndOfFile_eq_false (h : Finds path source c (l :: ls)) : l.token.isEndOfFile = false := by
  obtain ⟨_, _, -, -, hls⟩ := h
  obtain ⟨_, hscan, -⟩ := lexemes_eq_cons_iff.mp hls
  exact isEndOfFile_of_scan_eq_found hscan

/-- **A call takes no more tokens than are left, and the one that marks the end.** -/
theorem read_eq {r : Reader} (h : Finds path source c ls) (hpath : r.path = path)
    (hclosing : r.closing = closing source) (state : Open) {fuel : ℕ} (hfuel : ls.length < fuel) :
    Scanner.read fuel state ⟨path, source, c⟩ =
      some ((r.resume state ls).map fun x => (x.1, ⟨path, source, x.2.cursor⟩)) := by
  induction ls generalizing c state fuel with
  | nil =>
    obtain ⟨fuel, rfl⟩ := Nat.exists_eq_add_one_of_ne_zero (Nat.ne_zero_of_lt hfuel)
    rw [Scanner.read, h.next_of_nil, Reader.resume, hpath, hclosing]
    cases state.isInitial with
    | true => rfl
    | false => rfl
  | cons l ls ih =>
    obtain ⟨fuel, rfl⟩ := Nat.exists_eq_add_one_of_ne_zero (Nat.ne_zero_of_lt hfuel)
    obtain ⟨_, _, _, -, -, -, -, -, -, hnext, hrest⟩ := h.exists_of_cons
    have hkind := h.isEndOfFile_eq_false
    rw [Scanner.read, hnext, Reader.resume]
    simp only [hkind, Bool.false_eq_true, if_false]
    cases hstep : state.step l.token with
    | error e => rfl
    | ok p =>
      cases p with
      | reading state' => exact ih hrest state' (Nat.lt_of_succ_lt_succ hfuel)
      | complete node => rfl

end Finds

/-! ### Calls of a reader -/

/-- The shortest statement is an import of a single word. -/
theorem Open.Run.three_le_length {ts : List Token} {node : Node} (h : Run {} ts [node] {}) :
    3 ≤ ts.length := by
  obtain ⟨us, t, vs, s, rfl, hus, ht, -⟩ := h.exists_complete
  -- No statement is complete behind its keyword, nor behind the name after it.
  cases us with
  | nil =>
    cases hus
    cases ht
  | cons u us =>
    cases us with
    | nil =>
      rw [← List.nil_append [u]] at hus
      obtain ⟨_, _, p, hnil, hu, -, rfl⟩ := hus.of_concat
      cases hnil
      cases hu with
      | fnKeyword | letKeyword | useKeyword => cases ht
    | cons v us =>
      rw [List.length_append, List.length_cons, List.length_cons, List.length_cons]
      omega

namespace Reader

/-- Successive calls return the nodes `nodes`, among which the end of the text may be. -/
inductive Calls : Reader → List Node → Reader → Prop where
  | nil (r : Reader) : Calls r [] r
  | cons {r r₁ r₂ : Reader} {node : Node} {nodes : List Node} :
      r.next = .ok (node, r₁) → Calls r₁ nodes r₂ → Calls r (node :: nodes) r₂

/-- A reader over a source text, at the position of a scanner that finds the same lexemes. -/
structure IsOver (path source : String) (r : Reader) : Prop where
  path_eq : r.path = path
  closing_eq : r.closing = Dwo.closing source
  finds : Finds path source r.cursor r.pending

private theorem isOver_ofSource (path source : String) :
    (ofSource path source).IsOver path source := by
  rw [ofSource_eq]
  exact ⟨rfl, rfl, finds_opening path source⟩

variable {path source : String} {r r' : Reader} {node : Node} {nodes : List Node}

/-- A call that returns a statement moves over three tokens or more. -/
theorem IsOver.next_of_statement (hr : r.IsOver path source) (h : r.next = .ok (node, r'))
    (hnode : node.isEndOfFile = false) :
    r'.IsOver path source ∧ r.cursor.offset < r'.cursor.offset ∧
      ∃ block, 3 ≤ block.length ∧ r.pending = block ++ r'.pending := by
  obtain ⟨block, last, hpending, hrun, hr'⟩ := exists_block_of_next h hnode
  have hfinds := hr.finds
  rw [hpending] at hfinds
  obtain ⟨hrest, hlt⟩ := hfinds.of_append
  have hcursor : r'.cursor = last.stop := congrArg Reader.cursor hr'
  have hpath : r'.path = r.path := (congrArg Reader.path hr' :)
  have hclosing : r'.closing = r.closing := (congrArg Reader.closing hr' :)
  rw [← hcursor] at hrest hlt
  refine ⟨⟨hpath.trans hr.path_eq, hclosing.trans hr.closing_eq, hrest⟩, hlt,
    block ++ [last], ?_, ?_⟩
  · have hlength := hrun.three_le_length
    rwa [List.length_map] at hlength
  · rw [hpending, ← List.append_cons]

/-- A call that returns the end leaves nothing to read. -/
theorem IsOver.next_of_end (hr : r.IsOver path source) (h : r.next = .ok (node, r'))
    (hnode : node.isEndOfFile = true) :
    node = .endOfFile ((Dwo.closing source).location path) ∧
      r' = ⟨path, Dwo.closing source, [], Dwo.closing source⟩ := by
  rcases exists_run_of_resume h with ⟨_, _, _, _, _, _, hlast, _⟩ | ⟨-, rfl, rfl⟩
  · rw [hlast.isEndOfFile_eq_false] at hnode
    cases hnode
  · rw [hr.path_eq, hr.closing_eq]
    exact ⟨rfl, rfl⟩

private theorem IsOver.calls (hr : r.IsOver path source) (h : r.Calls nodes r') :
    r'.IsOver path source := by
  induction h with
  | nil r => exact hr
  | @cons r r₁ r₂ node nodes hnext _ ih =>
    refine ih ?_
    cases hnode : node.isEndOfFile with
    | true =>
      obtain ⟨-, rfl⟩ := hr.next_of_end hnext hnode
      exact ⟨rfl, rfl, finds_closing path source⟩
    | false => exact (hr.next_of_statement hnext hnode).1

/-- **A reader at the end stays there**, and goes on to return the end. -/
theorem next_of_calls_end
    (h : Calls ⟨path, Dwo.closing source, [], Dwo.closing source⟩ nodes r) :
    r.cursor = Dwo.closing source ∧
      r.next = .ok (.endOfFile ((Dwo.closing source).location path), r) := by
  generalize hend : (⟨path, Dwo.closing source, [], Dwo.closing source⟩ : Reader) = r₀ at h
  induction h with
  | nil r =>
    subst hend
    exact ⟨rfl, rfl⟩
  | cons hnext _ ih =>
    subst hend
    exact ih (Prod.mk.inj (Except.ok.inj hnext)).2

/-- Three tokens are taken for each statement, up to the end of the text or an error. -/
theorem IsOver.three_mul_length_le {stop : Option ParseError} (hr : r.IsOver path source)
    (h : r.Parses nodes stop) : 3 * nodes.length ≤ r.pending.length := by
  induction h with
  | closed => exact Nat.zero_le _
  | failed => exact Nat.zero_le _
  | next hnext hnode _ ih =>
    obtain ⟨hr', -, block, hblock, hpending⟩ := hr.next_of_statement hnext hnode
    have hrest := ih hr'
    rw [hpending, List.length_append, List.length_cons]
    omega

end Reader

/-- The closing position lies behind the last byte of a source text. -/
theorem offset_closing (source : String) : (closing source).offset = source.utf8ByteSize := by
  obtain ⟨mark, hsource, -, hoffset⟩ := exists_mark_offset source
  rw [closing, Cursor.offset_past, hoffset, ← String.utf8ByteSize_append, ← hsource]

/-- **Reading comes to an end.** Let a reader of a source text have been called any number of times.

* The next call ends after no more tokens than are left, and the one that marks the end, even if it
  takes them one by one from a scanner that would never stop returning that one.
* If the next call returns a statement, it moves on in the text, over at least three tokens.
* If it returns the end of the text, so does every later call, with the place of the end of the
  text, and the reader stays at that end.

So there is at most one call more than a third of the number of tokens, up to the end of the text or
an error. -/
theorem reading_ends (path source : String) :
    let start := Reader.ofSource path source
    (∀ nodes r, start.Calls nodes r →
      let left := (Scanner.drain ⟨path, source, r.cursor⟩).1
      (∀ fuel, left.length < fuel → Scanner.read fuel {} ⟨path, source, r.cursor⟩ =
        some (r.next.map fun x => (x.1, ⟨path, source, x.2.cursor⟩))) ∧
      ∀ node r', r.next = .ok (node, r') →
        (node.isEndOfFile = false → r.cursor.offset < r'.cursor.offset ∧
          ∃ taken, 3 ≤ taken.length ∧
            left = taken ++ (Scanner.drain ⟨path, source, r'.cursor⟩).1) ∧
        (node.isEndOfFile = true → node = .endOfFile ((closing source).location path) ∧
          (closing source).offset = source.utf8ByteSize ∧
          ∀ later r'', r'.Calls later r'' →
            r''.cursor = closing source ∧ r''.next = .ok (node, r''))) ∧
    ∃ nodes stop, start.Parses nodes stop ∧
      nodes.length + 1 ≤ (tokenize path source).length / 3 + 1 := by
  intro start
  have hstart := Reader.isOver_ofSource path source
  refine ⟨?_, start.remaining.nodes, start.remaining.error?, start.parses_remaining, ?_⟩
  · intro nodes r hcalls left
    have hr := hstart.calls hcalls
    have hleft : left = r.pending.map Lexeme.token := hr.finds.drain_eq
    refine ⟨?_, fun node r' hnext => ⟨?_, ?_⟩⟩
    · intro fuel hfuel
      rw [hleft, List.length_map] at hfuel
      exact hr.finds.read_eq hr.path_eq hr.closing_eq {} hfuel
    · intro hnode
      obtain ⟨hr', hlt, block, hblock, hpending⟩ := hr.next_of_statement hnext hnode
      refine ⟨hlt, block.map Lexeme.token, by rwa [List.length_map], ?_⟩
      rw [hleft, hpending, List.map_append, hr'.finds.drain_eq]
    · intro hnode
      obtain ⟨rfl, rfl⟩ := hr.next_of_end hnext hnode
      exact ⟨rfl, offset_closing source, fun later r'' => Reader.next_of_calls_end⟩
  -- No statement has fewer than three tokens.
  · have hbound := hstart.three_mul_length_le start.parses_remaining
    have hlength : (Reader.ofSource path source).pending.length =
        (tokenize path source).length := (List.length_map _).symm
    rw [hlength] at hbound
    omega

/-- The shortest statement, and the end of the text behind it. -/
theorem reading_ends_import :
    let source := "use a; // b"
    let start := Reader.ofSource "m" source
    let node : Node := .importDecl "a" none false ⟨"m", 1, 0⟩
    let ending : Node := .endOfFile ⟨"m", 1, 11⟩
    let left := (Scanner.drain ⟨"m", source, start.cursor⟩).1
    ∃ r last, start.Calls [] start ∧ start.next = .ok (node, r) ∧ left.length < 4 ∧
      Scanner.read 4 {} ⟨"m", source, start.cursor⟩ =
        some (.ok (node, ⟨"m", source, r.cursor⟩)) ∧
      start.cursor.offset < r.cursor.offset ∧
      (∃ taken, 3 ≤ taken.length ∧
        left = taken ++ (Scanner.drain ⟨"m", source, r.cursor⟩).1) ∧
      start.Calls [node] r ∧ r.next = .ok (ending, last) ∧
      ∀ later r'', last.Calls later r'' →
        r''.cursor = closing source ∧ r''.next = .ok (ending, r'') := by
  intro source start node ending left
  let r : Reader := ⟨"m", ⟨6, 1, 6⟩, [], ⟨11, 1, 11⟩⟩
  let last : Reader := ⟨"m", ⟨11, 1, 11⟩, [], ⟨11, 1, 11⟩⟩
  have hnext : (Reader.ofSource "m" "use a; // b").next = .ok (node, r) := by
    rw [Reader.ofSource_eq]
    cbv
  have hlength : (Scanner.drain
      ⟨"m", "use a; // b", (Reader.ofSource "m" "use a; // b").cursor⟩).1.length < 4 := by
    rw [(Reader.isOver_ofSource _ _).finds.drain_eq, Reader.ofSource_eq]
    cbv
  have hend : r.next = .ok (ending, last) := rfl
  have hcalls : start.Calls [node] r := .cons hnext (.nil r)
  obtain ⟨hread, hfirst⟩ := (reading_ends "m" source).1 [] start (.nil start)
  obtain ⟨hlt, htaken⟩ := (hfirst node r hnext).1 rfl
  obtain ⟨-, hlast⟩ := (reading_ends "m" source).1 [node] r hcalls
  have hread' := hread 4 hlength
  rw [hnext] at hread'
  exact ⟨r, last, .nil start, hnext, hlength, hread', hlt, htaken, hcalls, hend,
    ((hlast ending last hend).2 rfl).2.2⟩

end Dwo
