import Dwo.Proofs.Session.Viability
import Dwo.Proofs.Statement.Nesting
import Dwo.Proofs.Token.Order

/-!
# Notes of errors

When a text cannot be read, the notes of the error are a stack: first the construct in progress, if
it is one that is remarked on, and then the functions around it, innermost first. The places of the
error and of its notes lead backwards through the text. The main result is `parse_error_notes`.

What is in progress is told by the tokens in front of the error (`InProgress`), and states remember
it. For the places, a state is taken as the list of the places that it can report (`Open.marks`): a
step adds the place of its token at most, so these places stand in the text in the reverse order of
the list.

The two parts of the result have separate proofs. Which notes there are is
`Open.notesAt_of_inProgress`. In which order their places stand is a matter of the list
`Open.marks` alone: it is a sublist of the places of the tokens read so far, latest first
(`Step.marks_sublist`), the tokens of a text stand in the order of reading
(`pairwise_position_tokenize`), and the notes take their places from the list in its order.
-/

namespace Dwo

open Open (Run Step)

/-! ### Places that are remembered -/

/-- The places that a phase can report, latest first. -/
def Phase.marks : Phase → List Location
  | idle | literal _ => []
  | fnKeyword k | fnName k _ | fnParams k _ | fnHead k _ | letKeyword k => [k]
  | letName k name | letColon k name | letMarker k name _ => [name.location, k]
  | importPath k _ (.colon l) => [l, k]
  | importPath k _ _ => [k]
  | word name | callOpen name | callClosed name _ => [name.location]
  | operand purpose | sign purpose _ | value purpose _ => [purpose.note.location]

private theorem Phase.notes_sublist_marks (φ : Phase) :
    (φ.notes.map Note.location).Sublist φ.marks := by
  cases φ with
  | idle | literal | word => exact List.nil_sublist _
  | letName | letColon | letMarker => exact List.sublist_cons_self _ _
  | importPath k text last =>
    cases last with
    | colon => exact List.sublist_cons_self _ _
    | _ => exact List.Sublist.refl _
  | _ => exact List.Sublist.refl _

private theorem Phase.endNotes_sublist_marks (φ : Phase) :
    (φ.endNotes.map Note.location).Sublist φ.marks := by
  have hnotes := φ.notes_sublist_marks
  cases φ with
  | word => exact List.Sublist.refl _
  | _ => exact hnotes

namespace Open

/-- The places that a state can report, latest first. -/
def marks (s : Open) : List Location := s.phase.marks ++ s.keywords

private theorem map_location_fnNotes (s : Open) : s.fnNotes.map Note.location = s.keywords := by
  rw [fnNotes_eq, List.map_map]
  exact List.map_id s.keywords

/-- Behind a construct, the marks are the keywords of the functions around it. -/
private theorem marks_close (fs : List OpenFn) (node : Node) :
    (Progress.close fs node).state.marks = fs.map OpenFn.keyword := by
  rw [marks, phase_close, keywords_close]
  rfl

/-- **A step adds the place of its token at most.** -/
theorem Step.marks_sublist {s : Open} {t : Token} {p : Progress} (h : Step s t p) :
    p.state.marks.Sublist (t.location :: s.marks) := by
  cases h with
  -- The token is remembered.
  | fnKeyword | letKeyword | useKeyword | word | letName | pathColon => exact List.Sublist.refl _
  -- A function or another construct is forgotten.
  | bodyEnd =>
    rw [marks_close]
    exact .cons _ (List.sublist_cons_self _ _)
  | straySymbol | stray | letEnd | pathEnd | wordEnd | literalEnd | initializerEnd | rvalueEnd
  | callEnd =>
    rw [marks_close]
    exact .cons _ (List.sublist_append_right _ _)
  -- The name of a variable and a colon in a path are forgotten as soon as something follows.
  | letOperand => exact .cons _ (List.sublist_cons_self _ _)
  | @pathName fs k text last =>
    cases last with
    | colon => exact .cons _ (List.sublist_cons_self _ _)
    | _ => exact List.sublist_cons_self _ _
  | _ => exact List.sublist_cons_self _ _

/-- The places that a state can report are places of tokens that have been read. -/
theorem Run.marks_sublist {ts : List Token} {ns : List Node} {s : Open} (h : Run {} ts ns s) :
    s.marks.Sublist (ts.map Token.location).reverse := by
  induction ts using List.reverseRecOn generalizing ns s with
  | nil =>
    cases h
    exact List.Sublist.refl _
  | append_singleton ts t ih =>
    obtain ⟨_, s', p, hrun, hstep, -, rfl⟩ := h.of_concat
    rw [List.map_append, List.reverse_append]
    exact hstep.marks_sublist.trans (.cons_cons _ (ih hrun))

/-- **An error is reported at the token or at a place that is remembered**, behind those of its
notes. -/
theorem Fails.location_sublist {s : Open} {t : Token} {e : ParseError} (h : s.Fails t e) :
    (e.location :: e.notes.map Note.location).Sublist (t.location :: s.marks) := by
  cases h with
  | here =>
    rw [fail, List.map_append, map_location_fnNotes]
    exact .cons_cons _ (s.phase.notes_sublist_marks.append (List.Sublist.refl _))
  | constant hphase | trailingColon hphase =>
    rw [fail, List.map_append, map_location_fnNotes, marks, hphase]
    exact List.sublist_cons_self _ _

end Open

/-! ### The stack -/

/-- Only functions are remarked on as such. -/
theorem Construct.message_ne {atEnd : Bool} {c : Construct} {n : Note} (h : n ∈ c.notes atEnd) :
    n.message ≠ "function declaration starts here" := by
  cases c with
  | declaration | inclusion | call =>
    rw [List.mem_singleton.mp h]
    simp
  | hanging name =>
    cases atEnd with
    | false => cases h
    | true =>
      rw [List.mem_singleton.mp h]
      simp
  | assignment name =>
    rw [List.mem_singleton.mp h]
    intro heq
    have hfirst := congrArg (fun text => text.toList.head?) heq
    simp at hfirst

private theorem length_filter_stackNotes (atEnd : Bool) (fns : List Token) (c : Option Construct) :
    ((stackNotes atEnd fns c).filter
      fun n => n.message = "function declaration starts here").length = fns.length := by
  have hc : (c.elim [] (Construct.notes atEnd)).filter
      (fun n => n.message = "function declaration starts here") = [] := by
    rw [List.filter_eq_nil_iff]
    intro n hn
    cases c with
    | none => cases hn
    | some c => exact fun hmessage => Construct.message_ne hn (of_decide_eq_true hmessage)
  rw [stackNotes, List.filter_append, hc, List.nil_append, List.filter_eq_self.mpr, List.length_map]
  simp

/-- Where an error comes from: the state behind the tokens that can be read, and the token that
cannot, or the end of the text. -/
theorem exists_state_of_error {path source : String} {e : ParseError}
    (h : (sourceStatements path source).error? = some e) :
    let ts := tokenize path source
    let k := Open.fault {} ts
    ∃ ns s here, Run {} (ts.take k) ns s ∧
      (ts ++ [closingToken path source]).take (k + 1) = ts.take k ++ [here] ∧
      e.notes = s.notesAt (k = ts.length) ∧
      (e.location :: e.notes.map Note.location).Sublist (here.location :: s.marks) := by
  intro ts k
  obtain ⟨ns, s, hrun, htoken, hend⟩ := exists_run_of_error h
  have hle : k ≤ ts.length := Open.fault_le_length {} ts
  cases hk : ts[k]? with
  | none =>
    have hlength : k = ts.length := le_antisymm hle (List.getElem?_eq_none_iff.mp hk)
    refine ⟨ns, s, closingToken path source, hrun, ?_, ?_, ?_⟩
    · rw [hlength, List.take_length, List.take_of_length_le (by simp)]
    · rw [hend hk, decide_eq_true hlength]
      rfl
    · rw [hend hk, Open.unexpectedEnd, List.map_append, Open.map_location_fnNotes]
      exact .cons_cons _ (s.phase.endNotes_sublist_marks.append (List.Sublist.refl _))
  | some t =>
    have hlt : k < ts.length := (List.getElem?_eq_some_iff.mp hk).1
    have hfails := Open.fails_of_step_eq_error (htoken t hk)
    refine ⟨ns, s, t, hrun, ?_, ?_, hfails.location_sublist⟩
    · rw [List.take_append_of_le_length hlt, List.take_add_one, hk]
      rfl
    · rw [decide_eq_false hlt.ne]
      cases hfails <;> rfl

/-- **The notes of an error are the stack of open constructs.** Let a text be rejected, and let `k`
be the place of the last token that was looked at, or that of the end of the text. Behind the tokens
in front of it, some functions are in progress, and maybe another construct. Whatever is in progress
there, the notes are the remark on that construct, if it is one that is remarked on, and then the
remarks on the functions, innermost first; there are as many of these as functions. The places of
the error and of its notes go back in the text. -/
theorem parse_error_notes {path source : String} {nodes : List Node} {e : ParseError}
    (h : (Reader.ofSource path source).Parses nodes (some e)) :
    let ts := tokenize path source
    let k := Open.fault {} ts
    (∃ fns c, InProgress (ts.take k) fns c) ∧
    (∀ fns c, InProgress (ts.take k) fns c →
      e.notes = stackNotes (k = ts.length) fns c ∧
      (e.notes.filter fun n => n.message = "function declaration starts here").length =
        fns.length) ∧
    (e.location :: e.notes.map Note.location).Pairwise fun l l' => l'.position < l.position := by
  intro ts k
  have herror : (sourceStatements path source).error? = some e := by
    rw [← Reader.remaining_ofSource]
    exact (Reader.parses_iff.mp h).2.symm
  obtain ⟨ns, s, here, hrun, htake, hnotes, hplaces⟩ := exists_state_of_error herror
  have hlexical : ∀ t ∈ ts.take k, t.spelling.Lexical :=
    fun t ht => lexical_of_mem_tokenize (List.mem_of_mem_take ht)
  refine ⟨Open.exists_inProgress hlexical hrun, fun fns c hc => ?_, ?_⟩
  · rw [hnotes, Open.notesAt_of_inProgress hc hrun]
    exact ⟨rfl, length_filter_stackNotes _ fns c⟩
  · have hfront : (here.location :: s.marks).Sublist
        ((ts ++ [closingToken path source]).map Token.location).reverse := by
      have hread : here.location :: ((ts.take k).map Token.location).reverse =
          (((ts ++ [closingToken path source]).take (k + 1)).map Token.location).reverse := by
        rw [htake, List.map_append, List.reverse_append]
        rfl
      refine (List.Sublist.cons_cons here.location hrun.marks_sublist).trans ?_
      rw [hread]
      exact ((List.take_sublist _ _).map Token.location).reverse
    exact (List.pairwise_reverse.mpr (pairwise_position_tokenize path source)).sublist
      (hplaces.trans hfront)

/-- A call with a missing comma, in a function in a function. -/
theorem parse_error_notes_call :
    let source := "fn f() \x7b fn g() \x7b h(1 2)"
    let ts := tokenize "m" source
    ∃ nodes e f g h, (Reader.ofSource "m" source).Parses nodes (some e) ∧
      Open.fault {} ts = 13 ∧ ts.length = 15 ∧
      InProgress (ts.take 13) [g, f] (some (.call h)) ∧
      e.notes = stackNotes false [g, f] (some (.call h)) ∧
      (e.notes.filter fun n => n.message = "function declaration starts here").length = 2 ∧
      (e.location :: e.notes.map Note.location).Pairwise
        fun l l' => l'.position < l.position := by
  intro source ts
  let token (s : Spelling) (column : ℕ) : Token := s.tokenAt ⟨"m", 1, column⟩
  let head (name : String) (column : ℕ) : List Token :=
    [token (.word name) (column + 3), token (.symbol "(") (column + 4),
      token (.symbol ")") (column + 5), token (.symbol "\x7b") (column + 7)]
  let f := token (.word "fn") 0
  let g := token (.word "fn") 9
  let h := token (.word "h") 18
  let front := [] ++ (f :: head "f" 0 ++ []) ++ (g :: head "g" 9 ++ []) ++
    h :: token (.symbol "(") 19 :: [token ⟨.integer, "1"⟩ 20]
  have hts : tokenize "m" source =
      front ++ [token ⟨.integer, "2"⟩ 22, token (.symbol ")") 23] := by
    rw [tokenize_eq]
    cbv
  have hfault : Open.fault {} (tokenize "m" source) = 13 := by
    rw [hts]
    cbv
  have hread : sourceStatements "m" source =
      .failed ⟨.unexpectedToken .argumentSeparator .integer "2", ⟨"m", 1, 22⟩,
        [callNote h, fnNote g.location, fnNote f.location]⟩ := by
    rw [sourceStatements, hts]
    cbv
  have hparses := Reader.parses_remaining (Reader.ofSource "m" source)
  rw [Reader.remaining_ofSource, hread] at hparses
  have hhead (name : String) (column : ℕ) :
      (token (.word "fn") column :: head name column).map Token.spelling ∈ Grammar.fnHead := by
    simp only [Grammar.fnHead, mul_assoc]
    iterate 4 refine Grammar.cons_mem_terminal_mul.mpr ⟨rfl, ?_⟩
    exact ⟨_, rfl, rfl⟩
  have hnone : ([] : List Token).map Token.spelling ∈ KStar.kstar Grammar.item :=
    Language.nil_mem_kstar _
  have houter : Within [] [] := .program (Language.nil_mem_kstar _)
  have hinner := (houter.body (hhead "f" 0) hnone).body (hhead "g" 9) hnone
  have hprogress : InProgress ((tokenize "m" source).take 13) [g, f] (some (.call h)) := by
    rw [hts]
    exact .call hinner (List.cons_ne_nil _ _) ⟨_, by decide, rfl⟩ rfl (by decide)
  have hlength : (tokenize "m" source).length = 15 := by
    rw [hts]
    rfl
  obtain ⟨-, hnotes, hplaces⟩ := parse_error_notes hparses
  rw [hfault, hlength] at hnotes
  obtain ⟨hstack, hdepth⟩ := hnotes _ _ hprogress
  exact ⟨_, _, f, g, h, hparses, hfault, hlength, hprogress, hstack, hdepth, hplaces⟩

end Dwo
