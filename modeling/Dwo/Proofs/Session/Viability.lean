import Dwo.Proofs.Session.Phases
import Dwo.Proofs.Statement.Acceptance
import Dwo.Proofs.Statement.Failure
import Dwo.Proofs.Token.Relexing

/-!
# Where reading fails

Reading fails as early as it can. Up to the token at fault, the text could have been continued to
one that is accepted (`Viable`), and with that token it cannot be continued any more. A text that
ends too early is one that could have been continued. The main result is
`parse_error_at_viable_prefix`.

That a text could have been continued is shown by continuing it: from every state there are tokens
that complete what is open (`Open.completes`), and they can be written down. That it cannot be
continued uses the grammar: whether tokens are accepted depends on their spellings alone. Where an
error is reported follows from what has been read last (`Open.Follows`), which every step keeps up.

* `Viable`: the spellings are those of a beginning of a text that is accepted;
* `Open.fault`: the number of tokens that can be read before one cannot;
* `Blames`: the error of a step is about its token, and it is reported where it should be.

For most errors this is the place of the token at fault. The two exceptions, a constant without
a value and a path that ends in a colon, are reported at a token in front of it, and
`EndsWithConstant` and `EndsWithPath` say which token that is in terms of the text.
-/

namespace Dwo

open Open (Run Step)

/-! ### Completions -/

/-- A symbol to go on with. -/
def symbolToken (c : Char) : Token := ⟨.symbol, c.toString, 0, default⟩

/-- A name to go on with. -/
def nameToken : Token := ⟨.identifier, "a", 0, default⟩

private theorem occurs_symbolToken {c : Char} (h : isMark c = true) :
    (symbolToken c).spelling.Occurs := by
  have hspelling : (symbolToken c).spelling = .symbol c.toString := rfl
  rw [hspelling]
  exact ⟨[], stands_symbol h []⟩

private theorem occurs_nameToken : nameToken.spelling.Occurs :=
  ⟨[], 'a', [], rfl, rfl, by decide, rfl⟩

namespace Open

/-- There are tokens that complete what is open. -/
def Completes (s : Open) : Prop :=
  ∃ ts ns, (∀ t ∈ ts, t.spelling.Occurs) ∧ Run s ts ns {}

namespace Completes

variable {s : Open} {t : Token} {p : Progress}

private theorem of_step (ht : t.spelling.Occurs) (hstep : Step s t p) (h : p.state.Completes) :
    s.Completes := by
  obtain ⟨ts, ns, hts, hrun⟩ := h
  exact ⟨t :: ts, _, List.forall_mem_cons.mpr ⟨ht, hts⟩, .cons hstep hrun⟩

/-- What can be completed behind a mark can be completed by that mark first. -/
theorem symbol (c : Char) (hc : isMark c = true) (hstep : Step s (symbolToken c) p)
    (h : p.state.Completes) : s.Completes :=
  of_step (occurs_symbolToken hc) hstep h

/-- What can be completed behind a name can be completed by a name first. -/
theorem name (hstep : Step s nameToken p) (h : p.state.Completes) : s.Completes :=
  of_step occurs_nameToken hstep h

end Completes

/-- Functions are completed one after the other, from the innermost on. -/
theorem completes_idle (fs : List OpenFn) : Completes ⟨fs, .idle⟩ := by
  -- A function that is closed joins the body of the one around it, so only their number matters.
  induction hn : fs.length generalizing fs with
  | zero =>
    obtain rfl := List.length_eq_zero_iff.mp hn
    exact ⟨[], [], List.forall_mem_nil _, .nil _⟩
  | succ n ih =>
    obtain ⟨f, outer, rfl⟩ := List.exists_cons_of_length_eq_add_one hn
    refine .symbol '\x7d' (by decide) (.bodyEnd rfl) ?_
    cases outer with
    | nil => exact ⟨[], [], List.forall_mem_nil _, .nil _⟩
    | cons g outer => exact ih _ (by simpa using hn)

private theorem completes_close (fs : List OpenFn) (node : Node) :
    (Progress.close fs node).state.Completes := by
  cases fs <;> exact completes_idle _

/-- A value in progress is completed by the mark that its purpose ends with. -/
private theorem completes_value (fs : List OpenFn) (purpose : Purpose) (chain : Chain) :
    Completes ⟨fs, .value purpose chain⟩ := by
  cases purpose with
  | initializer => exact .symbol ';' (by decide) (.initializerEnd rfl) (completes_close _ _)
  | rvalue => exact .symbol ';' (by decide) (.rvalueEnd rfl) (completes_close _ _)
  | argument =>
    refine .symbol ')' (by decide) (.argumentEnd rfl) ?_
    exact .symbol ';' (by decide) (.callEnd rfl) (completes_close _ _)

/-- **Whatever has been read can be completed.** -/
theorem completes (s : Open) : s.Completes := by
  obtain ⟨fs, φ⟩ := s
  -- Each phase is completed by a step to one that is completed already.
  have hbody (k : Location) (name : Token) : Completes ⟨fs, .fnHead k name⟩ :=
    .symbol '\x7b' (by decide) (.fnBody rfl) (completes_idle _)
  have hparams (k : Location) (name : Token) : Completes ⟨fs, .fnParams k name⟩ :=
    .symbol ')' (by decide) (.fnHead rfl) (hbody k name)
  have hfnName (k : Location) (name : Token) : Completes ⟨fs, .fnName k name⟩ :=
    .symbol '(' (by decide) (.fnParams rfl) (hparams k name)
  have hmarker (k : Location) (name : Token) (isMutable : Bool) :
      Completes ⟨fs, .letMarker k name isMutable⟩ :=
    .name (.letOperand rfl) (completes_value _ _ _)
  have hcolon (k : Location) (name : Token) : Completes ⟨fs, .letColon k name⟩ :=
    .symbol '=' (by decide) (.letMutable rfl) (hmarker k name true)
  have hletName (k : Location) (name : Token) : Completes ⟨fs, .letName k name⟩ :=
    .symbol ':' (by decide) (.letColon rfl) (hcolon k name)
  have hpath (k : Location) (text : String) : Completes ⟨fs, .importPath k text .name⟩ :=
    .symbol ';' (by decide) (.pathEnd rfl) (completes_close _ _)
  cases φ with
  | idle => exact completes_idle fs
  | fnKeyword k => exact .name (.fnName rfl) (hfnName k _)
  | fnName k name => exact hfnName k name
  | fnParams k name => exact hparams k name
  | fnHead k name => exact hbody k name
  | letKeyword k => exact .name (.letName rfl) (hletName k _)
  | letName k name => exact hletName k name
  | letColon k name => exact hcolon k name
  | letMarker k name isMutable => exact hmarker k name isMutable
  | importPath k text last =>
    by_cases hlast : last = .name
    · rw [hlast]
      exact hpath k text
    · exact .name (.pathName hlast rfl) (hpath k _)
  | word name => exact .symbol ';' (by decide) (.wordEnd rfl) (completes_close _ _)
  | literal t => exact .symbol ';' (by decide) (.literalEnd rfl) (completes_close _ _)
  | callOpen name => exact .name (.callOperand rfl) (completes_value _ _ _)
  | operand purpose => exact .name (.operand rfl) (completes_value _ _ _)
  | sign purpose chain => exact .name (.signOperand rfl) (completes_value _ _ _)
  | value purpose chain => exact completes_value fs purpose chain
  | callClosed name args => exact .symbol ';' (by decide) (.callEnd rfl) (completes_close _ _)

end Open

/-! ### Viable prefixes -/

/-- There is a source text that is accepted and starts with tokens of these spellings. -/
def Viable (spellings : List Spelling) : Prop :=
  ∃ path source nodes r, spellings <+: (tokenize path source).map Token.spelling ∧
    (Reader.ofSource path source).ReadsAll nodes r

/-- The beginning of a viable sequence is viable. -/
private theorem Viable.of_prefix {front spellings : List Spelling} (h : Viable spellings)
    (hfront : front <+: spellings) : Viable front := by
  obtain ⟨path, source, nodes, r, hprefix, hreads⟩ := h
  exact ⟨path, source, nodes, r, hfront.trans hprefix, hreads⟩

/-- **What can be read is viable**: it can be completed, and its tokens can be written down. -/
theorem viable_of_run {ts : List Token} {ns : List Node} {s : Open}
    (hts : ∀ t ∈ ts, t.spelling.Occurs) (h : Run {} ts ns s) :
    Viable (ts.map Token.spelling) := by
  obtain ⟨us, ms, hus, hrun⟩ := s.completes
  have hoccurs : ∀ t ∈ ts ++ us, t.spelling.Occurs := by
    intro t ht
    rcases List.mem_append.mp ht with ht | ht
    · exact hts t ht
    · exact hus t ht
  obtain ⟨source, hsource⟩ := exists_tokenize (List.forall_mem_map.mpr hoccurs) ""
  have hlexical : ∀ t ∈ ts ++ us, t.spelling.Lexical := by
    intro t ht
    have hmem := List.mem_map_of_mem (f := Token.spelling) ht
    rw [← hsource] at hmem
    obtain ⟨u, hu, heq⟩ := List.mem_map.mp hmem
    rw [← heq]
    exact lexical_of_mem_tokenize hu
  have hprogram := (Open.exists_run_iff hlexical).mp ⟨_, h.append hrun⟩
  rw [← hsource] at hprogram
  obtain ⟨nodes, hread⟩ := (Open.exists_run_iff fun t => lexical_of_mem_tokenize).mpr hprogram
  refine ⟨"", source, nodes, _, ?_, Reader.readsAll_iff.mpr ⟨hread, rfl⟩⟩
  rw [hsource, List.map_append]
  exact List.prefix_append _ _

/-- **What cannot be read is not viable.** -/
theorem not_viable_of_error {ts : List Token} {t : Token} {ns : List Node} {s : Open}
    {e : ParseError} (hts : ∀ u ∈ ts ++ [t], u.spelling.Lexical) (h : Run {} ts ns s)
    (herror : s.step t = .error e) : ¬ Viable ((ts ++ [t]).map Token.spelling) := by
  rintro ⟨path, source, nodes, r, ⟨more, hmore⟩, hreads⟩
  have hprogram := (Open.exists_run_iff fun t => lexical_of_mem_tokenize).mp
    ⟨nodes, (Reader.readsAll_iff.mp hreads).1⟩
  -- The tokens that have been read, with those of the other text behind them.
  let rest := (tokenize path source).drop (ts ++ [t]).length
  have hrest : rest.map Token.spelling = more := by
    rw [List.map_drop, ← hmore]
    exact List.drop_left' (List.length_map Token.spelling)
  have hlexical : ∀ u ∈ ts ++ [t] ++ rest, u.spelling.Lexical := by
    intro u hu
    rcases List.mem_append.mp hu with hu | hu
    · exact hts u hu
    · exact lexical_of_mem_tokenize (List.mem_of_mem_drop hu)
  rw [← hmore, ← hrest, ← List.map_append] at hprogram
  obtain ⟨nodes', hrun⟩ := (Open.exists_run_iff hlexical).mpr hprogram
  obtain ⟨_, _, _, -, hfront, -⟩ := hrun.of_append
  obtain ⟨_, s', p, hrun', hstep, -, -⟩ := hfront.of_concat
  obtain ⟨-, rfl⟩ := h.unique hrun'
  rw [hstep.step_eq] at herror
  cases herror

/-! ### Where an error is raised -/

/-- The place in a list of tokens of the one that cannot be read, which is the last that is looked
at. If all of them can be read, it is the place of the end. -/
def Open.fault (s : Open) : (tokens : List Token) → ℕ
  | [] => 0
  | t :: tokens =>
    match s.step t with
    | .error _ => 0
    | .ok p => p.state.fault tokens + 1

private theorem Open.fault_of_error {s : Open} {t : Token} {ts : List Token} {e : ParseError}
    (h : s.step t = .error e) : s.fault (t :: ts) = 0 := by
  rw [fault, h]

private theorem Open.fault_of_ok {s : Open} {t : Token} {ts : List Token} {p : Progress}
    (h : s.step t = .ok p) : s.fault (t :: ts) = p.state.fault ts + 1 := by
  rw [fault, h]

/-- The fault is at one of the tokens or behind the last. -/
theorem Open.fault_le_length (s : Open) (ts : List Token) : s.fault ts ≤ ts.length := by
  induction ts generalizing s with
  | nil => exact le_rfl
  | cons t ts ih =>
    cases hstep : s.step t with
    | error e => exact (fault_of_error hstep).trans_le (Nat.zero_le _)
    | ok p => exact (fault_of_ok hstep).trans_le (Nat.succ_le_succ (ih p.state))

section

variable {closing : Location} {s s' : Open} {t : Token} {ts rest : List Token} {ns : List Node}
  {e : ParseError}

private theorem error?_of_step_eq_error (h : s.step t = .error e) :
    (statementsFrom closing s (t :: ts)).error? = some e := by
  rw [statementsFrom, h]
  rfl

private theorem error?_of_step_eq_ok {p : Progress} (h : s.step t = .ok p) :
    (statementsFrom closing s (t :: ts)).error? = (statementsFrom closing p.state ts).error? := by
  rw [statementsFrom, h]
  cases p <;> rfl

/-- What has been read matters to an error only by the state that it leads to. -/
theorem error?_of_run (h : Run s ts ns s') :
    (statementsFrom closing s (ts ++ rest)).error? = (statementsFrom closing s' rest).error? := by
  rw [statementsFrom_append h, Statements.error?_foldr_next]

/-- **Reading fails on the token at fault, or at the end**, behind tokens that can be read. -/
theorem exists_run_of_error (h : (statementsFrom closing s ts).error? = some e) :
    ∃ ns s', Run s (ts.take (s.fault ts)) ns s' ∧
      (∀ t, ts[s.fault ts]? = some t → s'.step t = .error e) ∧
      (ts[s.fault ts]? = none → e = s'.unexpectedEnd closing) := by
  induction ts generalizing s with
  | nil =>
    refine ⟨[], s, .nil s, fun t ht => (by cases ht), fun _ => ?_⟩
    rw [statementsFrom] at h
    split at h
    · cases h
    · exact (Option.some.inj h).symm
  | cons t ts ih =>
    cases hstep : s.step t with
    | error e' =>
      rw [error?_of_step_eq_error hstep] at h
      rw [Open.fault_of_error hstep, ← Option.some.inj h]
      refine ⟨[], s, .nil s, fun u hu => ?_, fun hnone => (by cases hnone)⟩
      rw [← Option.some.inj hu]
      exact hstep
    | ok p =>
      rw [error?_of_step_eq_ok hstep] at h
      obtain ⟨ns, s', hrun, hend⟩ := ih h
      rw [Open.fault_of_ok hstep]
      exact ⟨_, s', .cons (Step.of_step_eq hstep) hrun, hend⟩

end

/-! ### Where an error is reported -/

/-- The tokens end with `let name ::`. -/
def EndsWithConstant (name : Token) (ts : List Token) : Prop :=
  ∃ before keyword colon marker, ts = before ++ [keyword, name, colon, marker] ∧
    keyword.spelling = .word "let" ∧ name.kind = .identifier ∧
    colon.spelling = .symbol ":" ∧ marker.spelling = .symbol ":"

/-- The tokens end with `use` and part of a path. -/
def EndsWithPath (path : List Token) (ts : List Token) : Prop :=
  ∃ before keyword, ts = before ++ keyword :: path ∧ keyword.spelling = .word "use" ∧
    ∀ t ∈ path, t.kind = .identifier ∨ t.spelling = .symbol ":"

/-- A path in progress grows with each name and each colon. -/
theorem EndsWithPath.concat {path ts : List Token} {t : Token} (h : EndsWithPath path ts)
    (ht : t.kind = .identifier ∨ t.spelling = .symbol ":") :
    EndsWithPath (path ++ [t]) (ts ++ [t]) := by
  obtain ⟨before, keyword, rfl, hkeyword, hpath⟩ := h
  refine ⟨before, keyword, List.append_assoc .., hkeyword, ?_⟩
  exact List.forall_mem_append.mpr ⟨hpath, List.forall_mem_singleton.mpr ht⟩

/-- The place of an error that is raised behind `ts`, on a token or an end that is `here`. A
constant without a value is reported where its name is, and a colon at the end of an import where
it is. -/
def ReportedAt (e : ParseError) (ts : List Token) (here : Location) : Prop :=
  match e.cause with
  | .uninitializedConstant text =>
    ∃ name, EndsWithConstant name ts ∧ name.text = text ∧ e.location = name.location
  | .importTrailingColon =>
    ∃ path colon, EndsWithPath (path ++ [colon]) ts ∧ colon.spelling = .symbol ":" ∧
      e.location = colon.location
  | _ => e.location = here

namespace Open

/-- What has been read last, in the phases whose errors are reported there. -/
def Follows (s : Open) (ts : List Token) : Prop :=
  match s.phase with
  | .letKeyword _ =>
    ∃ before keyword, ts = before ++ [keyword] ∧ keyword.spelling = .word "let"
  | .letName _ name =>
    ∃ before keyword, ts = before ++ [keyword, name] ∧ keyword.spelling = .word "let" ∧
      name.kind = .identifier
  | .letColon _ name =>
    ∃ before keyword colon, ts = before ++ [keyword, name, colon] ∧
      keyword.spelling = .word "let" ∧ name.kind = .identifier ∧ colon.spelling = .symbol ":"
  | .letMarker _ name false => EndsWithConstant name ts
  | .importPath _ _ (.colon location) =>
    ∃ path colon, EndsWithPath (path ++ [colon]) ts ∧ colon.spelling = .symbol ":" ∧
      location = colon.location
  | .importPath .. => ∃ path, EndsWithPath path ts
  | _ => True

private theorem follows_close (fs : List OpenFn) (node : Node) (ts : List Token) :
    (Progress.close fs node).state.Follows ts := by
  cases fs <;> exact trivial

/-- Step lemma: after each token, what the state recalls is what has been read last. -/
theorem Follows.step {s : Open} {t : Token} {p : Progress} {ts : List Token} (h : s.Follows ts)
    (hstep : Step s t p) : p.state.Follows (ts ++ [t]) := by
  cases hstep with
  | letKeyword ht => exact ⟨ts, t, rfl, ht⟩
  | letName hkind =>
    obtain ⟨before, keyword, rfl, hkeyword⟩ := h
    exact ⟨before, keyword, List.append_assoc .., hkeyword, hkind⟩
  | letColon ht =>
    obtain ⟨before, keyword, rfl, hkeyword, hname⟩ := h
    exact ⟨before, keyword, t, List.append_assoc .., hkeyword, hname, ht⟩
  | letImmutable ht =>
    obtain ⟨before, keyword, colon, rfl, hkeyword, hname, hcolon⟩ := h
    exact ⟨before, keyword, colon, t, List.append_assoc .., hkeyword, hname, hcolon, ht⟩
  | useKeyword ht => exact ⟨[], ts, t, rfl, ht, List.forall_mem_nil _⟩
  | pathColon ht =>
    obtain ⟨path, hpath⟩ := h
    exact ⟨path, t, hpath.concat (.inr ht), ht, rfl⟩
  | @pathName _ _ _ last _ hlast hkind =>
    cases last with
    | nothing =>
      obtain ⟨path, hpath⟩ := h
      exact ⟨_, hpath.concat (.inl hkind)⟩
    | name => cases hlast rfl
    | colon location =>
      obtain ⟨path, colon, hpath, -, -⟩ := h
      exact ⟨_, hpath.concat (.inl hkind)⟩
  | bodyEnd | straySymbol | stray | letEnd | pathEnd | wordEnd | literalEnd | initializerEnd
  | rvalueEnd | callEnd => exact follows_close _ _ _
  | _ => exact trivial

/-- Run lemma: the state recalls what has been read last. -/
private theorem follows_of_run {ts : List Token} {ns : List Node} {s : Open} (h : Run {} ts ns s) :
    s.Follows ts := by
  induction ts using List.reverseRecOn generalizing ns s with
  | nil =>
    cases h
    exact trivial
  | append_singleton ts t ih =>
    obtain ⟨_, s', p, hrun, hstep, -, rfl⟩ := h.of_concat
    exact (ih hrun).step hstep

/-- An error that a token behind `ts` raises is not the one for the end of a text, and it is
reported at its place. -/
def Blames (ts : List Token) (t : Token) (result : Except ParseError Progress) : Prop :=
  ∀ e, result = .error e →
    (∀ expected, e.cause ≠ .unexpectedEnd expected) ∧ ReportedAt e ts t.location

/-- **Every error is reported at its place.** -/
theorem blames_step {s : Open} {ts : List Token} {t : Token} (h : s.Follows ts) :
    Blames ts t (s.step t) := by
  intro e he
  cases fails_of_step_eq_error he with
  | @here cause hlocal =>
    cases cause with
    | unexpectedEnd | uninitializedConstant | importTrailingColon => cases hlocal
    | _ => exact ⟨fun _ => by simp [fail], rfl⟩
  | @constant k name hphase =>
    rw [Follows, hphase] at h
    exact ⟨fun _ => by simp [fail], name, h, rfl, rfl⟩
  | trailingColon hphase =>
    rw [Follows, hphase] at h
    exact ⟨fun _ => by simp [fail], h⟩

end Open

/-- **Errors are raised as early as they can be, and an end of the text is to blame only if there
could have been more.** Let a text be rejected, and let `k` be the place of the last token that was
looked at, or that of the end of the text. The tokens in front of it are the first ones of an
accepted text. If `k` is the place of a token, they are not so together with that token, and the
error is the same for all texts that start with them. The error tells that the text ended in a
construct exactly if all tokens of the text are the first ones of an accepted text. It is reported
at `k`, except for constants without a value and for colons at the end of an import. -/
theorem parse_error_at_viable_prefix {path source : String} {nodes : List Node} {e : ParseError}
    (h : (Reader.ofSource path source).Parses nodes (some e)) :
    let ts := tokenize path source
    let k := Open.fault {} ts
    k ≤ ts.length ∧
    Viable ((ts.take k).map Token.spelling) ∧
    (k < ts.length → ¬ Viable ((ts.take (k + 1)).map Token.spelling) ∧
      ∀ stop rest, (statements stop (ts.take (k + 1) ++ rest)).error? = some e) ∧
    ((∃ expected, e.cause = .unexpectedEnd expected) ↔ Viable (ts.map Token.spelling)) ∧
    ReportedAt e (ts.take k)
      ((ts[k]?.map Token.location).getD ((closing source).location path)) := by
  intro ts k
  have herror : (sourceStatements path source).error? = some e := by
    rw [← Reader.remaining_ofSource]
    exact (Reader.parses_iff.mp h).2.symm
  obtain ⟨ns, s, hrun, htoken, hend⟩ := exists_run_of_error herror
  have hle : k ≤ ts.length := Open.fault_le_length {} ts
  have hviable : Viable ((ts.take k).map Token.spelling) :=
    viable_of_run (fun t ht => occurs_of_mem_tokenize (List.mem_of_mem_take ht)) hrun
  refine ⟨hle, hviable, ?_⟩
  -- Either there is a token at fault, or all have been read and the text ends too early.
  cases hk : ts[k]? with
  | none =>
    have hlength : ts.length ≤ k := List.getElem?_eq_none_iff.mp hk
    rw [List.take_of_length_le hlength] at hviable
    refine ⟨fun hlt => absurd hlt (Nat.not_lt.mpr hlength), ?_, ?_⟩
    · exact iff_of_true ⟨_, congrArg Failure.cause (hend hk)⟩ hviable
    · rw [hend hk]
      rfl
  | some t =>
    have hstep : s.step t = .error e := htoken t hk
    have htake : ts.take (k + 1) = ts.take k ++ [t] := by
      rw [List.take_add_one, hk]
      rfl
    obtain ⟨hcause, hreported⟩ := Open.blames_step (Open.follows_of_run hrun) e hstep
    have hfault : ¬ Viable ((ts.take (k + 1)).map Token.spelling) := by
      rw [htake]
      refine not_viable_of_error (fun u hu => ?_) hrun hstep
      rw [← htake] at hu
      exact lexical_of_mem_tokenize (List.mem_of_mem_take hu)
    refine ⟨fun _ => ⟨hfault, fun stop rest => ?_⟩, ?_, hreported⟩
    · rw [htake, List.append_assoc, statements, error?_of_run hrun]
      exact error?_of_step_eq_error hstep
    · refine iff_of_false (not_exists.mpr hcause) fun hall => ?_
      exact hfault (hall.of_prefix ((List.take_prefix _ ts).map Token.spelling))

/-- A constant without a value in the body of a function. -/
theorem parse_error_at_viable_prefix_constant :
    let source := "use a; fn f() \x7b let b :: ; \x7d"
    let ts := tokenize "m" source
    ∃ nodes e, (Reader.ofSource "m" source).Parses nodes (some e) ∧
      Open.fault {} ts = 12 ∧ ts.length = 14 ∧
      Viable ((ts.take 12).map Token.spelling) ∧
      ¬ Viable ((ts.take 13).map Token.spelling) ∧
      (∀ stop rest, (statements stop (ts.take 13 ++ rest)).error? = some e) ∧
      ¬ Viable (ts.map Token.spelling) ∧
      ∃ name, EndsWithConstant name (ts.take 12) ∧ name.text = "b" ∧
        e.location = name.location := by
  intro source ts
  let e : ParseError :=
    ⟨.uninitializedConstant "b", ⟨"m", 1, 20⟩, [letNote ⟨"m", 1, 16⟩, fnNote ⟨"m", 1, 7⟩]⟩
  have hread : sourceStatements "m" source =
      .next (.importDecl "a" none false ⟨"m", 1, 0⟩) (.failed e) := by
    rw [sourceStatements_eq]
    cbv
  have hfault : Open.fault {} (tokenize "m" source) = 12 := by
    rw [tokenize_eq]
    cbv
  have hlength : (tokenize "m" source).length = 14 := by
    rw [tokenize_eq]
    cbv
  have hparses := Reader.parses_remaining (Reader.ofSource "m" source)
  rw [Reader.remaining_ofSource, hread] at hparses
  obtain ⟨-, hviable, htoken, hend, hreported⟩ := parse_error_at_viable_prefix hparses
  rw [hfault] at hviable htoken hreported
  obtain ⟨hnot, hsame⟩ := htoken (by rw [hlength]; decide)
  refine ⟨_, e, hparses, hfault, hlength, hviable, hnot, hsame, ?_, hreported⟩
  intro hall
  obtain ⟨expected, hexpected⟩ := hend.mpr hall
  cases hexpected

end Dwo
