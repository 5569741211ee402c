import Dwo.Proofs.Session.Phases
import Dwo.Proofs.Statement.Relocation
import Dwo.Proofs.Token.Lines

/-!
# Texts one below the other

A text that can be read to its end leaves nothing open, so another text can be put below it and is
read there as it would be by itself, only further down (`sourceStatements_below`). The main result,
`parses_below`, says the same of the calls of a reader.

What is needed of the first text is only that nothing is open at its end. A newline separates
the tokens of the two texts (`tokenize_append_newline`), a run over the tokens of both is a run
over the first followed by a run over the second, and moving the second one down commutes with
reading it (`relocate_statements`). A failure in the second text is moved down as well, with all
of its notes.
-/

namespace Dwo

namespace Statements

variable (f : Location → Location)

private theorem nodes_relocate (statements : Statements) :
    (statements.relocate f).nodes = statements.nodes.map (Node.relocate f) := by
  induction statements with
  | closed l => rfl
  | failed e => rfl
  | next node rest ih => exact congrArg (node.relocate f :: ·) ih

private theorem error?_relocate (statements : Statements) :
    (statements.relocate f).error? = statements.error?.map (Failure.relocate f) := by
  induction statements with
  | closed l => rfl
  | failed e => rfl
  | next node rest ih => exact ih

end Statements

/-- The statements of a text below another one are those of the text by itself, further down. -/
theorem sourceStatements_below {path s t : String} {nodes : List Node} {l : Location}
    (hs : sourceStatements path s = nodes.foldr Statements.next (.closed l))
    (ht : t.toList.head? ≠ some '\ufeff') :
    sourceStatements path (s ++ "\n" ++ t) =
      nodes.foldr Statements.next
        ((sourceStatements path t).relocate (Location.below (s.toList.count '\n' + 1))) := by
  obtain ⟨hrun, -⟩ := statements_eq_closed_iff.mp hs
  have htokens : tokenize path (s ++ "\n" ++ t) = tokenize path s ++
      (tokenize path t).map (Token.relocate (Location.below (s.toList.count '\n' + 1))) := by
    rw [tokenize_eq, sourceLexemes_append_newline path s ht, List.map_append, List.map_map,
      tokenize_eq, tokenize_eq, List.map_map]
    rfl
  rw [sourceStatements, statements, htokens, statementsFrom_append hrun, sourceStatements,
    relocate_statements, closing_append_newline s ht]
  rfl

/-- **Reading goes on below a text as in a text by itself.** Let `s` be a text that can be read to
its end, and `t` one that does not start with a byte order mark. If `t` is put below `s`, the
statements are those of `s`, and then those of `t`, up to its end or its error. All that comes from
`t` is found as many rows further down as there are newlines in front of it: statements with all
their parts, the end of the text, the error and its notes. -/
theorem parses_below {path s t : String} {nodes : List Node} {r : Reader}
    (hs : (Reader.ofSource path s).ReadsAll nodes r) (ht : t.toList.head? ≠ some '\ufeff') :
    let down := Location.below (1 + s.toList.count '\n')
    sourceStatements path (s ++ "\n" ++ t) =
        nodes.foldr Statements.next ((sourceStatements path t).relocate down) ∧
      ∀ later stop, (Reader.ofSource path t).Parses later stop →
        (Reader.ofSource path (s ++ "\n" ++ t)).Parses (nodes ++ later.map (Node.relocate down))
          (stop.map (Failure.relocate down)) := by
  intro down
  have hstatements : sourceStatements path (s ++ "\n" ++ t) =
      nodes.foldr Statements.next ((sourceStatements path t).relocate down) := by
    rw [sourceStatements_below (readsAll_ofSource_iff.mp hs).1 ht, Nat.add_comm]
  refine ⟨hstatements, ?_⟩
  intro later stop hparses
  rw [Reader.parses_iff, Reader.remaining_ofSource] at hparses ⊢
  obtain ⟨rfl, rfl⟩ := hparses
  rw [hstatements, Statements.nodes_foldr_next, Statements.error?_foldr_next,
    Statements.nodes_relocate, Statements.error?_relocate]
  exact ⟨rfl, rfl⟩

/-- A text that ends in a comment, above one with an error inside a function. -/
theorem parses_below_comment :
    let s := "let a := 1;\nuse b; // no more"
    let t := "fn f() \x7b\n  let c ::;"
    let down := Location.below (1 + s.toList.count '\n')
    ∃ nodes r, (Reader.ofSource "m" s).ReadsAll nodes r ∧ t.toList.head? ≠ some '\ufeff' ∧
      sourceStatements "m" (s ++ "\n" ++ t) =
        nodes.foldr Statements.next ((sourceStatements "m" t).relocate down) ∧
      ∀ later stop, (Reader.ofSource "m" t).Parses later stop →
        (Reader.ofSource "m" (s ++ "\n" ++ t)).Parses (nodes ++ later.map (Node.relocate down))
          (stop.map (Failure.relocate down)) := by
  intro s t down
  let nodes : List Node :=
    [.varDecl "a" true [.token ⟨.integer, "1", 1, ⟨"m", 1, 9⟩⟩] ⟨"m", 1, 4⟩,
      .importDecl "b" none false ⟨"m", 2, 0⟩]
  have hread : sourceStatements "m" s =
      nodes.foldr Statements.next (.closed ((closing s).location "m")) := by
    rw [sourceStatements_eq]
    cbv
  have hall : (Reader.ofSource "m" s).ReadsAll nodes _ := readsAll_ofSource_iff.mpr ⟨hread, rfl⟩
  have hmark : t.toList.head? ≠ some '\ufeff' := by decide
  exact ⟨nodes, _, hall, hmark, parses_below hall hmark⟩

end Dwo
