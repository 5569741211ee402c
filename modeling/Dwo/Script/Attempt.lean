import Dwo.Script.Error

/-!
# Attempts

Statements are written step by step, into a text and into tables that outlive the statement. Any
step may find that the statement makes no sense. An `Attempt` is such a step: it changes a state
and may fail, and *a failure undoes nothing*. Whoever wants a failed statement to leave no trace
has to fail before the first lasting change.
-/

namespace Dwo

/-- A step that changes a state and may fail. What it has changed by then stays changed. -/
def Attempt (σ α : Type) : Type := σ → Except EmitError α × σ

namespace Attempt

variable {σ τ α β : Type}

/-- One step after another. A failure of the first ends both, in the state that it has left. -/
def andThen (m : Attempt σ α) (f : α → Attempt σ β) : Attempt σ β := fun s =>
  match m s with
  | (.ok a, s) => f a s
  | (.error e, s) => (.error e, s)

instance : Monad (Attempt σ) where
  pure a s := (.ok a, s)
  bind := andThen

/-- The step that fails. -/
def fail (e : EmitError) : Attempt σ α := fun s => (.error e, s)

/-- The step that looks at the state. -/
def look (f : σ → α) : Attempt σ α := fun s => (.ok (f s), s)

/-- The step that changes the state. -/
def change (f : σ → σ) : Attempt σ Unit := fun s => (.ok (), f s)

/-- A step on a part of the state. The part is put back also when the step fails. -/
def on (part : τ → σ) (put : σ → τ → τ) (m : Attempt σ α) : Attempt τ α := fun t =>
  ((m (part t)).1, put (m (part t)).2 t)

@[simp]
theorem pure_apply (a : α) (s : σ) : (pure a : Attempt σ α) s = (.ok a, s) := rfl

@[simp]
theorem fail_apply (e : EmitError) (s : σ) : (fail e : Attempt σ α) s = (.error e, s) := rfl

@[simp]
theorem look_apply (f : σ → α) (s : σ) : look f s = (.ok (f s), s) := rfl

@[simp]
theorem change_apply (f : σ → σ) (s : σ) : change f s = (.ok (), f s) := rfl

@[simp]
theorem on_apply (part : τ → σ) (put : σ → τ → τ) (m : Attempt σ α) (t : τ) :
    m.on part put t = ((m (part t)).1, put (m (part t)).2 t) := rfl

/-- A step that has a value hands its state on. -/
theorem bind_of_ok {m : Attempt σ α} {f : α → Attempt σ β} {s s' : σ} {a : α}
    (h : m s = (.ok a, s')) : (m >>= f) s = f a s' := by
  have hbind : (m >>= f) s = m.andThen f s := rfl
  rw [hbind, andThen, h]

/-- A step that fails is the last one. -/
theorem bind_of_error {m : Attempt σ α} {f : α → Attempt σ β} {s s' : σ} {e : EmitError}
    (h : m s = (.error e, s')) : (m >>= f) s = (.error e, s') := by
  have hbind : (m >>= f) s = m.andThen f s := rfl
  rw [hbind, andThen, h]

end Attempt

end Dwo
