import Dwo.Location

/-!
# Names and what they stand for

A `Binding` records that a name is taken: by a declaration in the source, which has a place, or
by a library, which has a name. `Table` keeps bindings in the order in which they were made, and
the first one for a name is the one that counts. A `Scope` looks a variable up in an inner table
before an outer one.
-/

namespace Dwo

/-- A name that is taken, by a declaration at some place or by a library. -/
structure Binding where
  name : String
  library : Option String := none
  location : Option Location := none
deriving DecidableEq, Inhabited, Repr

/-- A function that can be called. -/
structure Function extends Binding
deriving DecidableEq, Inhabited, Repr

/-- A variable that can be read and, unless it is immutable, assigned. -/
structure Variable extends Binding where
  immutable : Bool := false
deriving DecidableEq, Inhabited, Repr

/-- Things that are looked up by name. -/
class Named (α : Type) where
  name : α → String

instance : Named Function := ⟨fun f => f.name⟩

instance : Named Variable := ⟨fun v => v.name⟩

/-- Bindings of one kind, oldest first. -/
structure Table (α : Type) where
  entries : List α := []
deriving DecidableEq, Repr

namespace Table

variable {α : Type}

instance : Inhabited (Table α) := ⟨{}⟩

/-- A table with one more binding. -/
def declare (t : Table α) (entry : α) : Table α :=
  ⟨t.entries ++ [entry]⟩

/-- A table with several more bindings. -/
def declareAll (t : Table α) (entries : List α) : Table α :=
  ⟨t.entries ++ entries⟩

/-- The first binding of a name. -/
def find? [Named α] (t : Table α) (name : String) : Option α :=
  t.entries.find? fun entry => decide (Named.name entry = name)

@[simp]
theorem entries_declare (t : Table α) (entry : α) :
    (t.declare entry).entries = t.entries ++ [entry] := rfl

@[simp]
theorem entries_declareAll (t : Table α) (entries : List α) :
    (t.declareAll entries).entries = t.entries ++ entries := rfl

@[simp]
theorem find?_empty [Named α] (name : String) : ({} : Table α).find? name = none := rfl

/-- A new binding counts only for a name that was free. -/
theorem find?_declare [Named α] (t : Table α) (entry : α) (name : String) :
    (t.declare entry).find? name =
      (t.find? name).or (if Named.name entry = name then some entry else none) := by
  simp only [find?, entries_declare, List.find?_append, List.find?_cons, List.find?_nil]
  split <;> simp_all

end Table

/-- The tables in which a variable is looked up: those of a function, if inside one, and those
outside. -/
structure Scope where
  inner : Option (Table Variable)
  outer : Table Variable
deriving DecidableEq, Inhabited, Repr

/-- The variable that a name stands for, the inner one first. -/
def Scope.lookup? (s : Scope) (name : String) : Option Variable :=
  (s.inner.bind (·.find? name)).or (s.outer.find? name)

end Dwo
