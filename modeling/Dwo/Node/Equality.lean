import Dwo.Node.Basic

/-!
# Equality of syntax trees

Two trees are equal when they agree in every part, places and token values included. `Node.same`
decides this by walking both trees at once.
-/

namespace Dwo

mutual

/-- Whether two trees agree in every part. -/
def Node.same : Node → Node → Bool
  | .endOfFile l, .endOfFile l' => decide (l = l')
  | .token t, .token t' => decide (t = t')
  | .importDecl n a b l, .importDecl n' a' b' l' => decide (n = n' ∧ a = a' ∧ b = b' ∧ l = l')
  | .unaryOp l, .unaryOp l' => decide (l = l')
  | .binaryOp l, .binaryOp l' => decide (l = l')
  | .fnParams l, .fnParams l' => decide (l = l')
  | .expr is l, .expr is' l' => sameAll is is' && decide (l = l')
  | .varDecl n m is l, .varDecl n' m' is' l' =>
    sameAll is is' && decide (n = n' ∧ m = m' ∧ l = l')
  | .assignment n is l, .assignment n' is' l' => sameAll is is' && decide (n = n' ∧ l = l')
  | .fnDecl n ps bs l, .fnDecl n' ps' bs' l' =>
    sameAll ps ps' && sameAll bs bs' && decide (n = n' ∧ l = l')
  | .fnCall n as l, .fnCall n' as' l' => sameAll as as' && decide (n = n' ∧ l = l')
  | _, _ => false

/-- Whether two lists of trees agree tree by tree. -/
def Node.sameAll : List Node → List Node → Bool
  | [], [] => true
  | a :: as, b :: bs => Node.same a b && sameAll as bs
  | _, _ => false

end

mutual

theorem Node.same_iff : (a b : Node) → (Node.same a b = true ↔ a = b)
  | .endOfFile _, b | .token _, b | .importDecl .., b | .unaryOp _, b | .binaryOp _, b
  | .fnParams _, b => by cases b <;> simp [Node.same]
  | .expr is _, b => by
    cases b <;> simp [Node.same, Node.sameAll_iff is]
  | .varDecl _ _ is _, b => by
    cases b <;> simp [Node.same, Node.sameAll_iff is]; grind
  | .assignment _ is _, b => by
    cases b <;> simp [Node.same, Node.sameAll_iff is]; grind
  | .fnDecl _ ps bs _, b => by
    cases b <;> simp [Node.same, Node.sameAll_iff ps, Node.sameAll_iff bs]; grind
  | .fnCall _ as _, b => by
    cases b <;> simp [Node.same, Node.sameAll_iff as]; grind

theorem Node.sameAll_iff : (as bs : List Node) → (Node.sameAll as bs = true ↔ as = bs)
  | [], bs => by cases bs <;> simp [Node.sameAll]
  | a :: as, bs => by
    cases bs <;> simp [Node.sameAll, Node.same_iff a, Node.sameAll_iff as]

end

instance : DecidableEq Node := fun a b =>
  decidable_of_iff (Node.same a b = true) (Node.same_iff a b)

end Dwo
