/-! How many children an operator takes. -/

namespace SetLang

/-- An admissible number of children. -/
inductive ChildCount where
  | exactly (n : Nat)
  | atLeast (n : Nat)
deriving DecidableEq, Inhabited

namespace ChildCount

def admits : ChildCount → Nat → Bool
  | exactly n, k => k == n
  | atLeast n, k => n ≤ k

def text : ChildCount → String
  | exactly n => toString n
  | atLeast n => s!"{n} or more"

end ChildCount

/-- The numbers of expression and of predicate children, the expressions first. -/
structure Arity where
  expressions : ChildCount
  predicates : ChildCount
deriving DecidableEq, Inhabited

end SetLang
