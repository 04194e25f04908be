import SetLang.Arity

/-! Uses of the library that its contracts rule out, as opposed to the errors that an operation
reports on inputs of its domain. An operation that can do both fails with a `Fault`. -/

namespace SetLang

/-- A broken contract. An index without a meaning, such as that of a variable that was never
allocated, of a missing type argument or of a missing child, has no text. -/
inductive Misuse where
  | indexOutOfRange
  | tooFewExpressions
  | tooFewPredicates
  | noDeclaration
  | emptyPartition
  | unregisteredExtension (id : String)
  | wrongKind (id : String)
  | expressionCount (id : String) (expected : ChildCount) (actual : Nat)
  | predicateCount (id : String) (expected : ChildCount) (actual : Nat)
  | mixedFactories
  | unregisteredDatatype (name : String)
  | nothingAssigned
  | notAssignable (text : String)
  | assignedTwice (name : String)
  | assignmentMismatch
  | slotChange
deriving DecidableEq

namespace Misuse

def message? : Misuse → Option String
  | indexOutOfRange => none
  | tooFewExpressions => some "associative expressions need two children"
  | tooFewPredicates => some "associative predicates need two children"
  | noDeclaration => some "a quantifier declares at least one identifier"
  | emptyPartition => some "a partition needs at least one set"
  | unregisteredExtension id => some s!"extension {id} is not registered in this factory"
  | wrongKind id => some s!"wrong kind of extension {id}"
  | expressionCount id expected n =>
    some s!"extension {id} expects {expected.text} expressions, got {n}"
  | predicateCount id expected n =>
    some s!"extension {id} expects {expected.text} predicates, got {n}"
  | mixedFactories => some "cannot mix formulas built by different factories"
  | unregisteredDatatype name => some s!"datatype {name} is not registered"
  | nothingAssigned => some "an assignment assigns at least one identifier"
  | notAssignable text => some s!"cannot assign to {text}"
  | assignedTwice name => some s!"{name} is assigned twice"
  | assignmentMismatch => some "assigned identifiers and right-hand side do not match"
  | slotChange => some "a resolved type slot cannot change"

end Misuse

inductive Fault (ε : Type) where
  | error (e : ε)
  | misuse (m : Misuse)
deriving DecidableEq

namespace Fault

def mapError {ε ε' : Type} (f : ε → ε') : Fault ε → Fault ε'
  | error e => error (f e)
  | misuse m => misuse m

end Fault
end SetLang
