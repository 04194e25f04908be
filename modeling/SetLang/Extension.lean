import SetLang.Arity
import SetLang.Datatype

/-! Operators added to the core language. An extension takes expressions and predicates, is written
in one of three forms, and is typed by patterns or by its role in a datatype. Extensions are
identified by their `id`. -/

namespace SetLang

inductive ExtensionKind where
  | expression
  | predicate
deriving DecidableEq, Inhabited

/-- How an extension is written: `op(a, b)`, `a op b`, or `a op b op c`. -/
inductive OperatorForm where
  | application
  | binary
  | associative
deriving DecidableEq, Inhabited

inductive DatatypeRole where
  | typeConstructor
  | constructor (index : Nat)
  | destructor (constructor argument : Nat)
deriving DecidableEq, Inhabited

/-- How an extended formula is typed. A rule has one pattern for each expression child, of which the
last also applies to all further children, and the pattern of the result of an expression. -/
inductive ExtensionTyping where
  | rule (args : List TyTerm) (result : Option TyTerm)
  | ofDatatype (datatype : Datatype) (role : DatatypeRole)

structure Extension where
  id : String
  symbol : String
  kind : ExtensionKind
  arity : Arity
  form : OperatorForm
  typing : ExtensionTyping

instance : BEq Extension := ⟨fun e f => e.id == f.id⟩

namespace Extension

def role? (e : Extension) : Option (Datatype × DatatypeRole) :=
  match e.typing with
  | .ofDatatype d r => some (d, r)
  | .rule _ _ => none

def isTypeConstructor (e : Extension) : Bool :=
  match e.role? with
  | some (_, .typeConstructor) => true
  | _ => false

def ofRole (d : Datatype) (symbol : String) (children : Nat) (r : DatatypeRole) : Extension where
  id := symbol
  symbol := symbol
  kind := .expression
  arity := ⟨.exactly children, .exactly 0⟩
  form := .application
  typing := .ofDatatype d r

end Extension

namespace Datatype

def destructorExtensions (d : Datatype) (index : Nat) (c : Constructor) : List Extension :=
  c.arguments.zipIdx.filterMap fun (a, i) =>
    a.destructor.map fun name => .ofRole d name 1 (.destructor index i)

/-- The extensions of a datatype: its type constructor, then each constructor followed by its
destructors. -/
def extensions (d : Datatype) : List Extension :=
  .ofRole d d.name d.params.length .typeConstructor
    :: d.constructors.zipIdx.flatMap fun (c, i) =>
      .ofRole d c.symbol c.arguments.length (.constructor i) :: d.destructorExtensions i c

end Datatype
end SetLang
