import SetLang.Formula
import SetLang.Proofs.Datatype
import SetLang.Proofs.Unifier.Resolution

/-! The typing rules, as schemes. A scheme has patterns for the types of the children of a node and
for the type of the node; a rule holds when all of them are instances of the patterns for the same
choice of their variables. -/

namespace SetLang

/-- A ground type as `==` sees it: datatypes are known by name. -/
abbrev GroundTy := NamedTree Empty

/-- The last of the patterns for children serves all children that have none of their own; without a
pattern of the result, any type will do. -/
structure Scheme where
  args : List TyTerm
  result : Option TyTerm

namespace Scheme

def pattern? (σ : Scheme) (i : Nat) : Option TyTerm := (σ.args[i]?).or σ.args.getLast?

def Matches (σ : Scheme) (ρ : TypeVar → GroundTy) (args : List GroundTy) : Prop :=
  ∀ i g p, args[i]? = some g → σ.pattern? i = some p → g = TyTerm.under ρ p

/-- The rule for children of the given types and a result of the given type, if there is one. -/
def Holds (σ : Scheme) (args : List GroundTy) (result : Option GroundTy) : Prop :=
  ∃ ρ : TypeVar → GroundTy, σ.Matches ρ args ∧
    ∀ g p, result = some g → σ.result = some p → g = TyTerm.under ρ p

def any : Scheme := ⟨[], none⟩

end Scheme

namespace BinaryOp

def scheme : BinaryOp → Scheme
  | maplet => ⟨[.leaf 0, .leaf 1], some (.product (.leaf 0) (.leaf 1))⟩
  | funImage => ⟨[.relation (.leaf 0) (.leaf 1), .leaf 0], some (.leaf 1)⟩
  | relImage => ⟨[.relation (.leaf 0) (.leaf 1), .power (.leaf 0)], some (.power (.leaf 1))⟩
  | cprod => ⟨[.power (.leaf 0), .power (.leaf 1)], some (.relation (.leaf 0) (.leaf 1))⟩
  | dprod => ⟨[.relation (.leaf 0) (.leaf 1), .relation (.leaf 0) (.leaf 2)],
      some (.relation (.leaf 0) (.product (.leaf 1) (.leaf 2)))⟩
  | rel | tfun | tinj | tsur | tbij | strel =>
    ⟨[.power (.leaf 0), .power (.leaf 1)], some (.power (.relation (.leaf 0) (.leaf 1)))⟩
  | setminus => ⟨[.power (.leaf 0), .power (.leaf 0)], some (.power (.leaf 0))⟩
  | domres => ⟨[.power (.leaf 0), .relation (.leaf 0) (.leaf 1)],
      some (.relation (.leaf 0) (.leaf 1))⟩

end BinaryOp

namespace UnaryOp

def scheme : UnaryOp → Scheme
  | converse => ⟨[.relation (.leaf 0) (.leaf 1)], some (.relation (.leaf 1) (.leaf 0))⟩
  | dom => ⟨[.relation (.leaf 0) (.leaf 1)], some (.power (.leaf 0))⟩
  | ran => ⟨[.relation (.leaf 0) (.leaf 1)], some (.power (.leaf 1))⟩
  | pow => ⟨[.power (.leaf 0)], some (.power (.power (.leaf 0)))⟩

end UnaryOp

namespace AssocOp

def scheme : AssocOp → Scheme
  | union | inter => ⟨[.power (.leaf 0)], some (.power (.leaf 0))⟩
  | ovr => ⟨[.relation (.leaf 0) (.leaf 1)], some (.relation (.leaf 0) (.leaf 1))⟩

end AssocOp

namespace Atom

def scheme : Atom → Scheme
  | emptySet => ⟨[], some (.power (.leaf 0))⟩
  | boolSet => ⟨[], some (.power .boolean)⟩
  | truth | falsity => ⟨[], some .boolean⟩

end Atom

namespace SetBinder

def scheme : SetBinder → Scheme
  | comprehension => ⟨[.leaf 0], some (.power (.leaf 0))⟩
  | union | inter => ⟨[.power (.leaf 0)], some (.power (.leaf 0))⟩

end SetBinder

namespace Comparison

def scheme : Comparison → Scheme
  | eq | ne => ⟨[.leaf 0], none⟩
  | mem | notMem => ⟨[.leaf 0, .power (.leaf 0)], none⟩
  | subset | subsetEq | notSubset | notSubsetEq => ⟨[.power (.leaf 0)], none⟩

end Comparison

namespace Datatype

/-- The type that a datatype forms over variables for its parameters. -/
def generic (d : Datatype) : TyTerm := .data d ((List.range d.params.length).map .leaf)

/-- An argument type over variables for the parameters of its datatype. -/
def genericArgument (d : Datatype) (t : ArgTy) : TyTerm :=
  t.subst fun
    | .param i => .leaf i
    | .self => d.generic

/-- The type constructor takes sets over the parameters, a constructor its arguments, and a
destructor a value of the datatype. -/
def scheme (d : Datatype) : DatatypeRole → Scheme
  | .typeConstructor =>
    ⟨(List.range d.params.length).map fun i => .power (.leaf i), some (.power d.generic)⟩
  | .constructor index =>
    ⟨((d.constructors[index]?).elim [] (·.arguments)).map fun a => d.genericArgument a.type,
      some d.generic⟩
  | .destructor index argument =>
    ⟨[d.generic], ((d.constructors[index]?).bind (·.arguments[argument]?)).map fun a =>
      d.genericArgument a.type⟩

end Datatype

namespace Extension

def scheme (e : Extension) : Scheme :=
  match e.typing with
  | .rule args result => ⟨args, result⟩
  | .ofDatatype d role => d.scheme role

end Extension

namespace Expr

/-- The scheme of an expression. Identifiers have the types of their declarations. -/
def scheme : Expr → Scheme
  | binary _ op _ _ => op.scheme
  | unary _ op _ => op.scheme
  | assoc _ op _ => op.scheme
  | atom _ a _ => a.scheme
  | set _ _ _ => ⟨[.leaf 0], some (.power (.leaf 0))⟩
  | bool _ _ => ⟨[], some .boolean⟩
  | quantified _ op _ _ _ => op.scheme
  | bound _ _ _ | free _ _ _ => .any
  | extended _ e _ _ _ => e.scheme

def operands : Expr → List Expr
  | binary _ _ l r => [l, r]
  | unary _ _ a => [a]
  | assoc _ _ es | set _ es _ => es
  | quantified _ _ _ _ e => [e]
  | extended _ _ es _ _ => es
  | atom _ _ _ | bool _ _ | bound _ _ _ | free _ _ _ => []

def Fitting : Expr → Prop
  | extended _ ext es _ _ => ext.Genuine ∧ ext.arity.expressions.admits es.length
  | _ => True

end Expr

namespace Pred

def scheme : Pred → Scheme
  | comparison _ op _ _ => op.scheme
  | partition _ _ => ⟨[.power (.leaf 0)], none⟩
  | extended _ e _ _ => e.scheme
  | literal _ _ | not _ _ | connective _ _ _ _ | junction _ _ _ | quantified _ _ _ _ => .any

def operands : Pred → List Expr
  | comparison _ _ l r => [l, r]
  | partition _ es => es
  | extended _ _ es _ => es
  | literal _ _ | not _ _ | connective _ _ _ _ | junction _ _ _ | quantified _ _ _ _ => []

def Fitting : Pred → Prop
  | extended _ ext es _ => ext.Genuine ∧ ext.arity.expressions.admits es.length
  | _ => True

end Pred
end SetLang
