import SetLang.Language
import SetLang.Operator
import SetLang.Position

/-! Formulas: expressions, predicates, assignments and declarations of bound identifiers. A formula
belongs to the factory that built it, and each of its nodes has a slot of its own, where its type is
kept once it is known. Bound identifiers count declarations outwards: index 0 is the last
declaration of the innermost quantifier. -/

namespace SetLang

/-- What every node has: its factory and its slot. -/
structure Node where
  factory : Factory
  slot : Nat

/-- The declaration of a bound identifier; its name only serves for printing. -/
structure Declaration where
  name : String
  slot : Nat

mutual

/-- Expressions. Some nodes hold the type that was given when they were built. -/
inductive Expr where
  | binary (node : Node) (op : BinaryOp) (left right : Expr)
  | unary (node : Node) (op : UnaryOp) (arg : Expr)
  | assoc (node : Node) (op : AssocOp) (args : List Expr)
  | atom (node : Node) (atom : Atom) (type : Option Ty)
  | set (node : Node) (members : List Expr) (type : Option Ty)
  | bool (node : Node) (condition : Pred)
  | quantified (node : Node) (op : SetBinder) (decls : List Declaration) (condition : Pred)
      (body : Expr)
  | bound (node : Node) (index : Nat) (type : Option Ty)
  | free (node : Node) (name : String) (type : Option Ty)
  | extended (node : Node) (ext : Extension) (args : List Expr) (conditions : List Pred)
      (type : Option Ty)

inductive Pred where
  | literal (node : Node) (value : Bool)
  | not (node : Node) (arg : Pred)
  | connective (node : Node) (op : Connective) (left right : Pred)
  | junction (node : Node) (op : Junction) (args : List Pred)
  | comparison (node : Node) (op : Comparison) (left right : Expr)
  | partition (node : Node) (sets : List Expr)
  | quantified (node : Node) (op : Quantifier) (decls : List Declaration) (body : Pred)
  | extended (node : Node) (ext : Extension) (args : List Expr) (conditions : List Pred)

end

/-- What is assigned: one value for each identifier, some member of a set, or values that satisfy a
condition in which they are declared. -/
inductive Assigned where
  | values (values : List Expr)
  | member (set : Expr)
  | such (primed : List Declaration) (condition : Pred)

structure Assignment where
  node : Node
  targets : List Expr
  assigned : Assigned

inductive Formula where
  | expr (e : Expr)
  | pred (p : Pred)
  | assignment (a : Assignment)
  | decl (d : Declaration)

/-- What assignments do not take part in. -/
inductive StructuralOperation where
  | fetchChildren
  | countChildren
  | fetchChild
  | fetchDescendant
  | inspect
  | rebuild
deriving DecidableEq

namespace StructuralOperation

def text : StructuralOperation → String
  | fetchChildren => "fetching children"
  | countChildren => "counting children"
  | fetchChild => "fetching a child"
  | fetchDescendant => "fetching a descendant"
  | inspect => "inspection"
  | rebuild => "rewriting"

end StructuralOperation

inductive FormulaError where
  | unsupported (operation : StructuralOperation)
  | notTypeChecked
  | invalidPosition (p : Position)
  | notExtended (text : String)
deriving DecidableEq

namespace FormulaError

def message : FormulaError → String
  | unsupported operation => s!"assignments do not support {operation.text}"
  | notTypeChecked => "formula is not type-checked"
  | invalidPosition p => s!"no sub-formula at position {p.text}"
  | notExtended text => s!"not an extended formula: {text}"

end FormulaError

namespace Expr

def node : Expr → Node
  | binary n .. | unary n .. | assoc n .. | atom n .. | set n .. | bool n .. | quantified n ..
  | bound n .. | free n .. | extended n .. => n

def factory (e : Expr) : Factory := e.node.factory

/-- The type given when the node was built. -/
def explicit? : Expr → Option Ty
  | atom _ _ t | set _ _ t | bound _ _ t | free _ _ t | extended _ _ _ _ t => t
  | _ => none

def freeName? : Expr → Option String
  | free _ x _ => some x
  | _ => none

end Expr

namespace Pred

def node : Pred → Node
  | literal n .. | not n .. | connective n .. | junction n .. | comparison n .. | partition n ..
  | quantified n .. | extended n .. => n

def factory (p : Pred) : Factory := p.node.factory

end Pred
end SetLang
