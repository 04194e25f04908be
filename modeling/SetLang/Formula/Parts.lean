import SetLang.Store

/-! The parts of a formula: direct children in the order of their positions, and what stands at a
longer position. The declarations of a quantifier come before its predicate and expression, the
expressions of an extended formula before its predicates. Assignments have no parts to fetch. -/

namespace SetLang

namespace Expr

def children : Expr → List Formula
  | binary _ _ l r => [.expr l, .expr r]
  | unary _ _ a => [.expr a]
  | assoc _ _ es | set _ es _ => es.map .expr
  | atom .. | bound .. | free .. => []
  | bool _ p => [.pred p]
  | quantified _ _ ds p e => ds.map .decl ++ [.pred p, .expr e]
  | extended _ _ es ps _ => es.map .expr ++ ps.map .pred

end Expr

namespace Pred

def children : Pred → List Formula
  | literal .. => []
  | not _ p => [.pred p]
  | connective _ _ p q => [.pred p, .pred q]
  | junction _ _ ps => ps.map .pred
  | comparison _ _ l r => [.expr l, .expr r]
  | partition _ es => es.map .expr
  | quantified _ _ ds p => ds.map .decl ++ [.pred p]
  | extended _ _ es ps => es.map .expr ++ ps.map .pred

end Pred

namespace Formula

/-- The children, of which assignments and declarations have none. -/
def parts : Formula → List Formula
  | expr e => e.children
  | pred p => p.children
  | assignment _ | decl _ => []

def isAssignment : Formula → Bool
  | assignment _ => true
  | _ => false

def support (f : Formula) (op : StructuralOperation) : Except FormulaError Unit :=
  if f.isAssignment then .error (.unsupported op) else .ok ()

def children (f : Formula) : Except FormulaError (List Formula) := do
  f.support .fetchChildren
  return f.parts

def childCount (f : Formula) : Except FormulaError Nat := do
  f.support .countChildren
  return f.parts.length

def child (f : Formula) (i : Nat) : Except FormulaError Formula := do
  f.support .fetchChild
  match f.parts[i]? with
  | some c => return c
  | none => throw (.invalidPosition (Position.root.child i))

/-- What stands at a path of child indices, if anything does. -/
def at? : Formula → List Nat → Option Formula
  | f, [] => some f
  | f, i :: is => (f.parts[i]?).bind (at? · is)

def descendant (f : Formula) (p : Position) : Except FormulaError Formula := do
  f.support .fetchDescendant
  match f.at? p.indexes with
  | some g => return g
  | none => throw (.invalidPosition p)

/-- A formula to keep: a declaration is copied, so that checking the formula that it was fetched
from leaves it alone. -/
def detach : Formula → Build Formula
  | decl d => return .decl (← Build.copy d)
  | f => return f

end Formula

mutual

/-- Whether an expression denotes a type as the set of its values. -/
def Expr.isTypeExpr (s : Store) : Expr → Bool
  | .free n x _ =>
    match s.type? n.slot with
    | some (.power (.given g)) => g == x
    | _ => false
  | .atom _ a _ => a == .boolSet
  | .unary _ op a => op == .pow && a.isTypeExpr s
  | .binary _ op l r => op == .cprod && l.isTypeExpr s && r.isTypeExpr s
  | .extended _ ext es _ _ => ext.isTypeConstructor && Expr.areTypeExprs s es
  | _ => false

def Expr.areTypeExprs (s : Store) : List Expr → Bool
  | [] => true
  | e :: es => e.isTypeExpr s && Expr.areTypeExprs s es

end
end SetLang
