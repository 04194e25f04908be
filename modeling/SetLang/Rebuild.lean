import SetLang.Formula.Build

/-! Rebuilding formulas. A rebuilder says how types, identifiers and extended expressions are
rebuilt; all other nodes are made anew as they are from their rebuilt children, in the factory of
the rebuilder. The type of a node is read before its children are rebuilt. -/

namespace SetLang

/-- How the parts of a formula are rebuilt. A bound identifier is met below `depth` declarations of
the formula; an extended expression comes with its source and its rebuilt children. -/
structure Rebuilder (m : Type → Type) where
  factory : Factory
  type : Ty → m Ty
  free : (name : String) → Option Ty → m Expr
  bound : (index depth : Nat) → Option Ty → m Expr
  extended : (source : Expr) → Extension → List Expr → List Pred → Option Ty → m Expr

namespace Rebuilder

variable {m : Type → Type} [Monad m] [MonadLiftT Build m]

def copy (f : Factory) (type : Ty → m Ty) : Rebuilder m where
  factory := f
  type := type
  free name t := liftM (f.free name t)
  bound index _ t := liftM (f.bound index t)
  extended _ ext es ps t := liftM (f.extendedExpr ext es ps t)

def optType (r : Rebuilder m) : Option Ty → m (Option Ty)
  | some t => some <$> r.type t
  | none => pure none

def decl (r : Rebuilder m) (s : Store) (d : Declaration) : m Declaration := do
  let t ← r.optType (d.type? s)
  liftM (Build.declare d.name t)

def decls (r : Rebuilder m) (s : Store) : List Declaration → m (List Declaration)
  | [] => pure []
  | d :: ds => do
    let d ← r.decl s d
    return d :: (← r.decls s ds)

/-- The rebuilt type of a node, or else of the type that was given to it. -/
def nodeType (r : Rebuilder m) (s : Store) (e : Expr) : m (Option Ty) :=
  r.optType ((e.type? s).or e.explicit?)

mutual

/-- Rebuilds an expression whose types stand in the store `s`. -/
def expr (r : Rebuilder m) (s : Store) (depth : Nat) : Expr → m Expr
  | .binary n op a b => do
    let _ ← r.nodeType s (.binary n op a b)
    let a ← r.expr s depth a
    let b ← r.expr s depth b
    liftM (r.factory.binary op a b)
  | .unary n op a => do
    let _ ← r.nodeType s (.unary n op a)
    let a ← r.expr s depth a
    liftM (r.factory.unary op a)
  | .assoc n op es => do
    let _ ← r.nodeType s (.assoc n op es)
    let es ← r.exprs s depth es
    liftM (r.factory.assoc op es)
  | .atom n a t => do
    let t ← r.nodeType s (.atom n a t)
    liftM (r.factory.atom a t)
  | .set n es t => do
    let t ← r.nodeType s (.set n es t)
    let es ← r.exprs s depth es
    liftM (r.factory.set es t)
  | .bool n p => do
    let _ ← r.nodeType s (.bool n p)
    let p ← r.pred s depth p
    liftM (r.factory.bool p)
  | .quantified n op ds p e => do
    let _ ← r.nodeType s (.quantified n op ds p e)
    let ds' ← r.decls s ds
    let p ← r.pred s (depth + ds.length) p
    let e ← r.expr s (depth + ds.length) e
    liftM (r.factory.quantifiedExpr op ds' p e)
  | .bound n i t => do
    let t ← r.nodeType s (.bound n i t)
    r.bound i depth t
  | .free n x t => do
    let t ← r.nodeType s (.free n x t)
    r.free x t
  | .extended n ext es ps t => do
    let t' ← r.nodeType s (.extended n ext es ps t)
    let es' ← r.exprs s depth es
    let ps' ← r.preds s depth ps
    r.extended (.extended n ext es ps t) ext es' ps' t'

def exprs (r : Rebuilder m) (s : Store) (depth : Nat) : List Expr → m (List Expr)
  | [] => pure []
  | e :: es => do
    let e ← r.expr s depth e
    return e :: (← r.exprs s depth es)

def pred (r : Rebuilder m) (s : Store) (depth : Nat) : Pred → m Pred
  | .literal _ b => liftM (r.factory.literal b)
  | .not _ p => do
    let p ← r.pred s depth p
    liftM (r.factory.not p)
  | .connective _ op p q => do
    let p ← r.pred s depth p
    let q ← r.pred s depth q
    liftM (r.factory.connective op p q)
  | .junction _ op ps => do
    let ps ← r.preds s depth ps
    liftM (r.factory.junction op ps)
  | .comparison _ op a b => do
    let a ← r.expr s depth a
    let b ← r.expr s depth b
    liftM (r.factory.comparison op a b)
  | .partition _ es => do
    let es ← r.exprs s depth es
    liftM (r.factory.partition es)
  | .quantified _ op ds p => do
    let ds' ← r.decls s ds
    let p ← r.pred s (depth + ds.length) p
    liftM (r.factory.quantifiedPred op ds' p)
  | .extended _ ext es ps => do
    let es ← r.exprs s depth es
    let ps ← r.preds s depth ps
    liftM (r.factory.extendedPred ext es ps)

def preds (r : Rebuilder m) (s : Store) (depth : Nat) : List Pred → m (List Pred)
  | [] => pure []
  | p :: ps => do
    let p ← r.pred s depth p
    return p :: (← r.preds s depth ps)

end

/-- Rebuilds a formula of any family but assignments, for which there is no answer. -/
def formula? (r : Rebuilder m) (s : Store) : Formula → Option (m Formula)
  | .expr e => some (.expr <$> r.expr s 0 e)
  | .pred p => some (.pred <$> r.pred s 0 p)
  | .decl d => some (.decl <$> r.decl s d)
  | .assignment _ => none

end Rebuilder

/-- Rebuilding of whole formulas, which refuses assignments. -/
abbrev Derive := ExceptT (Fault FormulaError) (StateM Store)

instance : MonadLift Build Derive where
  monadLift x := ExceptT.mk do
    match ← x.run with
    | .ok a => return .ok a
    | .error m => return .error (.misuse m)

namespace Rebuilder

def formula (r : Rebuilder Build) (f : Formula) : Derive Formula := do
  match r.formula? (← get) f with
  | some x => liftM x
  | none => throw (.error (.unsupported .rebuild))

end Rebuilder
end SetLang
