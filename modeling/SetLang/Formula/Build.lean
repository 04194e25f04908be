import SetLang.Typing.Synthesis

/-! Building formulas. A factory makes each kind of node from parts that it made itself, checks the
numbers of parts, and types the node if its parts are typed. Declarations are copied into the node
that declares them. -/

namespace SetLang

namespace Expr

/-- The factories of the expressions and predicates directly below. -/
def partFactories : Expr → List Factory
  | binary _ _ l r => [l.factory, r.factory]
  | unary _ _ a => [a.factory]
  | assoc _ _ es | set _ es _ => es.map Expr.factory
  | atom .. | bound .. | free .. => []
  | bool _ p => [p.factory]
  | quantified _ _ _ p e => [p.factory, e.factory]
  | extended _ _ es ps _ => es.map Expr.factory ++ ps.map Pred.factory

end Expr

namespace Pred

def partFactories : Pred → List Factory
  | literal .. => []
  | not _ p => [p.factory]
  | connective _ _ p q => [p.factory, q.factory]
  | junction _ _ ps => ps.map Pred.factory
  | comparison _ _ l r => [l.factory, r.factory]
  | partition _ es => es.map Expr.factory
  | quantified _ _ _ p => [p.factory]
  | extended _ _ es ps => es.map Expr.factory ++ ps.map Pred.factory

end Pred

namespace Build

/-- Adds an expression node over the given parts. -/
def expr (f : Factory) (make : Node → Expr) : Build Expr := do
  let e := make ⟨f, ← typeSlot none⟩
  requireFactory f e.partFactories
  match e.synthesized? (← get) with
  | .ok (some t) => modify (·.put e.node.slot t)
  | .ok none => pure ()
  | .error m => throw m
  return e

/-- Adds a predicate node over the given parts. -/
def pred (f : Factory) (make : Node → Pred) : Build Pred := do
  let p := make ⟨f, ← markSlot⟩
  requireFactory f p.partFactories
  match p.synthesized (← get) with
  | .ok true => modify (·.mark p.node.slot)
  | .ok false => pure ()
  | .error m => throw m
  return p

def lift {α : Type} (x : Except Misuse α) : Build α :=
  match x with
  | .ok a => return a
  | .error m => throw m

end Build

namespace Factory

def free (f : Factory) (name : String) (t : Option Ty) : Build Expr := Build.expr f (.free · name t)

def bound (f : Factory) (index : Nat) (t : Option Ty) : Build Expr :=
  Build.expr f (.bound · index t)

def atom (f : Factory) (a : Atom) (t : Option Ty) : Build Expr := Build.expr f (.atom · a t)

def binary (f : Factory) (op : BinaryOp) (l r : Expr) : Build Expr :=
  Build.expr f (.binary · op l r)

def unary (f : Factory) (op : UnaryOp) (a : Expr) : Build Expr := Build.expr f (.unary · op a)

def assoc (f : Factory) (op : AssocOp) (es : List Expr) : Build Expr := do
  Build.require (2 ≤ es.length) .tooFewExpressions
  Build.expr f (.assoc · op es)

def set (f : Factory) (members : List Expr) (t : Option Ty) : Build Expr :=
  Build.expr f (.set · members t)

def bool (f : Factory) (p : Pred) : Build Expr := Build.expr f (.bool · p)

def quantifiedExpr (f : Factory) (op : SetBinder) (ds : List Declaration) (p : Pred) (e : Expr) :
    Build Expr := do
  Build.require (!ds.isEmpty) .noDeclaration
  let ds ← ds.mapM Build.copy
  Build.expr f (.quantified · op ds p e)

def extendedExpr (f : Factory) (ext : Extension) (es : List Expr) (ps : List Pred)
    (t : Option Ty) : Build Expr := do
  Build.lift (f.accept ext .expression es.length ps.length)
  Build.expr f (.extended · ext es ps t)

def literal (f : Factory) (value : Bool) : Build Pred := Build.pred f (.literal · value)

def not (f : Factory) (p : Pred) : Build Pred := Build.pred f (.not · p)

def connective (f : Factory) (op : Connective) (p q : Pred) : Build Pred :=
  Build.pred f (.connective · op p q)

def junction (f : Factory) (op : Junction) (ps : List Pred) : Build Pred := do
  Build.require (2 ≤ ps.length) .tooFewPredicates
  Build.pred f (.junction · op ps)

def comparison (f : Factory) (op : Comparison) (l r : Expr) : Build Pred :=
  Build.pred f (.comparison · op l r)

def partition (f : Factory) (es : List Expr) : Build Pred := do
  Build.require (!es.isEmpty) .emptyPartition
  Build.pred f (.partition · es)

def quantifiedPred (f : Factory) (op : Quantifier) (ds : List Declaration) (p : Pred) :
    Build Pred := do
  Build.require (!ds.isEmpty) .noDeclaration
  let ds ← ds.mapM Build.copy
  Build.pred f (.quantified · op ds p)

def extendedPred (f : Factory) (ext : Extension) (es : List Expr) (ps : List Pred) :
    Build Pred := do
  Build.lift (f.accept ext .predicate es.length ps.length)
  Build.pred f (.extended · ext es ps)

mutual

/-- The expression that denotes a type, as the set of its values. -/
def typeExpr (f : Factory) : Ty → Build Expr
  | .leaf v => nomatch v
  | .boolean => f.atom .boolSet none
  | .given s => f.free s (some (Ty.givenSet s))
  | .power a => do f.unary .pow (← f.typeExpr a)
  | .product a b => do f.binary .cprod (← f.typeExpr a) (← f.typeExpr b)
  | .data d as => do
    let ext ← Build.lift (f.typeConstructor d)
    f.extendedExpr ext (← f.typeExprs as) [] none

def typeExprs (f : Factory) : List Ty → Build (List Expr)
  | [] => return []
  | a :: as => do return (← f.typeExpr a) :: (← f.typeExprs as)

end

end Factory

namespace ArgTy

mutual

/-- The set of the values of an argument type whose parameters lie in given sets, where `own` is the
set of the values of the datatype itself. -/
def setExpr (f : Factory) (sets : List Expr) (own : Expr) : ArgTy → Build Expr
  | .leaf (.param i) =>
    match sets[i]? with
    | some e => return e
    | none => throw .indexOutOfRange
  | .leaf .self => return own
  | .boolean => f.atom .boolSet none
  | .given s => f.typeExpr (.given s)
  | .power a => do f.unary .pow (← setExpr f sets own a)
  | .product a b => do f.binary .cprod (← setExpr f sets own a) (← setExpr f sets own b)
  | .data d as => do
    let es ← setExprs f sets own as
    let ext ← Build.lift (f.typeConstructor d)
    f.extendedExpr ext es [] none

def setExprs (f : Factory) (sets : List Expr) (own : Expr) : List ArgTy → Build (List Expr)
  | [] => return []
  | a :: as => do return (← setExpr f sets own a) :: (← setExprs f sets own as)

end

end ArgTy
end SetLang
