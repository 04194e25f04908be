import SetLang.Walk
import SetLang.Formula.Text
import SetLang.Encoding.Types

/-! Encoding of formulas. Types are encoded everywhere; an application of a constructor or a
destructor becomes an application of the function that stands for it, and a datatype applied to sets
becomes the image of these sets, or the whole type where it denotes a type. -/

namespace SetLang

namespace Factory

def combine? (f : Factory) (op : BinaryOp) : List Expr → Build (Option Expr)
  | [] => return none
  | e :: es => some <$> es.foldlM (f.binary op) e

/-- The image of the product of sets under a relation; the relation itself without sets. -/
def image (f : Factory) (relation : Expr) (sets : List Expr) : Build Expr := do
  match ← f.combine? .cprod sets with
  | some product => f.binary .relImage relation product
  | none => return relation

/-- The value of a function for a tuple of arguments; the function itself without arguments. -/
def apply (f : Factory) (function : Expr) (args : List Expr) : Build Expr := do
  match ← f.combine? .maplet args with
  | some tuple => f.binary .funImage function tuple
  | none => return function

end Factory

namespace Representation

def replace (r : Representation) (source : Expr) (ext : Extension) (children : List Expr) :
    Encode Expr := do
  let f ← Encode.target
  match ext.role? with
  | none => Encode.fail (.notADatatype ext.id)
  | some (_, .typeConstructor) =>
    match r.setConstructor with
    | some set =>
      if source.isTypeExpr (← Encode.store) then return r.typeExpr
      else liftM (f.image set children)
    | none => return r.typeExpr
  | some (_, .constructor i) =>
    match r.constructors[i]? with
    | some c => liftM (f.apply c.function children)
    | none => throw (.misuse .indexOutOfRange)
  | some (_, .destructor i j) =>
    match (r.constructors[i]?).bind (·.destructors[j]?) with
    | some d => liftM (f.apply d children)
    | none => throw (.misuse .indexOutOfRange)

end Representation

namespace Encode

def instanceOf? (s : Store) (role : DatatypeRole) (source : Expr) (args : List Expr) :
    Option Instance :=
  match role with
  | .typeConstructor => (source.type? s).bind fun t => (Ty.base? t).bind Ty.instance?
  | .constructor _ => (source.type? s).bind Ty.instance?
  | .destructor _ _ => (args.head?.bind (·.type? s)).bind Ty.instance?

def extended (f : Factory) (source : Expr) (ext : Extension) (es : List Expr) (ps : List Pred)
    (t : Option Ty) : Encode Expr := do
  match ext.role?, source with
  | some (_, role), .extended _ _ args _ _ =>
    match instanceOf? (← store) role source args with
    | some i => (← representation i).replace source ext es
    | none => fail (.notADatatype source.text)
  | _, _ => liftM (f.extendedExpr ext es ps t)

def rebuilder (f : Factory) : Rebuilder Encode :=
  { Rebuilder.copy f type with extended := extended f }

def expr (e : Expr) : Encode Expr := do (rebuilder (← target)).expr (← store) 0 e

/-- Encodes a typed predicate. Its free identifiers are reserved first. -/
def pred (p : Pred) : Encode Pred := do
  if !p.isTyped (← store) then fail (.formula .notTypeChecked)
  reserve (p.freeIdentifiers.filterMap Expr.freeName?)
  (rebuilder (← target)).pred (← store) 0 p

end Encode
end SetLang
