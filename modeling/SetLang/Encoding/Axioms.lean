import SetLang.Encoding.Formulas

/-! Axioms of representations. Constructors are injective, and bijective when there is only one;
destructors undo them; the type is partitioned into the values of the constructors; and the set
constructor maps sets of parameter values to the set of all values built from their members. -/

namespace SetLang

namespace Factory

def member (f : Factory) (element : Expr) (op : BinaryOp) (domain range : Expr) : Build Pred := do
  f.comparison .mem element (← f.binary op domain range)

def singleton (f : Factory) (e : Expr) : Build Expr := f.set [e] none

end Factory

namespace ConstructorImage

def hasArguments (c : ConstructorImage) : Bool := !c.argTypes.isEmpty

def values (f : Factory) (c : ConstructorImage) : Build Expr :=
  if c.hasArguments then f.unary .ran c.function else f.singleton c.function

/-- The axioms of a constructor with arguments: its type, those of its destructors, and that the
destructors together are its converse. -/
def axioms (f : Factory) (single : Bool) (typeExpr : Expr) (c : ConstructorImage) :
    Build (List Pred) := do
  match Ty.productOf? c.argTypes with
  | none => return []
  | some domain =>
    let kind := if single then BinaryOp.tbij else .tinj
    let typing ← f.member c.function kind (← f.typeExpr domain) typeExpr
    let destructors ← (c.destructors.zip c.argTypes).mapM fun (d, t) => do
      f.member d .tsur (← c.values f) (← f.typeExpr t)
    match ← f.combine? .dprod c.destructors with
    | some product =>
      let inverse ← f.comparison .eq product (← f.unary .converse c.function)
      return typing :: destructors ++ [inverse]
    | none => return typing :: destructors

end ConstructorImage

namespace Representation

def isSingle (r : Representation) : Bool := r.constructors.length == 1

def setConstructorTyping (f : Factory) (r : Representation) : Build (List Pred) :=
  match r.setConstructor, Ty.productOf? r.params with
  | some set, some params => do return [← f.member set .strel (← f.typeExpr params) r.typeExpr]
  | _, _ => return []

/-- That every value is built by exactly one constructor; a single constructor with arguments is a
bijection and needs no such axiom. -/
def partitionAxiom (f : Factory) (r : Representation) : Build (List Pred) := do
  if r.isSingle && r.constructors.all (·.hasArguments) then return []
  let parts ← r.constructors.mapM (·.values f)
  return [← f.partition (r.typeExpr :: parts)]

/-- The values that a constructor builds from the members of given sets. Sets for the arguments are
formed in the source language and encoded. -/
def builtFrom (source target : Factory) (subsets : List Expr) (own : Expr) (c : Constructor)
    (image : ConstructorImage) : Encode Expr := do
  if c.arguments.isEmpty then liftM (target.singleton image.function)
  else
    let sets ← c.arguments.mapM fun a => do
      let set ← liftM (ArgTy.setExpr source subsets own a.type)
      Encode.expr set
    liftM (target.image image.function sets)

def imagePartition (r : Representation) (set : Expr) : Encode Pred := do
  let t ← Encode.current
  let d := r.source.datatype
  let n := r.source.args.length
  let subsets ← r.source.args.zipIdx.mapM fun (arg, i) =>
    liftM (t.source.bound (n - 1 - i) (some (.power arg)))
  let ext ← liftM (Build.lift (t.source.typeConstructor d))
  let own ← liftM (t.source.extendedExpr ext subsets [] none)
  let encoded ← subsets.mapM Encode.expr
  let whole ← liftM (t.target.image set encoded)
  let parts ← (d.constructors.zip r.constructors).mapM fun (c, image) =>
    builtFrom t.source t.target subsets own c image
  let decls ← (d.params.zip r.params).mapM fun (name, param) =>
    liftM (Build.declare name (some (.power param)))
  let body ← liftM (t.target.partition (whole :: parts))
  liftM (t.target.quantifiedPred .all decls body)

def setConstructorDefinition (r : Representation) : Encode (List Pred) :=
  match r.setConstructor with
  | some set => do return [← r.imagePartition set]
  | none => return []

def axioms (r : Representation) : Encode (List Pred) := do
  let f ← Encode.target
  let typing ← liftM (r.setConstructorTyping f)
  let constructors ← r.constructors.mapM fun c => liftM (c.axioms f r.isSingle r.typeExpr)
  let partition ← liftM (r.partitionAxiom f)
  let definition ← r.setConstructorDefinition
  return typing ++ constructors.flatten ++ partition ++ definition

end Representation

namespace Encode

/-- The axioms of all representations. They mention no other instance than those that were
represented with their own, so that no representation comes up meanwhile. -/
def axioms : Encode (List Pred) := do
  return (← (← current).representations.mapM (·.axioms)).flatten

end Encode
end SetLang
