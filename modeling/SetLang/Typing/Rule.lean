import SetLang.Formula
import SetLang.Unifier

/-! Typing rules. The rule of a node takes the terms of its expression children, those of its
declarations first, adds equations to the solver and gives the term of the node. -/

namespace SetLang

/-- A relation type over two new variables, with its two component types. -/
def Solve.relation : Solve (TyTerm × TyTerm × TyTerm) := do
  let s ← Solve.fresh
  let t ← Solve.fresh
  return (s, t, .relation s t)

def Solve.set : Solve TyTerm := return .power (← Solve.fresh)

open Solve (fresh relation unify)

namespace BinaryOp

def rule (op : BinaryOp) (a b : TyTerm) : Solve TyTerm :=
  match op with
  | maplet => return .product a b
  | funImage => do
    let (s, t, r) ← relation
    unify a r
    unify b s
    return t
  | relImage => do
    let (s, t, r) ← relation
    unify a r
    unify b (.power s)
    return .power t
  | cprod => do
    let (s, t, r) ← relation
    unify a (.power s)
    unify b (.power t)
    return r
  | dprod => do
    let (s, t, r) ← relation
    let u ← fresh
    unify a r
    unify b (.relation s u)
    return .relation s (.product t u)
  | rel | tfun | tinj | tsur | tbij | strel => do
    let (s, t, r) ← relation
    unify a (.power s)
    unify b (.power t)
    return .power r
  | setminus => do
    let set ← Solve.set
    unify a set
    unify b set
    return set
  | domres => do
    let (s, _, r) ← relation
    unify a (.power s)
    unify b r
    return r

end BinaryOp

namespace UnaryOp

def rule (op : UnaryOp) (a : TyTerm) : Solve TyTerm :=
  match op with
  | converse => do
    let (s, t, r) ← relation
    unify a r
    return .relation t s
  | dom => do
    let (s, _, r) ← relation
    unify a r
    return .power s
  | ran => do
    let (_, t, r) ← relation
    unify a r
    return .power t
  | pow => do
    let set ← Solve.set
    unify a set
    return .power set

end UnaryOp

namespace AssocOp

/-- The type that all operands and the result have. -/
def operand : AssocOp → Solve TyTerm
  | union | inter => Solve.set
  | ovr => return (← relation).2.2

def rule (op : AssocOp) (terms : List TyTerm) : Solve TyTerm := do
  let expected ← op.operand
  terms.forM (unify · expected)
  return expected

end AssocOp

namespace Atom

def rule : Atom → Solve TyTerm
  | emptySet => Solve.set
  | boolSet => return .power .boolean
  | truth | falsity => return .boolean

end Atom

namespace SetBinder

def rule (op : SetBinder) (body : TyTerm) : Solve TyTerm :=
  match op with
  | comprehension => return .power body
  | union | inter => do
    let set ← Solve.set
    unify body set
    return set

end SetBinder

namespace Comparison

def rule (op : Comparison) (a b : TyTerm) : Solve Unit :=
  match op with
  | eq | ne => unify a b
  | mem | notMem => unify b (.power a)
  | subset | subsetEq | notSubset | notSubsetEq => do
    let set ← Solve.set
    unify a set
    unify b set

end Comparison

namespace Extension

/-- Solves the children against their patterns. The last pattern serves all children that have none
of their own; where there is no pattern at all, nothing is required. -/
def matchPatterns : List TyTerm → List TyTerm → Solve.Renaming → Solve Solve.Renaming
  | [], _, r => return r
  | _ :: _, [], r => return r
  | term :: terms, pattern :: patterns, r => do
    let (expected, r) ← Solve.instantiateWith pattern r
    unify term expected
    matchPatterns terms (if patterns.isEmpty then [pattern] else patterns) r

def matchArguments (params : List TyTerm) (own : TyTerm) : List TyTerm → List Argument → Solve Unit
  | term :: terms, a :: arguments => do
    match ArgTy.instantiate? a.type params own with
    | some expected => unify term expected
    | none => throw (.misuse .indexOutOfRange)
    matchArguments params own terms arguments
  | _, _ => return

def datatypeRule (d : Datatype) (role : DatatypeRole) (terms : List TyTerm) : Solve TyTerm := do
  let params ← d.params.mapM fun _ => fresh
  let own : TyTerm := .data d params
  match role with
  | .typeConstructor =>
    (terms.zip params).forM fun (term, param) => unify term (.power param)
    return .power own
  | .constructor index =>
    let some c := d.constructors[index]? | throw (.misuse .indexOutOfRange)
    matchArguments params own terms c.arguments
    return own
  | .destructor index argument =>
    let some term := terms.head? | throw (.misuse .indexOutOfRange)
    unify term own
    let some a := (d.constructors[index]?).bind (·.arguments[argument]?)
      | throw (.misuse .indexOutOfRange)
    match ArgTy.instantiate? a.type params own with
    | some result => return result
    | none => throw (.misuse .indexOutOfRange)

def rule (e : Extension) (terms : List TyTerm) : Solve (Option TyTerm) :=
  match e.typing with
  | .rule args result => do
    let r ← matchPatterns terms args []
    match result with
    | some result => return some (← Solve.instantiateWith result r).1
    | none => return none
  | .ofDatatype d role => return some (← datatypeRule d role terms)

end Extension

namespace Expr

/-- The rule of an expression. Identifiers may have any type. -/
def rule : Expr → List TyTerm → Solve TyTerm
  | binary _ op _ _, [a, b] => op.rule a b
  | unary _ op _, [a] => op.rule a
  | assoc _ op _, terms => op.rule terms
  | atom _ a _, _ => a.rule
  | set _ _ _, terms => do
    let member ← fresh
    terms.forM (unify · member)
    return .power member
  | bool _ _, _ => return .boolean
  | quantified _ op _ _ _, terms =>
    match terms.getLast? with
    | some body => op.rule body
    | none => throw (.misuse .indexOutOfRange)
  | bound _ _ _, _ | free _ _ _, _ => fresh
  | extended _ e _ _ _, terms => do
    match ← e.rule terms with
    | some result => return result
    | none => fresh
  | _, _ => throw (.misuse .indexOutOfRange)

end Expr

namespace Pred

def rule : Pred → List TyTerm → Solve Unit
  | comparison _ op _ _, [a, b] => op.rule a b
  | comparison _ _ _ _, _ => throw (.misuse .indexOutOfRange)
  | partition _ _, terms => do
    let set ← Solve.set
    terms.forM (unify · set)
  | extended _ e _ _, terms => do
    let _ ← e.rule terms
  | _, _ => return

end Pred

namespace Assigned

/-- Relates the assigned identifiers to the values, to the set or to the primed declarations. -/
def rule : Assigned → List TyTerm → List TyTerm → Solve Unit
  | member _, target :: _, set :: _ => unify set (.power target)
  | member _, _, _ => throw (.misuse .indexOutOfRange)
  | .values _, targets, terms => (targets.zip terms).forM fun (a, b) => unify a b
  | such _ _, targets, primed => (targets.zip primed).forM fun (a, b) => unify a b

end Assigned
end SetLang
