import SetLang.Formula.Text
import SetLang.Store
import SetLang.Ty

/-! Signatures of the occurrences of an extension. Occurrences with the same signature can be
replaced by applications of the same function, whose type is the functional type. -/

namespace SetLang

/-- An extension with the types of its expression children, the number of its predicate children
and, for an expression, its type. -/
structure Signature where
  ext : Extension
  predicates : Nat
  argTypes : List Ty
  result : Option Ty

namespace Signature

def isExpression (s : Signature) : Bool := s.result.isSome

def range (s : Signature) : Ty := s.result.getD .boolean

/-- The type of a function from the children, of which each predicate counts as a truth value, to
the value of the occurrence; that value's type when there is no child. -/
def functionalType (s : Signature) : Ty :=
  match Ty.productOf? (s.argTypes ++ List.replicate s.predicates .boolean) with
  | some domain => .relation domain s.range
  | none => s.range

def same (s t : Signature) : Bool :=
  s.ext == t.ext && s.predicates == t.predicates && s.argTypes == t.argTypes
    && s.result == t.result

def argTypes? (s : Store) (es : List Expr) : Except FormulaError (List Ty) :=
  es.mapM fun e =>
    match e.type? s with
    | some t => .ok t
    | none => .error .notTypeChecked

def ofExpr (s : Store) (e : Expr) : Except FormulaError Signature :=
  match e with
  | .extended n ext es ps _ => do
    match s.type? n.slot with
    | some t => return ⟨ext, ps.length, ← argTypes? s es, some t⟩
    | none => throw .notTypeChecked
  | e => .error (.notExtended e.text)

def ofPred (s : Store) (p : Pred) : Except FormulaError Signature :=
  match p with
  | .extended n ext es ps => do
    if !s.isMarked n.slot then throw .notTypeChecked
    return ⟨ext, ps.length, ← argTypes? s es, none⟩
  | p => .error (.notExtended p.text)

end Signature
end SetLang
