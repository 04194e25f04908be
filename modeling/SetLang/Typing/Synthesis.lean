import SetLang.Store
import SetLang.Typing.Rule

/-! Types at construction. A new node whose parts are all typed is typed by its rule and the type
given to it, when that leaves exactly one type. -/

namespace SetLang

namespace Store

def terms? (s : Store) (es : List Expr) : Option (List TyTerm) :=
  es.mapM fun e => (e.type? s).map Ty.toTerm

def declTerms? (s : Store) (ds : List Declaration) : Option (List TyTerm) :=
  ds.mapM fun d => (d.type? s).map Ty.toTerm

/-- The terms, provided that the predicates are typed. -/
def given? (s : Store) (ps : List Pred) (terms : Option (List TyTerm)) : Option (List TyTerm) :=
  if ps.all (·.isTyped s) then terms else none

end Store

/-- The answer of a solver that starts empty; `none` when it reports an error. -/
def Solve.answer? {α : Type} (x : Solve α) : Except Misuse (Option α) :=
  match (x.run Unifier.empty).1 with
  | .ok a => .ok (some a)
  | .error (.error _) => .ok none
  | .error (.misuse m) => .error m

namespace Expr

/-- The terms that the rule of an expression needs, if its parts are typed. -/
def partTerms? (s : Store) : Expr → Option (List TyTerm)
  | binary _ _ l r => s.terms? [l, r]
  | unary _ _ a => s.terms? [a]
  | assoc _ _ es | set _ es _ => s.terms? es
  | atom .. | bound .. | free .. => some []
  | bool _ p => s.given? [p] (some [])
  | quantified _ _ ds p e =>
    s.given? [p] ((· ++ ·) <$> s.declTerms? ds <*> s.terms? [e])
  | extended _ _ es ps _ => s.given? ps (s.terms? es)

def synthesize (e : Expr) (terms : List TyTerm) : Solve Ty := do
  let result ← e.rule terms
  if let some t := e.explicit? then Solve.unify result (Ty.toTerm t)
  Solve.solve result

def synthesized? (s : Store) (e : Expr) : Except Misuse (Option Ty) :=
  match e.partTerms? s with
  | some terms => (e.synthesize terms).answer?
  | none => .ok none

end Expr

namespace Pred

def partTerms? (s : Store) : Pred → Option (List TyTerm)
  | literal .. => some []
  | not _ p => s.given? [p] (some [])
  | connective _ _ p q => s.given? [p, q] (some [])
  | junction _ _ ps => s.given? ps (some [])
  | comparison _ _ l r => s.terms? [l, r]
  | partition _ es => s.terms? es
  | quantified _ _ ds p => s.given? [p] ((s.declTerms? ds).map fun _ => [])
  | extended _ _ es ps => s.given? ps (s.terms? es)

def synthesized (s : Store) (p : Pred) : Except Misuse Bool :=
  match p.partTerms? s with
  | some terms => Option.isSome <$> (p.rule terms).answer?
  | none => .ok false

end Pred

namespace Assigned

def partTerms? (s : Store) : Assigned → Option (List TyTerm)
  | values es => s.terms? es
  | member e => s.terms? [e]
  | such ds p => s.given? [p] (s.declTerms? ds)

end Assigned

namespace Assignment

def synthesized (s : Store) (a : Assignment) : Except Misuse Bool :=
  match s.terms? a.targets, a.assigned.partTerms? s with
  | some targets, some assigned => Option.isSome <$> (a.assigned.rule targets assigned).answer?
  | _, _ => .ok false

end Assignment
end SetLang
