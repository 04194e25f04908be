import SetLang.Formula

/-! Structural equality. Two formulas are equal when they are built in the same way from the same
names; types, slots and factories do not count, and extensions are compared by id. -/

namespace SetLang

namespace Declaration

def sameNames : List Declaration → List Declaration → Bool
  | [], [] => true
  | d :: ds, e :: es => d.name == e.name && sameNames ds es
  | _, _ => false

end Declaration

mutual

def Expr.same : Expr → Expr → Bool
  | .binary _ op l r, .binary _ op' l' r' => op == op' && l.same l' && r.same r'
  | .unary _ op a, .unary _ op' a' => op == op' && a.same a'
  | .assoc _ op es, .assoc _ op' es' => op == op' && Expr.sameAll es es'
  | .atom _ a _, .atom _ a' _ => a == a'
  | .set _ es _, .set _ es' _ => Expr.sameAll es es'
  | .bool _ p, .bool _ p' => p.same p'
  | .quantified _ op ds p e, .quantified _ op' ds' p' e' =>
    op == op' && Declaration.sameNames ds ds' && p.same p' && e.same e'
  | .bound _ i _, .bound _ i' _ => i == i'
  | .free _ x _, .free _ x' _ => x == x'
  | .extended _ f es ps _, .extended _ f' es' ps' _ =>
    f == f' && Expr.sameAll es es' && Pred.sameAll ps ps'
  | _, _ => false
termination_by structural e => e

def Expr.sameAll : List Expr → List Expr → Bool
  | [], [] => true
  | e :: es, e' :: es' => e.same e' && Expr.sameAll es es'
  | _, _ => false
termination_by structural es => es

def Pred.same : Pred → Pred → Bool
  | .literal _ b, .literal _ b' => b == b'
  | .not _ p, .not _ p' => p.same p'
  | .connective _ op p q, .connective _ op' p' q' => op == op' && p.same p' && q.same q'
  | .junction _ op ps, .junction _ op' ps' => op == op' && Pred.sameAll ps ps'
  | .comparison _ op l r, .comparison _ op' l' r' => op == op' && l.same l' && r.same r'
  | .partition _ es, .partition _ es' => Expr.sameAll es es'
  | .quantified _ op ds p, .quantified _ op' ds' p' =>
    op == op' && Declaration.sameNames ds ds' && p.same p'
  | .extended _ f es ps, .extended _ f' es' ps' =>
    f == f' && Expr.sameAll es es' && Pred.sameAll ps ps'
  | _, _ => false
termination_by structural p => p

def Pred.sameAll : List Pred → List Pred → Bool
  | [], [] => true
  | p :: ps, p' :: ps' => p.same p' && Pred.sameAll ps ps'
  | _, _ => false
termination_by structural ps => ps

end

namespace Assigned

def same : Assigned → Assigned → Bool
  | values es, values es' => Expr.sameAll es es'
  | member e, member e' => e.same e'
  | such ds p, such ds' p' => Declaration.sameNames ds ds' && p.same p'
  | _, _ => false

end Assigned

namespace Formula

def same : Formula → Formula → Bool
  | expr e, expr e' => e.same e'
  | pred p, pred p' => p.same p'
  | assignment a, assignment a' => Expr.sameAll a.targets a'.targets && a.assigned.same a'.assigned
  | decl d, decl d' => d.name == d'.name
  | _, _ => false

end Formula
end SetLang
