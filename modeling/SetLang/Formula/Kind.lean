import SetLang.Store

/-! The kinds of nodes, by name, and the selection of nodes by kind and by whether they are
typed. -/

namespace SetLang

namespace Expr

def kindName : Expr → String
  | binary .. => "binary"
  | unary .. => "unary"
  | assoc .. => "associative"
  | atom .. => "atomic"
  | set .. => "set"
  | bool .. => "bool"
  | quantified .. => "quantified"
  | bound .. => "bound"
  | free .. => "free"
  | extended .. => "extended"

end Expr

namespace Pred

def kindName : Pred → String
  | literal .. => "literal"
  | not .. => "not"
  | connective .. => "connective"
  | junction .. => "junction"
  | comparison .. => "relational"
  | partition .. => "multiple"
  | quantified .. => "quantifier"
  | extended .. => "predicate-extended"

end Pred

namespace Formula

def kindName : Formula → String
  | expr e => e.kindName
  | pred p => p.kindName
  | assignment _ => "assignment"
  | decl _ => "declaration"

/-- Whether a selector applies to a node: the name of its kind, `typed` or `untyped`. -/
def isSelected (s : Store) (f : Formula) (selector : String) : Bool :=
  selector == f.kindName || (selector == "typed" && f.isTyped s)
    || (selector == "untyped" && !f.isTyped s)

def isAny (s : Store) (selectors : List String) (f : Formula) : Bool :=
  selectors.any (f.isSelected s)

end Formula
end SetLang
