import SetLang.Formula

/-! The text of formulas. An operand is parenthesised when it is written with an operator between
parts or as a quantified union or intersection; an operand of a logical connective, when it is a
connective or a quantifier itself. A bound identifier is written as the name of its declaration, or
as its index in brackets when its declaration is not part of the text. -/

namespace SetLang

def parenthesise (needed : Bool) (s : String) : String := if needed then "(" ++ s ++ ")" else s

def commaSeparated (ss : List String) : String := ", ".intercalate ss

namespace UnaryOp

/-- The text of an application, from the text of the argument. -/
def wrap : UnaryOp → String → String
  | converse, s => s ++ "∼"
  | dom, s => "dom(" ++ s ++ ")"
  | ran, s => "ran(" ++ s ++ ")"
  | pow, s => "ℙ(" ++ s ++ ")"

end UnaryOp

namespace Atom

def text : Atom → String
  | emptySet => "∅"
  | boolSet => "BOOL"
  | truth => "TRUE"
  | falsity => "FALSE"

end Atom

namespace SetBinder

def wrap (op : SetBinder) (names condition body : String) : String :=
  let inner := names ++ "·" ++ condition ++ " ∣ " ++ body
  match op with
  | comprehension => "\x7b" ++ inner ++ "\x7d"
  | union => "⋃" ++ inner
  | inter => "⋂" ++ inner

end SetBinder

namespace Declaration

/-- The names that declarations bring into scope, innermost first. -/
def scope (ds : List Declaration) (outer : List String) : List String :=
  (ds.map (·.name)).reverse ++ outer

def names (ds : List Declaration) : String := ",".intercalate (ds.map (·.name))

end Declaration

/-- The text of a bound identifier among names in scope, innermost first. -/
def boundText (scope : List String) (index : Nat) : String :=
  match scope[index]? with
  | some x => x
  | none => s!"[{index}]"

namespace Expr

/-- Whether an expression is parenthesised as an operand. -/
def isCompound : Expr → Bool
  | binary _ op _ _ => op.isBetween
  | assoc .. => true
  | quantified _ op .. => op ≠ .comprehension
  | extended _ e .. => e.form ≠ .application
  | _ => false

end Expr

namespace Pred

/-- Whether a predicate is parenthesised as an operand of a connective. -/
def isCompound : Pred → Bool
  | connective .. | junction .. | quantified .. => true
  | _ => false

end Pred

namespace Extension

/-- The text of an application to the texts of all children. -/
def applied (e : Extension) (children : List String) : String :=
  if children.isEmpty then e.symbol else e.symbol ++ "(" ++ commaSeparated children ++ ")"

/-- The text of an operator between the texts of its operands. -/
def between (e : Extension) (operands : List String) : String :=
  (" " ++ e.symbol ++ " ").intercalate operands

end Extension

mutual

def Expr.textIn (scope : List String) : Expr → String
  | .binary _ .funImage f x =>
    parenthesise f.isCompound (f.textIn scope) ++ "(" ++ x.textIn scope ++ ")"
  | .binary _ .relImage r s =>
    parenthesise r.isCompound (r.textIn scope) ++ "[" ++ s.textIn scope ++ "]"
  | .binary _ op l r =>
    parenthesise l.isCompound (l.textIn scope) ++ " " ++ op.symbol ++ " "
      ++ parenthesise r.isCompound (r.textIn scope)
  | .unary _ op a => op.wrap (parenthesise (op = .converse && a.isCompound) (a.textIn scope))
  | .assoc _ op es => (" " ++ op.symbol ++ " ").intercalate (Expr.operandTexts scope es)
  | .atom _ a _ => a.text
  | .set _ es _ => "\x7b" ++ commaSeparated (Expr.texts scope es) ++ "\x7d"
  | .bool _ p => "bool(" ++ p.textIn scope ++ ")"
  | .quantified _ op ds p e =>
    let inner := Declaration.scope ds scope
    op.wrap (Declaration.names ds) (p.textIn inner) (e.textIn inner)
  | .bound _ i _ => boundText scope i
  | .free _ x _ => x
  | .extended _ ext es ps _ =>
    match ext.form with
    | .application => ext.applied (Expr.texts scope es ++ Pred.texts scope ps)
    | .binary | .associative => ext.between (Expr.operandTexts scope es)

def Expr.texts (scope : List String) : List Expr → List String
  | [] => []
  | e :: es => e.textIn scope :: Expr.texts scope es

def Expr.operandTexts (scope : List String) : List Expr → List String
  | [] => []
  | e :: es => parenthesise e.isCompound (e.textIn scope) :: Expr.operandTexts scope es

def Pred.textIn (scope : List String) : Pred → String
  | .literal _ true => "⊤"
  | .literal _ false => "⊥"
  | .not _ p => "¬" ++ parenthesise p.isCompound (p.textIn scope)
  | .connective _ op p q =>
    parenthesise p.isCompound (p.textIn scope) ++ " " ++ op.symbol ++ " "
      ++ parenthesise q.isCompound (q.textIn scope)
  | .junction _ op ps => (" " ++ op.symbol ++ " ").intercalate (Pred.operandTexts scope ps)
  | .comparison _ op l r => l.textIn scope ++ " " ++ op.symbol ++ " " ++ r.textIn scope
  | .partition _ es => "partition(" ++ commaSeparated (Expr.texts scope es) ++ ")"
  | .quantified _ op ds p =>
    op.symbol ++ Declaration.names ds ++ "·" ++ p.textIn (Declaration.scope ds scope)
  | .extended _ ext es ps =>
    match ext.form with
    | .application => ext.applied (Expr.texts scope es ++ Pred.texts scope ps)
    | .binary | .associative => ext.between (Expr.operandTexts scope es)

def Pred.texts (scope : List String) : List Pred → List String
  | [] => []
  | p :: ps => p.textIn scope :: Pred.texts scope ps

def Pred.operandTexts (scope : List String) : List Pred → List String
  | [] => []
  | p :: ps => parenthesise p.isCompound (p.textIn scope) :: Pred.operandTexts scope ps

end

namespace Expr

def text (e : Expr) : String := e.textIn []

end Expr

namespace Pred

def text (p : Pred) : String := p.textIn []

end Pred

namespace Assigned

def text : Assigned → String
  | values es => " ≔ " ++ commaSeparated (es.map Expr.text)
  | member e => " :∈ " ++ e.text
  | such ds p => " :∣ " ++ p.textIn (Declaration.scope ds [])

end Assigned

namespace Assignment

def text (a : Assignment) : String := commaSeparated (a.targets.map Expr.text) ++ a.assigned.text

end Assignment

namespace Formula

def text : Formula → String
  | expr e => e.text
  | pred p => p.text
  | assignment a => a.text
  | decl d => d.name

end Formula
end SetLang
