import SetLang.Names

/-! Operator grammars. A grammar says which operators may follow one another without parentheses
and how a sequence of operators and operands is shaped into a tree. It is written as declarations,
a `GrammarDraft`, and frozen into a `Grammar` whose priorities are closed under chains. -/

namespace SetLang

/-- The nodes that an operator builds: with two children, or with two and more. -/
inductive OperatorShape where
  | binary
  | associative
deriving DecidableEq, Inhabited

inductive GrammarError where
  | illegalJuxtaposition (left right : String)
  | invalidConfiguration (reason : String)
  | unknownOperator (id : String)
deriving DecidableEq

namespace GrammarError

def message : GrammarError → String
  | illegalJuxtaposition l r => s!"operators {l} and {r} require parentheses"
  | invalidConfiguration reason => s!"invalid extension configuration: {reason}"
  | unknownOperator id => s!"unknown operator {id}"

end GrammarError

/-- Declared operators, the latest declaration first, with pairs of a lower and a higher operator,
pairs of operators of which the second may follow the first, and the operators that flatten. -/
structure GrammarDraft where
  shapes : List (String × OperatorShape)
  priorities : List (String × String)
  compatibilities : List (String × String)
  flattening : List String

/-- Operators with the operators that come higher than each. -/
abbrev Priorities := List (String × Names)

namespace Priorities

def above (p : Priorities) (lower : String) : Names := (p.lookup lower).getD []

def ofPairs (pairs : List (String × String)) : Priorities :=
  (pairs.map (·.1)).eraseDups.map fun lower =>
    (lower, .ofList ((pairs.filter (·.1 == lower)).map (·.2)))

/-- Puts all that comes higher than `pivot` above the operators that are lower than `pivot`. -/
def chainThrough (p : Priorities) (pivot : String) : Priorities :=
  p.map fun (lower, higher) =>
    (lower, if higher.contains pivot then higher.insertAll (p.above pivot) else higher)

def closure (p : Priorities) : Priorities := (p.map (·.1)).foldl chainThrough p

/-- The first operator, in the order of names, that comes higher than itself. -/
def firstCyclic? (p : Priorities) : Option String :=
  (Names.ofList ((p.filter fun (op, higher) => higher.contains op).map (·.1))).head?

end Priorities

/-- A grammar whose priorities are closed under chains. -/
structure Grammar where
  shapes : List (String × OperatorShape)
  priorities : Priorities
  compatibilities : List (String × String)
  flattening : List String

instance : Inhabited GrammarDraft := ⟨⟨[], [], [], []⟩⟩

/-- How `a left b right c` is shaped: as `a left (b right c)`, as `(a left b) right c`, or as one
node with three children. -/
inductive Juxtaposition where
  | leftParent
  | rightParent
  | flatten
deriving DecidableEq, Inhabited

namespace GrammarDraft

def empty : GrammarDraft := default

def shape? (g : GrammarDraft) (id : String) : Option OperatorShape := g.shapes.lookup id

def require (g : GrammarDraft) (id : String) : Except GrammarError OperatorShape :=
  match g.shape? id with
  | some shape => .ok shape
  | none => .error (.unknownOperator id)

def declare (g : GrammarDraft) (id : String) (shape : OperatorShape) : GrammarDraft :=
  { g with shapes := (id, shape) :: g.shapes }

/-- Makes `lower` the parent of `higher` wherever they meet. -/
def addPriority (g : GrammarDraft) (lower higher : String) : Except GrammarError GrammarDraft := do
  let _ ← g.require lower
  let _ ← g.require higher
  if lower = higher then
    throw (.invalidConfiguration s!"operator {lower} cannot have a priority over itself")
  return { g with priorities := g.priorities.insert (lower, higher) }

def addCompatibility (g : GrammarDraft) (left right : String) :
    Except GrammarError GrammarDraft := do
  let _ ← g.require left
  let _ ← g.require right
  return { g with compatibilities := g.compatibilities.insert (left, right) }

def addFlattening (g : GrammarDraft) (id : String) : Except GrammarError GrammarDraft := do
  match ← g.require id with
  | .associative => return { g with flattening := g.flattening.insert id }
  | .binary => throw (.invalidConfiguration s!"operator {id} is binary and cannot be associative")

def build (g : GrammarDraft) : Except GrammarError Grammar :=
  let closed := (Priorities.ofPairs g.priorities).closure
  match closed.firstCyclic? with
  | some op => .error (.invalidConfiguration s!"cyclic priorities through operator {op}")
  | none => .ok ⟨g.shapes, closed, g.compatibilities, g.flattening⟩

end GrammarDraft

namespace Grammar

def shape? (g : Grammar) (id : String) : Option OperatorShape := g.shapes.lookup id

def isDeclared (g : Grammar) (id : String) : Bool := (g.shape? id).isSome

def flattens (g : Grammar) (id : String) : Bool := g.flattening.contains id

def hasPriority (g : Grammar) (lower higher : String) : Bool :=
  (g.priorities.above lower).contains higher

def isCompatible (g : Grammar) (left right : String) : Bool :=
  g.compatibilities.contains (left, right)

/-- Decides how two operators in a row are shaped. -/
def juxtapose (g : Grammar) (left right : String) : Except GrammarError Juxtaposition :=
  if !g.isDeclared left then .error (.unknownOperator left)
  else if !g.isDeclared right then .error (.unknownOperator right)
  else if g.hasPriority left right then .ok .leftParent
  else if g.hasPriority right left then .ok .rightParent
  else if left = right ∧ g.flattens left then .ok .flatten
  else if g.isCompatible left right then .ok .leftParent
  else .error (.illegalJuxtaposition left right)

end Grammar
end SetLang
