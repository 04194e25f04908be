/-! The core operators of the language. Operators that are written between their operands have an
identifier in the operator grammar and a symbol. -/

namespace SetLang

/-- Binary operators on expressions. -/
inductive BinaryOp where
  | maplet
  | funImage
  | relImage
  | cprod
  | dprod
  | rel
  | tfun
  | tinj
  | tsur
  | tbij
  | strel
  | setminus
  | domres
deriving DecidableEq, Inhabited

namespace BinaryOp

def all : List BinaryOp :=
  [maplet, funImage, relImage, cprod, dprod, rel, tfun, tinj, tsur, tbij, strel, setminus, domres]

def id : BinaryOp → String
  | maplet => "mapsto"
  | funImage => "funimage"
  | relImage => "relimage"
  | cprod => "cprod"
  | dprod => "dprod"
  | rel => "rel"
  | tfun => "tfun"
  | tinj => "tinj"
  | tsur => "tsur"
  | tbij => "tbij"
  | strel => "strel"
  | setminus => "setminus"
  | domres => "domres"

/-- Whether the operator is written between its operands. -/
def isBetween : BinaryOp → Bool
  | funImage | relImage => false
  | _ => true

/-- The symbol between the operands. -/
def symbol : BinaryOp → String
  | maplet => "↦"
  | funImage | relImage => ""
  | cprod => "×"
  | dprod => "⊗"
  | rel => "↔"
  | tfun => "→"
  | tinj => "↣"
  | tsur => "↠"
  | tbij => "⤖"
  | strel => "\ue102"
  | setminus => "∖"
  | domres => "◁"

/-- The operators that form sets of relations. -/
def relationSets : List BinaryOp := [rel, tfun, tinj, tsur, tbij, strel]

end BinaryOp

inductive UnaryOp where
  | converse
  | dom
  | ran
  | pow
deriving DecidableEq, Inhabited

/-- Operators on two expressions or more. -/
inductive AssocOp where
  | union
  | inter
  | ovr
deriving DecidableEq, Inhabited

namespace AssocOp

def all : List AssocOp := [union, inter, ovr]

def id : AssocOp → String
  | union => "union"
  | inter => "inter"
  | ovr => "ovr"

def symbol : AssocOp → String
  | union => "∪"
  | inter => "∩"
  | ovr => "\ue103"

end AssocOp

inductive Atom where
  | emptySet
  | boolSet
  | truth
  | falsity
deriving DecidableEq, Inhabited

/-- Set comprehension, quantified union and quantified intersection. -/
inductive SetBinder where
  | comprehension
  | union
  | inter
deriving DecidableEq, Inhabited

/-- Implication and equivalence. -/
inductive Connective where
  | limp
  | leqv
deriving DecidableEq, Inhabited

namespace Connective

def all : List Connective := [limp, leqv]

def id : Connective → String
  | limp => "limp"
  | leqv => "leqv"

def symbol : Connective → String
  | limp => "⇒"
  | leqv => "⇔"

end Connective

/-- Conjunction and disjunction of two predicates or more. -/
inductive Junction where
  | land
  | lor
deriving DecidableEq, Inhabited

namespace Junction

def all : List Junction := [land, lor]

def id : Junction → String
  | land => "land"
  | lor => "lor"

def symbol : Junction → String
  | land => "∧"
  | lor => "∨"

end Junction

/-- Relations between two expressions. -/
inductive Comparison where
  | eq
  | ne
  | mem
  | notMem
  | subset
  | subsetEq
  | notSubset
  | notSubsetEq
deriving DecidableEq, Inhabited

namespace Comparison

def symbol : Comparison → String
  | eq => "="
  | ne => "≠"
  | mem => "∈"
  | notMem => "∉"
  | subset => "⊂"
  | subsetEq => "⊆"
  | notSubset => "⊄"
  | notSubsetEq => "⊈"

end Comparison

inductive Quantifier where
  | all
  | exist
deriving DecidableEq, Inhabited

namespace Quantifier

def symbol : Quantifier → String
  | all => "∀"
  | exist => "∃"

end Quantifier
end SetLang
