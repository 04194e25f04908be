import SetLang.Grammar
import SetLang.Operator

/-! The grammar of the core operators. From the lowest priority to the highest come maplets, the
sets of relations and the other operators on sets; implication and equivalence come before
conjunction and disjunction. The sets of relations may follow one another. -/

namespace SetLang

namespace GrammarDraft

def relationSetIds : List String := BinaryOp.relationSets.map BinaryOp.id

def setOperatorIds : List String :=
  AssocOp.all.map AssocOp.id ++ [BinaryOp.setminus, .cprod, .dprod, .domres].map BinaryOp.id

def pairs (lower higher : List String) : List (String × String) :=
  lower.flatMap fun l => higher.map fun h => (l, h)

def coreShapes : List (String × OperatorShape) :=
  ((BinaryOp.all.filter BinaryOp.isBetween).map BinaryOp.id ++ Connective.all.map Connective.id).map
      (·, .binary)
    ++ (AssocOp.all.map AssocOp.id ++ Junction.all.map Junction.id).map (·, .associative)

def corePriorities : List (String × String) :=
  pairs [BinaryOp.maplet.id] (relationSetIds ++ setOperatorIds)
    ++ pairs relationSetIds setOperatorIds
    ++ pairs (Connective.all.map Connective.id) (Junction.all.map Junction.id)

/-- The declarations of the core operators. -/
def core : GrammarDraft where
  shapes := coreShapes
  priorities := corePriorities
  compatibilities := pairs relationSetIds relationSetIds
  flattening := AssocOp.all.map AssocOp.id ++ Junction.all.map Junction.id

end GrammarDraft
end SetLang
