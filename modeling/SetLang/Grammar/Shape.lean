import SetLang.Grammar

/-! Shaping a sequence of operands and operators into a tree. The operators read so far that still
wait for their last child form the open nodes along the right edge of the tree, innermost first. -/

namespace SetLang

inductive OpTree (α : Type) where
  | leaf (operand : α)
  | node (op : String) (children : List (OpTree α))

/-- An open node: an operator with all of its children but the last. -/
structure OpenNode (α : Type) where
  op : String
  children : List (OpTree α)

namespace OpenNode

variable {α : Type}

def close (n : OpenNode α) (last : OpTree α) : OpTree α := .node n.op (n.children ++ [last])

end OpenNode

namespace Grammar

variable {α : Type}

def closeBefore (g : Grammar) (op : String) :
    List (OpenNode α) → OpTree α → Except GrammarError (List (OpenNode α) × OpTree α)
  | [], current => .ok ([], current)
  | top :: rest, current => do
    match ← g.juxtapose top.op op with
    | .leftParent | .flatten => return (top :: rest, current)
    | .rightParent => g.closeBefore op rest (top.close current)

/-- Opens a node of `op` on the current tree, or adds the tree to an open node that flattens. -/
def openOn (g : Grammar) (op : String) (spine : List (OpenNode α)) (current : OpTree α) :
    List (OpenNode α) :=
  match spine with
  | top :: rest =>
    if top.op = op ∧ g.flattens op then ⟨top.op, top.children ++ [current]⟩ :: rest
    else ⟨op, [current]⟩ :: spine
  | [] => [⟨op, [current]⟩]

/-- Reads the remaining operators and operands, then closes every open node. -/
def shapeFrom (g : Grammar) :
    List (OpenNode α) → OpTree α → List (String × α) → Except GrammarError (OpTree α)
  | spine, current, [] => .ok (spine.foldl (fun tree n => n.close tree) current)
  | spine, current, (op, operand) :: rest => do
    let (spine, current) ← g.closeBefore op spine current
    g.shapeFrom (g.openOn op spine current) (.leaf operand) rest

def shape (g : Grammar) (first : α) (rest : List (String × α)) :
    Except GrammarError (OpTree α) :=
  match rest.find? (fun p => !g.isDeclared p.1) with
  | some (op, _) => .error (.unknownOperator op)
  | none => g.shapeFrom [] (.leaf first) rest

end Grammar
end SetLang
