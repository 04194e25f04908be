import SetLang.Formula.Equality
import SetLang.Formula.Parts

/-! Walks over formulas. A walk visits the nodes of a formula in order, each before its children and
from left to right, and collects what an inspector finds. At a node the inspector may leave out the
children, or end the walk, and it may change its own state. -/

namespace SetLang

/-- What an inspector does at a node: findings to add, and whether to leave out the node's children
or all that follows. -/
structure Visit (α : Type) where
  found : List α := []
  skipChildren : Bool := false
  skipAll : Bool := false

/-- Decides on a visit from the findings so far, of which the latest comes first, the position and
the node. -/
abbrev Inspector (α : Type) := List α → Position → Formula → Visit α

/-- Decides by a state of its own as well, and goes on from a new one. -/
abbrev StatefulInspector (σ α : Type) := σ → List α → Position → Formula → Visit α × σ

def Inspector.stateless {α : Type} (visit : Inspector α) : StatefulInspector Unit α :=
  fun _ found p f => (visit found p f, ())

/-- What a walk carries along: the inspector's state, all findings, of which the latest comes first,
and whether the walk was ended. -/
structure Accumulator (σ α : Type) where
  state : σ
  found : List α := []
  skipAll : Bool := false

def Accumulator.after {σ α : Type} (acc : Accumulator σ α) : Visit α × σ → Accumulator σ α
  | (v, state) => ⟨state, v.found.reverse ++ acc.found, acc.skipAll || v.skipAll⟩

mutual

def Expr.size : Expr → Nat
  | .binary _ _ l r => l.size + r.size + 1
  | .unary _ _ a => a.size + 1
  | .assoc _ _ es | .set _ es _ => Expr.sizes es + 1
  | .atom .. | .bound .. | .free .. => 1
  | .bool _ p => p.size + 1
  | .quantified _ _ ds p e => ds.length + (p.size + e.size) + 1
  | .extended _ _ es ps _ => Expr.sizes es + Pred.sizes ps + 1

def Expr.sizes : List Expr → Nat
  | [] => 0
  | e :: es => e.size + Expr.sizes es

def Pred.size : Pred → Nat
  | .literal .. => 1
  | .not _ p => p.size + 1
  | .connective _ _ p q => p.size + q.size + 1
  | .junction _ _ ps => Pred.sizes ps + 1
  | .comparison _ _ l r => l.size + r.size + 1
  | .partition _ es => Expr.sizes es + 1
  | .quantified _ _ ds p => ds.length + p.size + 1
  | .extended _ _ es ps => Expr.sizes es + Pred.sizes ps + 1

def Pred.sizes : List Pred → Nat
  | [] => 0
  | p :: ps => p.size + Pred.sizes ps

end

namespace Formula

def size : Formula → Nat
  | expr e => e.size
  | pred p => p.size
  | assignment _ | decl _ => 1

def sizes : List Formula → Nat
  | [] => 0
  | f :: fs => f.size + sizes fs

theorem sizes_append (fs gs : List Formula) : sizes (fs ++ gs) = sizes fs + sizes gs := by
  induction fs with
  | nil => simp [sizes]
  | cons f fs ih => simp only [List.cons_append, sizes, ih]; omega

theorem sizes_map_expr (es : List Expr) : sizes (es.map expr) = Expr.sizes es := by
  induction es with
  | nil => rfl
  | cons e es ih => simpa [sizes, size, Expr.sizes] using ih

theorem sizes_map_pred (ps : List Pred) : sizes (ps.map pred) = Pred.sizes ps := by
  induction ps with
  | nil => rfl
  | cons p ps ih => simpa [sizes, size, Pred.sizes] using ih

theorem sizes_map_decl (ds : List Declaration) : sizes (ds.map decl) = ds.length := by
  induction ds with
  | nil => rfl
  | cons d ds ih => simp_all [sizes, size]; omega

/-- The parts of a formula have fewer nodes together than the formula. -/
theorem sizes_parts_lt (f : Formula) : sizes f.parts < f.size := by
  cases f with
  | expr e =>
    cases e <;> simp only [parts, Expr.children, size, Expr.size, sizes_append, sizes_map_expr,
      sizes_map_pred, sizes_map_decl] <;> simp [sizes, size]
  | pred p =>
    cases p <;> simp only [parts, Pred.children, size, Pred.size, sizes_append, sizes_map_expr,
      sizes_map_pred, sizes_map_decl] <;> simp [sizes, size]
  | assignment a => simp [parts, size, sizes]
  | decl d => simp [parts, size, sizes]

mutual

def walk {σ α : Type} (visit : StatefulInspector σ α) (f : Formula) (p : Position)
    (acc : Accumulator σ α) : Accumulator σ α :=
  let v := visit acc.state acc.found p f
  if v.1.skipChildren then acc.after v else walkAll visit f.parts p 0 (acc.after v)
termination_by (f.size, 0)
decreasing_by exact Prod.Lex.left _ _ (sizes_parts_lt f)

/-- Walks over the children of a node, of which the first stands at the given index, until the walk
is ended. -/
def walkAll {σ α : Type} (visit : StatefulInspector σ α) (fs : List Formula) (p : Position) (i : Nat)
    (acc : Accumulator σ α) : Accumulator σ α :=
  match fs with
  | [] => acc
  | f :: fs =>
    if acc.skipAll then acc else walkAll visit fs p (i + 1) (walk visit f (p.child i) acc)
termination_by (sizes fs, fs.length + 1)
decreasing_by
  · simp only [sizes, Prod.lex_def]; omega
  · simp only [sizes, Prod.lex_def, List.length_cons]; omega

end

/-- The findings of an inspector, and the state that it ends in. -/
def inspectFrom {σ α : Type} (start : σ) (visit : StatefulInspector σ α) (f : Formula) :
    Except FormulaError (List α × σ) := do
  f.support .inspect
  let acc := walk visit f .root { state := start }
  return (acc.found.reverse, acc.state)

def inspect {α : Type} (visit : Inspector α) (f : Formula) : Except FormulaError (List α) :=
  return (← f.inspectFrom () visit.stateless).1

def positions (select : Formula → Bool) (f : Formula) : Except FormulaError (List Position) :=
  f.inspect fun _ p g => { found := if select g then [p] else [] }

def freeIdentifier : Inspector Expr := fun found _ g =>
  match g with
  | .expr (.free n x t) =>
    { found := if found.any (·.same (.free n x t)) then [] else [.free n x t] }
  | _ => {}

/-- The first occurrence of each free identifier, in order; assignments have none. -/
def freeIdentifiers (f : Formula) : List Expr := (f.inspect freeIdentifier).toOption.getD []

end Formula

namespace Expr

def freeIdentifiers (e : Expr) : List Expr := Formula.freeIdentifiers (.expr e)

end Expr

namespace Pred

def freeIdentifiers (p : Pred) : List Expr := Formula.freeIdentifiers (.pred p)

end Pred
end SetLang
