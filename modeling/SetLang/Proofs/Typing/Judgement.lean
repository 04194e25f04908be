import SetLang.Environment
import SetLang.Proofs.Typing.Scheme
import SetLang.Store

/-! When a formula is well typed. A typing gives a type to every slot and to every free identifier that
the environment does not know. It types a formula if the rule of every node holds, where nodes are
taken together with the declarations in scope, innermost first. -/

namespace SetLang

/-- A node with the declarations in scope. -/
structure Occurrence where
  scope : List Declaration
  node : Formula

mutual

/-- The nodes of an expression, itself and its declarations included. -/
@[simp] def Expr.occurrences (scope : List Declaration) : Expr → List Occurrence
  | .binary n op l r =>
    ⟨scope, .expr (.binary n op l r)⟩ :: (l.occurrences scope ++ r.occurrences scope)
  | .unary n op a => ⟨scope, .expr (.unary n op a)⟩ :: a.occurrences scope
  | .assoc n op es => ⟨scope, .expr (.assoc n op es)⟩ :: Expr.allOccurrences scope es
  | .atom n a t => [⟨scope, .expr (.atom n a t)⟩]
  | .set n es t => ⟨scope, .expr (.set n es t)⟩ :: Expr.allOccurrences scope es
  | .bool n p => ⟨scope, .expr (.bool n p)⟩ :: p.occurrences scope
  | .quantified n op ds p e =>
    ⟨scope, .expr (.quantified n op ds p e)⟩ :: (ds.map fun d => ⟨scope, .decl d⟩) ++
      (p.occurrences (ds.reverse ++ scope) ++ e.occurrences (ds.reverse ++ scope))
  | .bound n i t => [⟨scope, .expr (.bound n i t)⟩]
  | .free n x t => [⟨scope, .expr (.free n x t)⟩]
  | .extended n ext es ps t =>
    ⟨scope, .expr (.extended n ext es ps t)⟩ ::
      (Expr.allOccurrences scope es ++ Pred.allOccurrences scope ps)

@[simp] def Expr.allOccurrences (scope : List Declaration) : List Expr → List Occurrence
  | [] => []
  | e :: es => e.occurrences scope ++ Expr.allOccurrences scope es

@[simp] def Pred.occurrences (scope : List Declaration) : Pred → List Occurrence
  | .literal n value => [⟨scope, .pred (.literal n value)⟩]
  | .not n p => ⟨scope, .pred (.not n p)⟩ :: p.occurrences scope
  | .connective n op p q =>
    ⟨scope, .pred (.connective n op p q)⟩ :: (p.occurrences scope ++ q.occurrences scope)
  | .junction n op ps => ⟨scope, .pred (.junction n op ps)⟩ :: Pred.allOccurrences scope ps
  | .comparison n op l r =>
    ⟨scope, .pred (.comparison n op l r)⟩ :: (l.occurrences scope ++ r.occurrences scope)
  | .partition n es => ⟨scope, .pred (.partition n es)⟩ :: Expr.allOccurrences scope es
  | .quantified n op ds p =>
    ⟨scope, .pred (.quantified n op ds p)⟩ :: (ds.map fun d => ⟨scope, .decl d⟩) ++
      p.occurrences (ds.reverse ++ scope)
  | .extended n ext es ps =>
    ⟨scope, .pred (.extended n ext es ps)⟩ ::
      (Expr.allOccurrences scope es ++ Pred.allOccurrences scope ps)

@[simp] def Pred.allOccurrences (scope : List Declaration) : List Pred → List Occurrence
  | [] => []
  | p :: ps => p.occurrences scope ++ Pred.allOccurrences scope ps

end

def Assigned.occurrences : Assigned → List Occurrence
  | .values es => Expr.allOccurrences [] es
  | .member e => e.occurrences []
  | .such ds p => (ds.map fun d => ⟨[], .decl d⟩) ++ p.occurrences ds.reverse

def Formula.occurrences : Formula → List Occurrence
  | .expr e => e.occurrences []
  | .pred p => p.occurrences []
  | .assignment a =>
    ⟨[], .assignment a⟩ :: (a.assigned.occurrences ++ Expr.allOccurrences [] a.targets)
  | .decl d => [⟨[], .decl d⟩]

namespace Formula

def slot? : Formula → Option Nat
  | expr e => some e.node.slot
  | decl d => some d.slot
  | pred _ | assignment _ => none

def type? (s : Store) (f : Formula) : Option Ty := f.slot?.bind s.type?

def mark? : Formula → Option Nat
  | pred p => some p.node.slot
  | assignment a => some a.node.slot
  | expr _ | decl _ => none

def freeName? : Formula → Option String
  | expr e => e.freeName?
  | _ => none

def typeSlots (f : Formula) : List Nat := f.occurrences.filterMap (·.node.slot?)

def markSlots (f : Formula) : List Nat := f.occurrences.filterMap (·.node.mark?)

def freeNames (f : Formula) : List String := f.occurrences.filterMap (·.node.freeName?)

end Formula

/-- Types of slots and of free identifiers. -/
structure Typing where
  slot : Nat → GroundTy
  free : String → GroundTy

namespace Typing

variable (τ : Typing)

def ofExpr (e : Expr) : GroundTy := τ.slot e.node.slot

def ofDecl (d : Declaration) : GroundTy := τ.slot d.slot

def TypesIdentifier (env : Environment) (scope : List Declaration) : Expr → Prop
  | .bound n i _ => ∃ d, scope[i]? = some d ∧ τ.slot n.slot = τ.ofDecl d
  | .free n x _ => τ.slot n.slot = ((env.get? x).map TypeTree.named).getD (τ.free x)
  | _ => True

def TypesAssigned (targets : List Expr) : Assigned → Prop
  | .values es => ∀ p ∈ targets.zip es, τ.ofExpr p.1 = τ.ofExpr p.2
  | .member set => ∀ e ∈ targets, τ.ofExpr set = .power (τ.ofExpr e)
  | .such ds _ => ∀ p ∈ targets.zip ds, τ.ofExpr p.1 = τ.ofDecl p.2

/-- The rule of a node holds, and the type given to the node is its type. -/
def Obeys : Formula → Prop
  | .expr e => e.scheme.Holds (e.operands.map τ.ofExpr) (some (τ.ofExpr e)) ∧
      ∀ t, e.explicit? = some t → τ.ofExpr e = t.named
  | .pred p => p.scheme.Holds (p.operands.map τ.ofExpr) none
  | .assignment a => τ.TypesAssigned a.targets a.assigned
  | .decl _ => True

def TypesNode (env : Environment) (o : Occurrence) : Prop :=
  τ.Obeys o.node ∧
    match o.node with
    | .expr e => τ.TypesIdentifier env o.scope e
    | _ => True

/-- The typing keeps the types that slots already have, and the rules of all nodes hold. -/
structure Types (s : Store) (env : Environment) (f : Formula) : Prop where
  resolved : ∀ slot t, s.type? slot = some t → τ.slot slot = t.named
  node : ∀ o ∈ f.occurrences, τ.TypesNode env o

def Agrees (env : Environment) (f : Formula) (τ' : Typing) : Prop :=
  (∀ slot ∈ f.typeSlots, τ.slot slot = τ'.slot slot) ∧
    ∀ x ∈ f.freeNames, env.get? x = none → τ.free x = τ'.free x

/-- A given type occurs in the type of a node or of a free identifier. -/
def Mentions (env : Environment) (f : Formula) (name : String) : Prop :=
  (∃ slot ∈ f.typeSlots, name ∈ (τ.slot slot).givens) ∨
    ∃ x ∈ f.freeNames, env.get? x = none ∧ name ∈ (τ.free x).givens

/-- A name that stands for a given type and for an identifier is the set of the values of this
type. -/
def GivensDeclared (env : Environment) (f : Formula) : Prop :=
  ∀ name, τ.Mentions env f name →
    (∀ t, env.get? name = some t → t.named = .power (.given name)) ∧
      (env.get? name = none → name ∈ f.freeNames → τ.free name = .power (.given name))

end Typing

/-- What construction guarantees of a node: its slot exists, and an extension has the children that it
asks for. -/
def Formula.NodeFits (s : Store) : Formula → Prop
  | .expr e => e.node.slot < s.types.size ∧ e.Fitting
  | .pred p => p.node.slot < s.marks.size ∧ p.Fitting
  | .assignment a => a.node.slot < s.marks.size ∧
    match a.assigned with
    | .values es => a.targets.length = es.length
    | .member _ => a.targets.length = 1
    | .such ds _ => a.targets.length = ds.length
  | .decl d => d.slot < s.types.size

/-- All nodes of a formula are as construction leaves them. -/
def Formula.Fits (s : Store) (f : Formula) : Prop := ∀ o ∈ f.occurrences, o.node.NodeFits s

end SetLang
