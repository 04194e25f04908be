import SetLang.Environment
import SetLang.Store
import SetLang.Typing.Rule

/-! Type checking. A check walks over a formula, gives every node a term from the terms of its
children and collects equations in a solver. Then it solves the terms of all slots that were still
empty and fills these slots at once; a check that fails fills none. -/

namespace SetLang

/-- A type error and the part of the formula where it was found. Among the parts of an assignment
the assigned identifiers come first. -/
structure CheckError where
  error : TypeError
  position : Position

namespace CheckError

def message (e : CheckError) : String := s!"{e.error.message} at position {e.position.text}"

end CheckError

/-- The term of something to be solved, and the position where it was first met. -/
structure Pending where
  term : TyTerm
  position : Position

/-- What a check has collected: equations, free identifiers outside the environment in the order of
their names, empty slots and unmarked nodes with the latest first, what is pending for each of these
slots, and names of given types. -/
structure Collected where
  unifier : Unifier := .empty
  free : List (String × Pending) := []
  slots : List Nat := []
  pending : Array (Option Pending) := #[]
  marks : List Nat := []
  givens : Names := []

namespace Collected

def start (s : Store) : Collected := { pending := .replicate s.types.size none }

def pending? (c : Collected) (slot : Nat) : Option Pending := c.pending[slot]?.join

def note (c : Collected) (slot : Nat) (p : Pending) : Collected :=
  { c with slots := slot :: c.slots, pending := c.pending.setIfInBounds slot (some p) }

def pendingSlots (c : Collected) : List (Nat × Pending) :=
  c.slots.reverse.filterMap fun slot => (c.pending? slot).map (slot, ·)

end Collected

/-- What a check reads: the environment, the store at its start, and the terms of the declarations
in scope, innermost first. -/
structure CheckContext where
  env : Environment
  store : Store
  scope : List TyTerm := []

namespace CheckContext

def push (c : CheckContext) (terms : List TyTerm) : CheckContext :=
  { c with scope := terms.reverse ++ c.scope }

end CheckContext

abbrev Check := ExceptT (Fault CheckError) (StateM Collected)

namespace Check

def solveAt {α : Type} (p : Position) (x : Solve α) : Check α := do
  -- the solver leaves the state while it runs, so that it is changed in place
  let start ← modifyGet fun c => (c.unifier, { c with unifier := .empty })
  let (result, u) := x.run start
  modify fun c => { c with unifier := u }
  match result with
  | .ok a => return a
  | .error fault => throw (fault.mapError fun e => ⟨e, p⟩)

def collectGivens (t : Ty) : Check Unit :=
  modify fun c => { c with givens := c.givens.insertAll t.givens }

def equateKnown (p : Position) (term : TyTerm) (t : Ty) : Check Unit := do
  collectGivens t
  solveAt p (Solve.unify term (Ty.toTerm t))

def placeFree (x : String) (pending : Pending) : List (String × Pending) → List (String × Pending)
  | [] => [(x, pending)]
  | (y, q) :: rest =>
    if x < y then (x, pending) :: (y, q) :: rest else (y, q) :: placeFree x pending rest

/-- The term of a free identifier: its type in the environment, or else one variable for all of its
occurrences. -/
def freeTerm (ctx : CheckContext) (p : Position) (x : String) : Check TyTerm := do
  if let some t := ctx.env.get? x then return Ty.toTerm t
  if let some pending := (← get).free.lookup x then return pending.term
  let term ← solveAt p Solve.fresh
  modify fun c => { c with free := placeFree x ⟨term, p⟩ c.free }
  return term

def boundTerm (ctx : CheckContext) (p : Position) (index : Nat) : Check TyTerm :=
  match ctx.scope[index]? with
  | some term => return term
  | none => throw (.error ⟨.unboundIdentifier index, p⟩)

/-- Equates the term of a node with the content of its slot or, if the slot is empty, with the terms
of all nodes that share the slot. -/
def equateSlot (ctx : CheckContext) (p : Position) (slot : Nat) (term : TyTerm) : Check Unit := do
  match ctx.store.type? slot with
  | some t => equateKnown p term t
  | none =>
    match (← get).pending? slot with
    | some earlier => solveAt p (Solve.unify term earlier.term)
    | none => modify (·.note slot ⟨term, p⟩)

def markLater (ctx : CheckContext) (slot : Nat) : Check Unit :=
  unless ctx.store.isMarked slot do modify fun c => { c with marks := slot :: c.marks }

def declTerm (ctx : CheckContext) (p : Position) (d : Declaration) : Check TyTerm := do
  let own ← match d.type? ctx.store with
    | some t => pure (Ty.toTerm t)
    | none => solveAt p Solve.fresh
  equateSlot ctx p d.slot own
  return own

/-- The terms of declarations, of which the first is the child with index `i`. -/
def declTerms (ctx : CheckContext) (p : Position) (i : Nat) :
    List Declaration → Check (List TyTerm)
  | [] => return []
  | d :: ds => do
    let own ← declTerm ctx (p.child i) d
    return own :: (← declTerms ctx p (i + 1) ds)

/-- Equates the term of a node with the type given to it, then with the content of its slot. -/
def finishNode (ctx : CheckContext) (p : Position) (e : Expr) (term : TyTerm) : Check TyTerm := do
  if let some t := e.explicit? then equateKnown p term t
  equateSlot ctx p e.node.slot term
  return term

def applyRule (ctx : CheckContext) (p : Position) (e : Expr) (terms : List TyTerm) :
    Check TyTerm := do
  finishNode ctx p e (← solveAt p (e.rule terms))

def finishPred (ctx : CheckContext) (p : Position) (q : Pred) (terms : List TyTerm) :
    Check Unit := do
  solveAt p (q.rule terms)
  markLater ctx q.node.slot

end Check

open Check

mutual

@[simp] def Expr.check (ctx : CheckContext) (p : Position) : Expr → Check TyTerm
  | .binary n op l r => do
    let a ← l.check ctx (p.child 0)
    let b ← r.check ctx (p.child 1)
    applyRule ctx p (.binary n op l r) [a, b]
  | .unary n op e => do
    let a ← e.check ctx (p.child 0)
    applyRule ctx p (.unary n op e) [a]
  | .assoc n op es => do applyRule ctx p (.assoc n op es) (← Expr.checkAll ctx p 0 es)
  | .atom n a t => applyRule ctx p (.atom n a t) []
  | .set n es t => do applyRule ctx p (.set n es t) (← Expr.checkAll ctx p 0 es)
  | .bool n q => do
    q.check ctx (p.child 0)
    applyRule ctx p (.bool n q) []
  | .quantified n op ds q e => do
    let terms ← declTerms ctx p 0 ds
    let inner := ctx.push terms
    q.check inner (p.child ds.length)
    let body ← e.check inner (p.child (ds.length + 1))
    applyRule ctx p (.quantified n op ds q e) (terms ++ [body])
  | .bound n i t => do finishNode ctx p (.bound n i t) (← boundTerm ctx p i)
  | .free n x t => do finishNode ctx p (.free n x t) (← freeTerm ctx p x)
  | .extended n ext es qs t => do
    let terms ← Expr.checkAll ctx p 0 es
    Pred.checkAll ctx p es.length qs
    applyRule ctx p (.extended n ext es qs t) terms

def Expr.checkAll (ctx : CheckContext) (p : Position) (i : Nat) : List Expr → Check (List TyTerm)
  | [] => return []
  | e :: es => do
    let term ← e.check ctx (p.child i)
    return term :: (← Expr.checkAll ctx p (i + 1) es)

@[simp] def Pred.check (ctx : CheckContext) (p : Position) : Pred → Check Unit
  | .literal n value => finishPred ctx p (.literal n value) []
  | .not n q => do
    q.check ctx (p.child 0)
    finishPred ctx p (.not n q) []
  | .connective n op q r => do
    q.check ctx (p.child 0)
    r.check ctx (p.child 1)
    finishPred ctx p (.connective n op q r) []
  | .junction n op qs => do
    Pred.checkAll ctx p 0 qs
    finishPred ctx p (.junction n op qs) []
  | .comparison n op l r => do
    let a ← l.check ctx (p.child 0)
    let b ← r.check ctx (p.child 1)
    finishPred ctx p (.comparison n op l r) [a, b]
  | .partition n es => do finishPred ctx p (.partition n es) (← Expr.checkAll ctx p 0 es)
  | .quantified n op ds q => do
    let terms ← declTerms ctx p 0 ds
    q.check (ctx.push terms) (p.child ds.length)
    finishPred ctx p (.quantified n op ds q) []
  | .extended n ext es qs => do
    let terms ← Expr.checkAll ctx p 0 es
    Pred.checkAll ctx p es.length qs
    finishPred ctx p (.extended n ext es qs) terms

def Pred.checkAll (ctx : CheckContext) (p : Position) (i : Nat) : List Pred → Check Unit
  | [] => return
  | q :: qs => do
    q.check ctx (p.child i)
    Pred.checkAll ctx p (i + 1) qs

end

namespace Assigned

/-- The terms on the right of an assignment, of which the first is the child with index `n`. -/
def check (ctx : CheckContext) (p : Position) (n : Nat) : Assigned → Check (List TyTerm)
  | values es => Expr.checkAll ctx p n es
  | member e => return [← e.check ctx (p.child n)]
  | such ds q => do
    let terms ← declTerms ctx p n ds
    q.check (ctx.push terms) (p.child (n + ds.length))
    return terms

end Assigned

namespace Assignment

/-- Collects the equations of an assignment, those of its right side first. -/
def check (ctx : CheckContext) (a : Assignment) : Check Unit := do
  let assigned ← a.assigned.check ctx .root a.targets.length
  let targets ← Expr.checkAll ctx .root 0 a.targets
  solveAt .root (a.assigned.rule targets assigned)
  markLater ctx a.node.slot

end Assignment

/-- What a successful check fills in and reports: types of slots, marks, and the identifiers that
were missing from the environment. -/
structure CheckResult where
  types : List (Nat × Ty)
  marks : List Nat
  inferred : Environment

namespace Collected

def solve (c : Collected) (pending : Pending) : Except (Fault CheckError) Ty :=
  match ((Solve.solve pending.term).run c.unifier).1 with
  | .ok t => .ok t
  | .error fault => .error (fault.mapError fun e => ⟨e, pending.position⟩)

def solveAll {α : Type} (c : Collected) (items : List (α × Pending)) :
    Except (Fault CheckError) (List (α × Ty)) :=
  items.mapM fun (a, pending) => do return (a, ← c.solve pending)

/-- Adds the given sets that neither the environment nor the inferred names declare. A name that is
declared otherwise is an error. -/
def inferGivens (env : Environment) : Names → Environment → Except (Fault CheckError) Environment
  | [], inferred => .ok inferred
  | s :: rest, inferred =>
    match (env.get? s).or (inferred.get? s) with
    | some t =>
      if t == Ty.givenSet s then inferGivens env rest inferred
      else .error (.error ⟨.mismatch (Ty.toTerm t) (Ty.toTerm (Ty.givenSet s)), .root⟩)
    | none => inferGivens env rest (inferred.insertGiven s)

/-- Solves all that was collected: first the slots in the order of the walk, then the free
identifiers, and then adds the given sets of all types that occur. -/
def finish (c : Collected) (env : Environment) : Except (Fault CheckError) CheckResult := do
  let types ← c.solveAll c.pendingSlots
  let free ← c.solveAll c.free
  let givens := (types.map (·.2)).foldl (fun ns t => ns.insertAll t.givens) c.givens
  let givens := (free.map (·.2)).foldl (fun ns t => ns.insertAll t.givens) givens
  return ⟨types, c.marks, ← inferGivens env givens (Environment.empty.insertAll free)⟩

end Collected

namespace CheckResult

def publish (r : CheckResult) (s : Store) : Except Misuse Store := do
  let s ← r.types.foldlM (fun s (slot, t) => s.resolve slot t) s
  return r.marks.foldl Store.mark s

end CheckResult

def Check.answer {α : Type} (env : Environment) (s : Store) (collect : CheckContext → Check α) :
    Except (Fault CheckError) CheckResult :=
  match (collect ⟨env, s, []⟩).run (.start s) with
  | (.ok _, c) => c.finish env
  | (.error fault, _) => .error fault

/-- Checks a formula in an environment. On success all of its nodes are typed in the new store, and
the answer holds the identifiers and given sets that the environment lacked. -/
def Store.check {α : Type} (s : Store) (env : Environment) (collect : CheckContext → Check α) :
    Except (Fault CheckError) (Environment × Store) := do
  let r ← Check.answer env s collect
  match r.publish s with
  | .ok s => return (r.inferred, s)
  | .error m => throw (.misuse m)

namespace Store

def checkExpr (s : Store) (env : Environment) (e : Expr) :
    Except (Fault CheckError) (Environment × Store) := s.check env (e.check · .root)

def checkPred (s : Store) (env : Environment) (p : Pred) :
    Except (Fault CheckError) (Environment × Store) := s.check env (p.check · .root)

def checkAssignment (s : Store) (env : Environment) (a : Assignment) :
    Except (Fault CheckError) (Environment × Store) := s.check env a.check

end Store
end SetLang
