import SetLang.Formula.Text
import SetLang.Walk
import SetLang.Substitution

/-! Assignments: how they are built, when they are feasible, and how the values of the assigned
identifiers before and after are related. The value of `x` after an assignment is written `x'`. -/

namespace SetLang

namespace Assigned

/-- How many identifiers are assigned. -/
def count : Assigned → Nat
  | values es => es.length
  | member _ => 1
  | such ds _ => ds.length

def partFactories : Assigned → List Factory
  | values es => es.map Expr.factory
  | member e => [e.factory]
  | such _ p => [p.factory]

end Assigned

namespace Build

/-- Checks that the targets are distinct free identifiers; `seen` holds the names met before. -/
def requireTargets (seen : List String) : List Expr → Build Unit
  | [] => return
  | e :: es => do
    let some x := e.freeName? | throw (.notAssignable e.text)
    require (!seen.contains x) (.assignedTwice x)
    requireTargets (x :: seen) es

def assignment (f : Factory) (targets : List Expr) (assigned : Assigned) : Build Assignment := do
  require (!targets.isEmpty) .nothingAssigned
  requireTargets [] targets
  require (targets.length = assigned.count) .assignmentMismatch
  requireFactory f (targets.map Expr.factory ++ assigned.partFactories)
  let a : Assignment := ⟨⟨f, ← markSlot⟩, targets, assigned⟩
  match a.synthesized (← get) with
  | .ok true => modify (·.mark a.node.slot)
  | .ok false => pure ()
  | .error m => throw m
  return a

end Build

namespace Factory

def becomesEqual (f : Factory) (targets values : List Expr) : Build Assignment :=
  Build.assignment f targets (.values values)

def becomesMember (f : Factory) (target set : Expr) : Build Assignment :=
  Build.assignment f [target] (.member set)

def becomesSuch (f : Factory) (targets : List Expr) (primed : List Declaration)
    (condition : Pred) : Build Assignment := do
  let primed ← primed.mapM Build.copy
  Build.assignment f targets (.such primed condition)

end Factory

namespace Assignment

def factory (a : Assignment) : Factory := a.node.factory

/-- The free identifiers that the right side reads, in the order of their first occurrence. -/
def used (a : Assignment) : List Expr :=
  match a.assigned with
  | .values es =>
    (es.flatMap Expr.freeIdentifiers).foldl
      (fun found e => if found.any (·.same e) then found else found ++ [e]) []
  | .member e => e.freeIdentifiers
  | .such _ p => p.freeIdentifiers

def primedName (name : String) : String := name ++ "'"

def primedTargets (a : Assignment) : Build (List Expr) :=
  a.targets.mapM fun e => do
    a.factory.free (primedName (e.freeName?.getD "")) (e.type? (← get))

/-- One predicate as it is, or the conjunction of several. -/
def conjunction (f : Factory) : List Pred → Build Pred
  | [p] => return p
  | ps => f.junction .land ps

def requireTyped (a : Assignment) : Derive Unit := do
  if !a.isTyped (← get) then throw (.error .notTypeChecked)

def feasibility (a : Assignment) : Derive Pred := do
  a.requireTyped
  let s ← get
  let f := a.factory
  let build : Build Pred :=
    match a.assigned with
    | .values _ => f.literal true
    | .member set => do
      let empty ← f.atom .emptySet (set.type? s)
      f.comparison .ne set empty
    | .such primed condition => f.quantifiedPred .exist primed condition
  liftM build

/-- The relation between the values before and after. -/
def beforeAfter (a : Assignment) : Derive Pred := do
  a.requireTyped
  let f := a.factory
  let build : Build Pred := do
    let primed ← a.primedTargets
    match a.assigned with
    | .values es => do
      conjunction f (← (primed.zip es).mapM fun (x, e) => f.comparison .eq x e)
    | .member set =>
      match primed with
      | x :: _ => f.comparison .mem x set
      | [] => throw .indexOutOfRange
    | .such _ condition => condition.instantiate primed
  liftM build

end Assignment
end SetLang
