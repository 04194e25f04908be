import SetLang.Misuse
import SetLang.Ty.Text

/-! The type solver. A solver holds numbered variables, each of which is free or has a term as its
value, possibly another variable; no variable is reached again from its value. The variables whose
values lead to the same free variable form a class, and that variable represents it. Equations
between terms are solved by `unify`, and what is known so far is read by `resolve`. -/

namespace SetLang

inductive TypeError where
  | mismatch (left right : TyTerm)
  | infinite (var : TypeVar) (term : TyTerm)
  | unsolved (term : TyTerm)
  | unboundIdentifier (index : Nat)

namespace TypeError

def message : TypeError → String
  | mismatch a b => s!"type mismatch: could not unify {TyTerm.text a} and {TyTerm.text b}"
  | infinite v t => s!"infinite type: {TyTerm.text (.leaf v)} occurs in {TyTerm.text t}"
  | unsolved t => s!"could not solve type {TyTerm.text t}"
  | unboundIdentifier i => s!"bound identifier [{i}] is not in scope"

end TypeError

/-- What is known of a variable: the term that it denotes and, while there is none, a bound on the
number of values that lead to it one after another. -/
structure VarState where
  rank : Nat
  value : Option TyTerm

/-- Numbered variables, and a depth that no value exceeds. -/
structure Unifier where
  vars : Array VarState
  deepest : Nat

namespace Unifier

def empty : Unifier := ⟨#[], 0⟩

def size (u : Unifier) : Nat := u.vars.size

def var? (u : Unifier) (v : TypeVar) : Option VarState := u.vars[v]?

def rank (u : Unifier) (v : TypeVar) : Nat := ((u.var? v).map (·.rank)).getD 0

def addVar (u : Unifier) : Unifier := { u with vars := u.vars.push ⟨0, none⟩ }

/-- Follows at most `hops` values from a term to a type constructor or a free variable; `none` for
an unknown variable. -/
def headWithin? (u : Unifier) : Nat → TyTerm → Option TyTerm
  | hops + 1, .leaf v =>
    match u.var? v with
    | none => none
    | some ⟨_, none⟩ => some (.leaf v)
    | some ⟨_, some t⟩ => u.headWithin? hops t
  | _, t => some t

/-- What a term is at its top, with a free variable as the representative of its class. No variable
is met twice on the way. -/
def head? (u : Unifier) (t : TyTerm) : Option TyTerm := u.headWithin? (u.size + 1) t

def resolveWithin? (u : Unifier) : Nat → TyTerm → Option TyTerm
  | 0, t => some t
  | hops + 1, t => t.subst? fun v =>
    match u.var? v with
    | none => none
    | some ⟨_, none⟩ => some (.leaf v)
    | some ⟨_, some t⟩ => u.resolveWithin? hops t

/-- Replaces variables by their values at any depth, so that only representatives are left. No
value contains its own variable, so that no path meets a variable twice. -/
def resolve? (u : Unifier) (t : TyTerm) : Option TyTerm := u.resolveWithin? (u.size + 1) t

def bind (u : Unifier) (v : TypeVar) (t : TyTerm) : Unifier where
  vars := u.vars.modify v fun w => { w with value := some t }
  deepest := max u.deepest t.depth

def raiseRank (u : Unifier) (v : TypeVar) : Unifier :=
  { u with vars := u.vars.modify v fun w => { w with rank := w.rank + 1 } }

/-- Makes one class out of those of two representatives. The one of higher rank stays
representative, the second one when the ranks are equal. -/
def join (u : Unifier) (a b : TypeVar) : Unifier :=
  if a = b then u
  else if u.rank b < u.rank a then u.bind b (.leaf a)
  else if u.rank a < u.rank b then u.bind a (.leaf b)
  else (u.raiseRank b).bind a (.leaf b)

/-- A bound on the depth of resolved terms while an equation is solved: the variables that get
values meanwhile denote parts of the terms at hand, and a path meets each variable at most once. -/
def reach (u : Unifier) (a b : TyTerm) : Nat :=
  (u.size + 1) * max u.deepest (max a.depth b.depth)

end Unifier

/-- Computations on a solver. A failure keeps what was solved before it. -/
abbrev Solve := ExceptT (Fault TypeError) (StateM Unifier)

namespace Solve

/-- A value of the current solver that unknown variables do not have. -/
def read {α : Type} (f : Unifier → Option α) : Solve α := do
  match f (← get) with
  | some a => return a
  | none => throw (.misuse .indexOutOfRange)

def fresh : Solve TyTerm := do
  let v := (← get).size
  modify Unifier.addVar
  return .leaf v

def head (t : TyTerm) : Solve TyTerm := read (·.head? t)

def resolve (t : TyTerm) : Solve TyTerm := read (·.resolve? t)

def solve (t : TyTerm) : Solve Ty := do
  let resolved ← resolve t
  match TyTerm.toTy? resolved with
  | some ty => return ty
  | none => throw (.error (.unsolved resolved))

def bindVar (v : TypeVar) (t : TyTerm) : Solve Unit := do
  let resolved ← resolve t
  if resolved.mentions v then throw (.error (.infinite v resolved))
  modify (·.bind v t)

def mismatch (a b : TyTerm) : Solve Unit := do
  throw (.error (.mismatch (← resolve a) (← resolve b)))

/-- Solves an equation between terms that are known at their tops; `solve` serves their parts. -/
def unifyHeads (solve : TyTerm → TyTerm → Solve Unit) : TyTerm → TyTerm → Solve Unit
  | .leaf x, .leaf y => modify (·.join x y)
  | .leaf x, t => bindVar x t
  | t, .leaf y => bindVar y t
  | .boolean, .boolean => pure ()
  | .given s, .given t => unless s = t do mismatch (.given s) (.given t)
  | .power a, .power b => solve a b
  | .product a b, .product c d => do
    solve a c
    solve b d
  | .data d as, .data e bs =>
    if d == e && as.length == bs.length then
      (as.zip bs).forM fun (a, b) => solve a b
    else mismatch (.data d as) (.data e bs)
  | a, b => mismatch a b

def unifyWithin : Nat → TyTerm → TyTerm → Solve Unit
  | 0, a, b => mismatch a b
  | depth + 1, a, b => do unifyHeads (unifyWithin depth) (← head a) (← head b)

def unify (a b : TyTerm) : Solve Unit := do
  unifyWithin ((← get).reach a b) a b

abbrev Renaming := List (TypeVar × TyTerm)

/-- Allocates a variable for each variable of a pattern that has none, from left to right. -/
def extend (r : Renaming) (vars : List TypeVar) : Solve Renaming :=
  vars.foldlM (fun r v => do
    if (r.lookup v).isSome then return r
    return (v, ← fresh) :: r) r

def rename (r : Renaming) (pattern : TyTerm) : TyTerm :=
  pattern.subst fun v => (r.lookup v).getD (.leaf v)

def instantiateWith (pattern : TyTerm) (r : Renaming) : Solve (TyTerm × Renaming) := do
  let r ← extend r pattern.leaves
  return (rename r pattern, r)

/-- Instantiates patterns one after another, so that their variables are shared. -/
def instantiateAll (patterns : List TyTerm) : Solve (List TyTerm) := do
  let (terms, _) ← patterns.foldlM (fun (terms, r) pattern => do
    let (term, r) ← instantiateWith pattern r
    return (terms ++ [term], r)) (([] : List TyTerm), ([] : Renaming))
  return terms

def instantiate (pattern : TyTerm) : Solve TyTerm := do
  return (← instantiateWith pattern []).1

end Solve
end SetLang
