import SetLang.Formula

/-! What changes over time. A store keeps the type of every expression and declaration that has one,
the marks of the predicates and assignments that are typed, and the number of factories made. A slot
is filled at most once. Formulas are built in the monad `Build`. -/

namespace SetLang

structure Store where
  types : Array (Option Ty)
  marks : Array Bool
  factories : Nat

namespace Store

def empty : Store := ⟨#[], #[], 0⟩

/-- The type kept in a slot. -/
def type? (s : Store) (slot : Nat) : Option Ty := s.types[slot]?.join

def isMarked (s : Store) (slot : Nat) : Bool := s.marks[slot]?.getD false

/-- Keeps a type in a slot. -/
def put (s : Store) (slot : Nat) (t : Ty) : Store :=
  { s with types := s.types.setIfInBounds slot (some t) }

/-- Fills a slot with a type; a slot that has another type refuses it. -/
def resolve (s : Store) (slot : Nat) (t : Ty) : Except Misuse Store :=
  match s.type? slot with
  | none => .ok (s.put slot t)
  | some u => if u == t then .ok s else .error .slotChange

def mark (s : Store) (slot : Nat) : Store :=
  { s with marks := s.marks.setIfInBounds slot true }

end Store

namespace Declaration

def type? (s : Store) (d : Declaration) : Option Ty := s.type? d.slot

end Declaration

namespace Expr

def type? (s : Store) (e : Expr) : Option Ty := s.type? e.node.slot

def isTyped (s : Store) (e : Expr) : Bool := (e.type? s).isSome

end Expr

namespace Pred

def isTyped (s : Store) (p : Pred) : Bool := s.isMarked p.node.slot

end Pred

namespace Assignment

def isTyped (s : Store) (a : Assignment) : Bool := s.isMarked a.node.slot

end Assignment

namespace Formula

def isTyped (s : Store) : Formula → Bool
  | expr e => e.isTyped s
  | pred p => p.isTyped s
  | assignment a => a.isTyped s
  | decl d => (d.type? s).isSome

end Formula

/-- Computations that allocate nodes. -/
abbrev Build := ExceptT Misuse (StateM Store)

namespace Build

def typeSlot (t : Option Ty) : Build Nat :=
  modifyGet fun s => (s.types.size, { s with types := s.types.push t })

def markSlot : Build Nat :=
  modifyGet fun s => (s.marks.size, { s with marks := s.marks.push false })

/-- A factory of a language. -/
def factory (l : Language) : Build Factory := do
  let s ← get
  set { s with factories := s.factories + 1 }
  return { l with id := s.factories }

def declare (name : String) (t : Option Ty) : Build Declaration := do
  return ⟨name, ← typeSlot t⟩

/-- A declaration of the same name and current type with a slot of its own. -/
def copy (d : Declaration) : Build Declaration := do
  declare d.name (d.type? (← get))

def require (condition : Bool) (m : Misuse) : Build Unit := unless condition do throw m

/-- Checks that the parts of a new node were built by its factory. -/
def requireFactory (f : Factory) (parts : List Factory) : Build Unit :=
  require (parts.all fun g => g.id == f.id) .mixedFactories

end Build
end SetLang
