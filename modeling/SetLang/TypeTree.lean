/-! Trees of type constructors with leaves of any kind. Ground types have no leaf, the terms of the
type solver have variables as leaves, and the argument types of a datatype have its parameters and
the datatype itself. Replacing leaves by trees is `subst`. -/

namespace SetLang

/-- Type constructors over datatypes `D`, with leaves in `V`. -/
inductive TypeTree (D V : Type) where
  | leaf (v : V)
  | boolean
  | given (name : String)
  | power (base : TypeTree D V)
  | product (left right : TypeTree D V)
  | data (d : D) (args : List (TypeTree D V))

namespace TypeTree

variable {D V W : Type}

instance : Inhabited (TypeTree D V) := ⟨boolean⟩

/-- The relations from `left` to `right`, as sets of pairs. -/
def relation (left right : TypeTree D V) : TypeTree D V := power (product left right)

mutual

def beq [BEq D] [BEq V] : TypeTree D V → TypeTree D V → Bool
  | leaf v, leaf w => v == w
  | boolean, boolean => true
  | given s, given t => s == t
  | power a, power b => beq a b
  | product a b, product c d => beq a c && beq b d
  | data d as, data e bs => d == e && beqAll as bs
  | _, _ => false

def beqAll [BEq D] [BEq V] : List (TypeTree D V) → List (TypeTree D V) → Bool
  | [], [] => true
  | a :: as, b :: bs => beq a b && beqAll as bs
  | _, _ => false

end

/-- Two trees are equal when their constructors are; datatypes are compared by their own `==`. -/
instance [BEq D] [BEq V] : BEq (TypeTree D V) := ⟨beq⟩

mutual

def subst (f : V → TypeTree D W) : TypeTree D V → TypeTree D W
  | leaf v => f v
  | boolean => boolean
  | given s => given s
  | power a => power (subst f a)
  | product a b => product (subst f a) (subst f b)
  | data d as => data d (substAll f as)

def substAll (f : V → TypeTree D W) : List (TypeTree D V) → List (TypeTree D W)
  | [] => []
  | a :: as => subst f a :: substAll f as

end

mutual

/-- Replaces every leaf by a tree, or fails at the first leaf, from the left, that has none. -/
def subst? (f : V → Option (TypeTree D W)) : TypeTree D V → Option (TypeTree D W)
  | leaf v => f v
  | boolean => some boolean
  | given s => some (given s)
  | power a => power <$> subst? f a
  | product a b => product <$> subst? f a <*> subst? f b
  | data d as => data d <$> substAll? f as

def substAll? (f : V → Option (TypeTree D W)) : List (TypeTree D V) → Option (List (TypeTree D W))
  | [] => some []
  | a :: as => (· :: ·) <$> subst? f a <*> substAll? f as

end

mutual

def leaves : TypeTree D V → List V
  | leaf v => [v]
  | boolean => []
  | given _ => []
  | power a => leaves a
  | product a b => leaves a ++ leaves b
  | data _ as => leavesAll as

def leavesAll : List (TypeTree D V) → List V
  | [] => []
  | a :: as => leaves a ++ leavesAll as

end

mutual

/-- The names of given types, from left to right, with repetitions. -/
def givens : TypeTree D V → List String
  | leaf _ => []
  | boolean => []
  | given s => [s]
  | power a => givens a
  | product a b => givens a ++ givens b
  | data _ as => givensAll as

def givensAll : List (TypeTree D V) → List String
  | [] => []
  | a :: as => givens a ++ givensAll as

end

mutual

/-- The number of nodes on the longest path. -/
def depth : TypeTree D V → Nat
  | leaf _ => 1
  | boolean => 1
  | given _ => 1
  | power a => depth a + 1
  | product a b => max (depth a) (depth b) + 1
  | data _ as => depthAll as + 1

def depthAll : List (TypeTree D V) → Nat
  | [] => 0
  | a :: as => max (depth a) (depthAll as)

end

def mentions [BEq V] (t : TypeTree D V) (v : V) : Bool := t.leaves.contains v

end TypeTree
end SetLang
