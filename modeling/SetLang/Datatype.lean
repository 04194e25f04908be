import SetLang.TypeTree

/-! Algebraic datatypes. A datatype has a name, formal type parameters and constructors, and each
argument of a constructor has a type over the parameters, the datatype itself and other datatypes.
A datatype is identified by its name. Ground types and type terms apply datatypes to arguments. -/

namespace SetLang

/-- What an argument type may refer to. -/
inductive ArgLeaf where
  | param (index : Nat)
  | self
deriving DecidableEq, Inhabited

/-- An argument of a constructor, read back by a destructor if it has a name. -/
structure ArgumentOf (D : Type) where
  destructor : Option String
  type : TypeTree D ArgLeaf

structure ConstructorOf (D : Type) where
  symbol : String
  arguments : List (ArgumentOf D)

structure Datatype where
  name : String
  params : List String
  constructors : List (ConstructorOf Datatype)

instance : Inhabited Datatype := ⟨⟨"", [], []⟩⟩

instance : BEq Datatype := ⟨fun d e => d.name == e.name⟩

abbrev Constructor := ConstructorOf Datatype

abbrev Argument := ArgumentOf Datatype

abbrev ArgTy := TypeTree Datatype ArgLeaf

abbrev Ty := TypeTree Datatype Empty

abbrev TypeVar := Nat

abbrev TyTerm := TypeTree Datatype TypeVar

/-- A datatype applied to type arguments. -/
structure Instance where
  datatype : Datatype
  args : List Ty

namespace Datatype

def hasArguments (d : Datatype) : Bool := d.constructors.any fun c => !c.arguments.isEmpty

end Datatype

namespace Instance

def type (i : Instance) : Ty := .data i.datatype i.args

end Instance

namespace ArgTy

/-- The tree of an argument type for given trees of the parameters and of the datatype itself;
`none` when a parameter has none. -/
def instantiate? {V : Type} (t : ArgTy) (params : List (TypeTree Datatype V))
    (own : TypeTree Datatype V) : Option (TypeTree Datatype V) :=
  t.subst? fun
    | .param i => params[i]?
    | .self => some own

/-- The largest parameter index in an argument type. -/
def maxParam? (t : ArgTy) : Option Nat :=
  (t.leaves.filterMap fun | .param i => some i | .self => none).max?

mutual

/-- Whether the datatype occurs in its own argument elsewhere than at the top or in a component of
a product. -/
def hasNestedSelf (top : Bool) : ArgTy → Bool
  | .leaf .self => !top
  | .leaf (.param _) | .given _ | .boolean => false
  | .power a => hasNestedSelf false a
  | .product a b => hasNestedSelf top a || hasNestedSelf top b
  | .data _ as => hasNestedSelfAll as

def hasNestedSelfAll : List ArgTy → Bool
  | [] => false
  | a :: as => hasNestedSelf false a || hasNestedSelfAll as

end

end ArgTy
end SetLang
