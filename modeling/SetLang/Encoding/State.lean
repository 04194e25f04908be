import SetLang.Environment
import SetLang.Rebuild

/-! Encodings of datatypes in the core language. An encoding replaces every datatype instance that
it meets by a new given type with functions for constructors and destructors; it keeps these
representations and the names that it gave out. A failed step keeps what it has added so far. -/

namespace SetLang

inductive EncodingError where
  | formula (e : FormulaError)
  | unknownDatatype (name : String)
  | notADatatype (text : String)
deriving DecidableEq

namespace EncodingError

def message : EncodingError → String
  | formula e => e.message
  | unknownDatatype name => s!"datatype {name} is not registered in the source factory"
  | notADatatype text => s!"{text} does not denote a datatype instance"

end EncodingError

/-- What stands for a constructor: a function from its arguments, or a value if it has none, and
functions back to the arguments. -/
structure ConstructorImage where
  function : Expr
  argTypes : List Ty
  destructors : List Expr

/-- What stands for a datatype instance: a type, and for an instance with parameters that some
constructor uses, a relation from the values of the parameters to the values built from them. -/
structure Representation where
  source : Instance
  params : List Ty
  type : Ty
  typeExpr : Expr
  setConstructor : Option Expr
  constructors : List ConstructorImage

/-- An encoding from one factory into another: names that are taken, names given out with their
types, and representations in the order of their creation. -/
structure Encoding where
  source : Factory
  target : Factory
  env : Environment
  used : List String
  allocated : Environment
  representations : List Representation

/-- The first of `base`, `base0`, `base1` and so on that is not taken. There is one candidate more
than there are taken names, so that one of them is free. -/
def freshName (used : List String) (base : String) : String :=
  -- The suffix is a natural number. A counter of 32 bits with a sign counts alike, as long as fewer than 2^31
  -- candidates for one base are taken.
  let candidates := base :: (List.range used.length).map fun i => base ++ toString i
  (candidates.find? fun s => !used.contains s).getD base

namespace Encoding

/-- The latest representation of an instance. -/
def representation? (t : Encoding) (i : Instance) : Option Representation :=
  t.representations.reverse.find? fun r => r.source.type == i.type

/-- Names that are taken from the start: those of the environment and the given types in it. -/
def initialNames (env : Environment) : List String :=
  env.names ++ env.entries.flatMap fun e => e.2.givens

end Encoding

structure EncodingState where
  store : Store
  encoding : Encoding

abbrev Encode := ExceptT (Fault EncodingError) (StateM EncodingState)

namespace Encode

def current : Encode Encoding := return (← get).encoding

def store : Encode Store := return (← get).store

def target : Encode Factory := return (← current).target

def update (f : Encoding → Encoding) : Encode Unit :=
  modify fun s => { s with encoding := f s.encoding }

end Encode

instance : MonadLift Build Encode where
  monadLift x := ExceptT.mk fun ⟨store, encoding⟩ =>
    match x.run store with
    | (.ok a, store) => (.ok a, ⟨store, encoding⟩)
    | (.error m, store) => (.error (.misuse m), ⟨store, encoding⟩)

namespace Build

/-- An encoding of the formulas of a factory whose free identifiers an environment types. -/
def encoding (source : Factory) (env : Environment) : Build Encoding := do
  let target ← factory source.toLanguage.withoutDatatypes
  return ⟨source, target, env, Encoding.initialNames env, .empty, []⟩

end Build

namespace Encode

def fail {α : Type} (e : EncodingError) : Encode α := throw (.error e)

def reserve (names : List String) : Encode Unit :=
  update fun t => { t with used := names ++ t.used }

def allocate (base : String) (type : String → Ty) : Encode String := do
  let name := freshName (← current).used base
  update fun t =>
    { t with used := name :: t.used, allocated := t.allocated.insert name (type name) }
  return name

def freshGiven (base : String) : Encode Ty := return .given (← allocate base Ty.givenSet)

def freshIdentifier (base : String) (t : Ty) : Encode Expr := do
  let name ← allocate base fun _ => t
  liftM ((← target).free name (some t))

end Encode
end SetLang
