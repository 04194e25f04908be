import SetLang.Datatype
import SetLang.Encoding.State

/-! Encoding of types. Each instance in a type is replaced by the type of its representation,
which is created when the instance is first met: its type arguments are encoded, and names are
given out for its type, its set constructor and, constructor after constructor, for the destructors
and the constructor. A datatype is made of the datatypes that its argument types apply, so that
creation is recursion on the datatype, and each instance is created only once. -/

namespace SetLang

/-- The type of what stands for a constructor: the functions from its arguments into the type. -/
def constructorType (args : List Ty) (type : Ty) : Ty :=
  match Ty.productOf? args with
  | some domain => .relation domain type
  | none => type

/-- An instance whose representation is being created: its encoded arguments and the type that
stands for it. -/
structure PartialRepresentation where
  source : Instance
  params : List Ty
  type : Ty

namespace PartialRepresentation

def represents (r : PartialRepresentation) (t : Ty) : Bool := t == r.source.type

def sourceType? (r : PartialRepresentation) (t : ArgTy) : Option Ty :=
  ArgTy.instantiate? t r.source.args r.source.type

end PartialRepresentation

namespace Encode

def orOutOfRange {α : Type} : Option α → Encode α
  | some a => return a
  | none => throw (.misuse .indexOutOfRange)

/-- The latest representation of an instance; if there is none, the one that `create` makes is
kept. -/
def represented (i : Instance) (create : Encode Representation) : Encode Representation := do
  let t ← current
  if let some r := t.representation? i then return r
  if !t.source.hasDatatype i.datatype then fail (.unknownDatatype i.datatype.name)
  let r ← create
  update fun t => { t with representations := t.representations ++ [r] }
  return r

def create (i : Instance) (params : List Ty)
    (constructors : PartialRepresentation → Encode (List ConstructorImage)) :
    Encode Representation := do
  let name := i.datatype.name
  let hasSets := i.datatype.hasArguments && !i.args.isEmpty
  let type ← freshGiven (if hasSets then name ++ "_Type" else name)
  let typeExpr ← liftM ((← target).typeExpr type)
  let setConstructor ←
    if hasSets then some <$> freshIdentifier name (constructorType params type) else pure none
  return ⟨i, params, type, typeExpr, setConstructor, ← constructors ⟨i, params, type⟩⟩

/-- A function from a type to the type of an argument. Arguments without a name have one too. -/
def freshDestructor (name : Option String) (type argType : Ty) : Encode Expr :=
  freshIdentifier (name.getD "d") (.relation type argType)

end Encode

mutual

/-- Creates the representation of the instance of a datatype for type arguments, which are given
with their encodings. -/
def Datatype.represent : Datatype → List Ty → List Ty → Encode Representation
  | ⟨name, formals, cs⟩, args, params =>
    Encode.create ⟨⟨name, formals, cs⟩, args⟩ params (constructorImages cs)

def constructorImages : List Constructor → PartialRepresentation → Encode (List ConstructorImage)
  | [], _ => return []
  | c :: cs, r => do
    let image ← constructorImage c r
    return image :: (← constructorImages cs r)

def constructorImage : Constructor → PartialRepresentation → Encode ConstructorImage
  | ⟨symbol, as⟩, r => do
    let images ← argumentImages as r
    let argTypes := images.map (·.1)
    let function ← Encode.freshIdentifier symbol (constructorType argTypes r.type)
    return ⟨function, argTypes, images.map (·.2)⟩

def argumentImages : List Argument → PartialRepresentation → Encode (List (Ty × Expr))
  | [], _ => return []
  | a :: as, r => do
    let image ← argumentImage a r
    return image :: (← argumentImages as r)

def argumentImage : Argument → PartialRepresentation → Encode (Ty × Expr)
  | ⟨name, t⟩, r => do
    if (r.sourceType? t).isNone then throw (.misuse .indexOutOfRange)
    let type ← argumentType true t r
    return (type, ← Encode.freshDestructor name r.type type)

/-- Encodes an argument type. The instance itself is recognised at the top and in a component of
a power type or a product. -/
def argumentType (top : Bool) : ArgTy → PartialRepresentation → Encode Ty
  | .leaf .self, r => return r.type
  | .leaf (.param k), r => Encode.orOutOfRange r.params[k]?
  | .boolean, _ => return .boolean
  | .given s, _ => return .given s
  | .power a, r => return .power (← argumentType top a r)
  | .product a b, r => do
    let a ← argumentType top a r
    return .product a (← argumentType top b r)
  | .data d as, r => do
    let args ← Encode.orOutOfRange (as.mapM r.sourceType?)
    if top && r.represents (.data d args) then return r.type
    else return (← Encode.represented ⟨d, args⟩ do d.represent args (← argumentTypes as r)).type

def argumentTypes : List ArgTy → PartialRepresentation → Encode (List Ty)
  | [], _ => return []
  | a :: as, r => do
    let t ← argumentType false a r
    return t :: (← argumentTypes as r)

end

namespace Encode

mutual

def type : Ty → Encode Ty
  | .leaf v => nomatch v
  | .boolean => return .boolean
  | .given s => return .given s
  | .power a => return .power (← type a)
  | .product a b => do
    let a ← type a
    return .product a (← type b)
  | .data d as => return (← represented ⟨d, as⟩ do d.represent as (← types as)).type

def types : List Ty → Encode (List Ty)
  | [] => return []
  | a :: as => do
    let t ← type a
    return t :: (← types as)

end

def representation (i : Instance) : Encode Representation :=
  represented i do i.datatype.represent i.args (← types i.args)

def targetEnvironment : Encode Environment := do
  let entries ← (← current).env.entries.mapM fun (name, t) => do return (name, ← type t)
  return (Environment.empty.insertAll entries).extend (← current).allocated

end Encode
end SetLang
