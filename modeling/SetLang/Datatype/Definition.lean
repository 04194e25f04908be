import SetLang.Datatype

/-! Which definitions of datatypes are accepted. The symbols of a datatype are its name, the symbols
of its constructors and the names of its destructors; they are pairwise distinct. Argument types
refer to existing parameters only, and to the datatype itself only in positive places. -/

namespace SetLang

inductive DatatypeError where
  | noConstructor (datatype : String)
  | duplicateSymbol (datatype symbol : String)
  | unknownParameter (datatype : String) (index : Nat)
  | illegalRecursion (datatype constructor : String)
deriving DecidableEq

namespace DatatypeError

def message : DatatypeError → String
  | noConstructor d => s!"datatype {d} has no constructor"
  | duplicateSymbol d s => s!"symbol {s} is declared twice in datatype {d}"
  | unknownParameter d i => s!"datatype {d} has no type parameter #{i}"
  | illegalRecursion d c =>
    s!"recursive occurrence of datatype {d} in argument of {c} is not positive"

end DatatypeError

namespace Datatype

/-- The constructors' symbols, then the destructors' names, in order. -/
def memberSymbols (d : Datatype) : List String :=
  d.constructors.map (·.symbol)
    ++ d.constructors.flatMap fun c => c.arguments.filterMap (·.destructor)

/-- The first member of the list that is in `seen` or stands earlier in the list. -/
def firstRepeated? (seen : List String) : List String → Option String
  | [] => none
  | s :: rest => if seen.contains s then some s else firstRepeated? (s :: seen) rest

def checkArgument (d : Datatype) (c : Constructor) (a : Argument) : Except DatatypeError Unit := do
  if let some i := ArgTy.maxParam? a.type then
    if d.params.length ≤ i then throw (.unknownParameter d.name i)
  if ArgTy.hasNestedSelf true a.type then throw (.illegalRecursion d.name c.symbol)

def check (d : Datatype) : Except DatatypeError Unit := do
  if d.constructors.isEmpty then throw (.noConstructor d.name)
  if let some s := firstRepeated? [d.name] d.memberSymbols then
    throw (.duplicateSymbol d.name s)
  d.constructors.forM fun c => c.arguments.forM (d.checkArgument c)

def define (name : String) (params : List String) (constructors : List Constructor) :
    Except DatatypeError Datatype := do
  let d : Datatype := ⟨name, params, constructors⟩
  d.check
  return d

end Datatype
end SetLang
