import SetLang.Ty

/-! Type environments: the types of free identifiers, in the order of their names. -/

namespace SetLang

/-- Names in increasing order with their types. -/
structure Environment where
  entries : List (String × Ty)

namespace Environment

def empty : Environment := ⟨[]⟩

def place (name : String) (t : Ty) : List (String × Ty) → List (String × Ty)
  | [] => [(name, t)]
  | (x, u) :: rest =>
    if name < x then (name, t) :: (x, u) :: rest
    else if name = x then (name, t) :: rest
    else (x, u) :: place name t rest

/-- Gives a name its type, in place of an earlier one. -/
def insert (env : Environment) (name : String) (t : Ty) : Environment :=
  ⟨place name t env.entries⟩

/-- Declares a given set. -/
def insertGiven (env : Environment) (name : String) : Environment :=
  env.insert name (Ty.givenSet name)

def get? (env : Environment) (name : String) : Option Ty := env.entries.lookup name

def contains (env : Environment) (name : String) : Bool := (env.get? name).isSome

def size (env : Environment) : Nat := env.entries.length

def isEmpty (env : Environment) : Bool := env.entries.isEmpty

def names (env : Environment) : List String := env.entries.map (·.1)

def insertAll (env : Environment) (entries : List (String × Ty)) : Environment :=
  entries.foldl (fun env e => env.insert e.1 e.2) env

/-- The environment extended by another, whose types win. -/
def extend (env new : Environment) : Environment := env.insertAll new.entries

end Environment
end SetLang
