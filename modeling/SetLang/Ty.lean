import SetLang.Datatype
import SetLang.Names

/-! Ground types: the parts of relational types, products of several types, and the passage between
ground types and type terms. -/

namespace SetLang

namespace Ty

/-- The left-nested product of the types, `none` if there are none. -/
def productOf? : List Ty → Option Ty
  | [] => none
  | t :: ts => some (ts.foldl .product t)

def base? : Ty → Option Ty
  | .power t => some t
  | _ => none

def source? : Ty → Option Ty
  | .power (.product s _) => some s
  | _ => none

def target? : Ty → Option Ty
  | .power (.product _ t) => some t
  | _ => none

def isRelation (t : Ty) : Bool := (source? t).isSome

/-- The names of the given types in a type, in increasing order. -/
def givenNames (t : Ty) : Names := .ofList t.givens

def instance? : Ty → Option Instance
  | .data d args => some ⟨d, args⟩
  | _ => none

def toTerm (t : Ty) : TyTerm := t.subst nofun

/-- The type of a given set: the power type of the given type of the same name. -/
def givenSet (name : String) : Ty := .power (.given name)

end Ty

namespace TyTerm

def toTy? (t : TyTerm) : Option Ty := t.subst? fun _ => none

end TyTerm
end SetLang
