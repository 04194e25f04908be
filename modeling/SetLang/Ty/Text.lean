import SetLang.Ty

/-! The text of types and of type terms. Products associate to the left, so that only a product on
the right of a product is parenthesised. -/

namespace SetLang

namespace TypeTree

variable {V : Type}

mutual

def text (leafText : V → String) : TypeTree Datatype V → String
  | leaf v => leafText v
  | boolean => "BOOL"
  | given s => s
  | power a => "ℙ(" ++ text leafText a ++ ")"
  | product a (product b c) =>
    text leafText a ++ " × (" ++ text leafText (product b c) ++ ")"
  | product a b => text leafText a ++ " × " ++ text leafText b
  | data d as =>
    if as.isEmpty then d.name else d.name ++ "(" ++ ", ".intercalate (textAll leafText as) ++ ")"

def textAll (leafText : V → String) : List (TypeTree Datatype V) → List String
  | [] => []
  | a :: as => text leafText a :: textAll leafText as

end

end TypeTree

namespace Ty

def text (t : Ty) : String := TypeTree.text nofun t

end Ty

namespace Instance

def text (i : Instance) : String := Ty.text i.type

end Instance

namespace TyTerm

/-- A variable is written as its number after a question mark. -/
def text (t : TyTerm) : String := TypeTree.text (fun v : TypeVar => s!"?{v}") t

end TyTerm
end SetLang
