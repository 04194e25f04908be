import SetLang.Formula.Text
import SetLang.Store
import SetLang.Text.Quoted
import SetLang.Unifier

/-! Diagnostic texts, which name the kind of a value and show what it holds. -/

namespace SetLang

namespace Ty

mutual

def diagnostic : Ty → String
  | .leaf v => nomatch v
  | .boolean => "Boolean"
  | .given s => "Given(" ++ Quoted.text s ++ ")"
  | .power a => "Power(" ++ diagnostic a ++ ")"
  | .product a b => "Product(" ++ diagnostic a ++ ", " ++ diagnostic b ++ ")"
  | .data d as =>
    "Parametric(ParametricType \x7b datatype: DatatypeRef(" ++ d.name ++ "), params: ["
      ++ commaSeparated (diagnostics as) ++ "] \x7d)"

def diagnostics : List Ty → List String
  | [] => []
  | a :: as => diagnostic a :: diagnostics as

end

end Ty

namespace Datatype

def diagnostic (d : Datatype) : String := "DatatypeRef(" ++ d.name ++ ")"

end Datatype

namespace Extension

def diagnostic (e : Extension) : String := "ExtensionRef(" ++ e.id ++ ")"

end Extension

namespace Unifier

def diagnostic (u : Unifier) : String := "TypeUnifier \x7b vars: " ++ toString u.size ++ " \x7d"

end Unifier

namespace Language

def diagnostic (l : Language) : String :=
  "FormulaFactory \x7b version: " ++ l.version.text ++ ", extensions: ["
    ++ commaSeparated (l.extensionIds.map Quoted.text) ++ "] \x7d"

end Language

namespace Declaration

def diagnostic (s : Store) (d : Declaration) : String :=
  let state :=
    match d.type? s with
    | some t => "Resolved(" ++ Ty.diagnostic t ++ ")"
    | none => "Unresolved"
  "BoundIdentDecl \x7b name: " ++ Quoted.text d.name ++ ", ty: " ++ state ++ " \x7d"

end Declaration

namespace Formula

def diagnostic (s : Store) : Formula → String
  | expr e => "Expression(" ++ e.text ++ ")"
  | pred p => "Predicate(" ++ p.text ++ ")"
  | assignment a => "Assignment(" ++ a.text ++ ")"
  | decl d => d.diagnostic s

end Formula
end SetLang
