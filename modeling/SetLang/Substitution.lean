import SetLang.Rebuild

/-! Substitutions: expressions for free identifiers, expressions for the outermost bound identifiers
of a formula, and names for given types. A replacement is put in place of each occurrence as it is,
without a copy. -/

namespace SetLang

mutual

def TypeTree.mapGivens {D V : Type} (f : String → String) : TypeTree D V → TypeTree D V
  | .leaf v => .leaf v
  | .boolean => .boolean
  | .given s => .given (f s)
  | .power a => .power (a.mapGivens f)
  | .product a b => .product (a.mapGivens f) (b.mapGivens f)
  | .data d as => .data d (TypeTree.mapGivensAll f as)

def TypeTree.mapGivensAll {D V : Type} (f : String → String) :
    List (TypeTree D V) → List (TypeTree D V)
  | [] => []
  | a :: as => a.mapGivens f :: TypeTree.mapGivensAll f as

end

/-- The name that a list of pairs gives to a name; the first pair counts. -/
def renamed (pairs : List (String × String)) (s : String) : String := (pairs.lookup s).getD s

/-- Expressions for free identifiers; the last pair for a name counts. -/
structure Substitution where
  pairs : List (String × Expr)

namespace Substitution

def replacement? (σ : Substitution) (name : String) : Option Expr := σ.pairs.reverse.lookup name

def rebuilder (σ : Substitution) (f : Factory) : Rebuilder Build :=
  { Rebuilder.copy f pure with
    free := fun name t =>
      match σ.replacement? name with
      | some e => return e
      | none => f.free name t }

end Substitution

namespace Rebuilder

def renameGivens (f : Factory) (pairs : List (String × String)) : Rebuilder Build :=
  .copy f fun t => return t.mapGivens (renamed pairs)

/-- Replaces the bound identifiers that refer to declarations around the formula: the last
replacement stands for the innermost of these. Identifiers of declarations further out are lowered
by the number of replacements. -/
def instantiation (f : Factory) (replacements : List Expr) : Rebuilder Build :=
  { copy f pure with
    bound := fun index depth t =>
      if index < depth then f.bound index t
      else
        match replacements.reverse[index - depth]? with
        | some e => return e
        | none => f.bound (index - replacements.length) t }

end Rebuilder

namespace Pred

def instantiate (p : Pred) (replacements : List Expr) : Build Pred := do
  (Rebuilder.instantiation p.factory replacements).pred (← get) 0 p

end Pred
end SetLang
