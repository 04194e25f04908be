import Mathlib.Data.List.Forall2
import SetLang.Formula.Equality

/-! Structural equality as a relation. -/

namespace SetLang

abbrev Expr.Same (e e' : Expr) : Prop := e.same e' = true

abbrev Pred.Same (p p' : Pred) : Prop := p.same p' = true

theorem Declaration.sameNames_iff {bs bs' : List Declaration} :
    sameNames bs bs' = true ↔ bs.map (·.name) = bs'.map (·.name) := by
  induction bs generalizing bs' with
  | nil => cases bs' <;> simp [sameNames]
  | cons b bs ih => cases bs' <;> simp [sameNames, ih]

theorem Expr.sameAll_iff {es es' : List Expr} :
    Expr.sameAll es es' = true ↔ List.Forall₂ Expr.Same es es' := by
  induction es generalizing es' with
  | nil => cases es' <;> simp [Expr.sameAll]
  | cons e es ih => cases es' <;> simp [Expr.sameAll, ih]

theorem Pred.sameAll_iff {ps ps' : List Pred} :
    Pred.sameAll ps ps' = true ↔ List.Forall₂ Pred.Same ps ps' := by
  induction ps generalizing ps' with
  | nil => cases ps' <;> simp [Pred.sameAll]
  | cons p ps ih => cases ps' <;> simp [Pred.sameAll, ih]

theorem Extension.beq_refl (ext : Extension) : (ext == ext) = true := beq_self_eq_true ext.id

mutual

theorem Expr.same_refl : ∀ e : Expr, e.same e = true
  | .binary _ _ a b => by simp [Expr.same, a.same_refl, b.same_refl]
  | .unary _ _ a => by simp [Expr.same, a.same_refl]
  | .assoc _ _ es => by simp [Expr.same, Expr.sameAll_refl es]
  | .atom _ _ _ => by simp [Expr.same]
  | .set _ es _ => by simp [Expr.same, Expr.sameAll_refl es]
  | .bool _ p => by simp [Expr.same, p.same_refl]
  | .quantified _ _ _ p e => by
    simp [Expr.same, p.same_refl, e.same_refl, Declaration.sameNames_iff]
  | .bound _ _ _ => by simp [Expr.same]
  | .free _ _ _ => by simp [Expr.same]
  | .extended _ ext es ps _ => by
    simp [Expr.same, Expr.sameAll_refl es, Pred.sameAll_refl ps, ext.beq_refl]

theorem Expr.sameAll_refl : ∀ es : List Expr, Expr.sameAll es es = true
  | [] => rfl
  | e :: es => by simp [Expr.sameAll, e.same_refl, Expr.sameAll_refl es]

theorem Pred.same_refl : ∀ p : Pred, p.same p = true
  | .literal _ _ => by simp [Pred.same]
  | .not _ p => by simp [Pred.same, p.same_refl]
  | .connective _ _ p q => by simp [Pred.same, p.same_refl, q.same_refl]
  | .junction _ _ ps => by simp [Pred.same, Pred.sameAll_refl ps]
  | .comparison _ _ a b => by simp [Pred.same, a.same_refl, b.same_refl]
  | .partition _ es => by simp [Pred.same, Expr.sameAll_refl es]
  | .quantified _ _ _ p => by simp [Pred.same, p.same_refl, Declaration.sameNames_iff]
  | .extended _ ext es ps => by
    simp [Pred.same, Expr.sameAll_refl es, Pred.sameAll_refl ps, ext.beq_refl]

theorem Pred.sameAll_refl : ∀ ps : List Pred, Pred.sameAll ps ps = true
  | [] => rfl
  | p :: ps => by simp [Pred.sameAll, p.same_refl, Pred.sameAll_refl ps]

end

end SetLang
