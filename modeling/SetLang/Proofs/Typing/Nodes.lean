import SetLang.Proofs.Typing.Extensions
import SetLang.Proofs.Typing.Judgement

/-! The rule of every node asks for its scheme, given the terms of the declarations and then those of
the operands. -/

namespace SetLang

open Solve Unifier

variable {u : Unifier} {terms : List TyTerm}

namespace Expr

def ruleDecls : Expr → List Declaration
  | quantified _ _ ds _ _ => ds
  | _ => []

theorem poses_rule {e : Expr} {declTerms : List TyTerm} (w : u.WellFormed)
    (ht : ∀ t ∈ terms, u.Allocated t) (he : e.Fitting) (hterms : terms.length = e.operands.length)
    (hdecls : declTerms.length = e.ruleDecls.length) :
    Poses (e.rule (declTerms ++ terms)) some u fun θ g =>
      e.scheme.Holds (terms.map (TyTerm.under θ)) (some g) := by
  cases e with
  | quantified n op ds p e =>
    obtain ⟨t, rfl⟩ := List.length_eq_one_iff.1 hterms
    simpa [rule, scheme] using op.poses_rule w (ht t (by simp))
  | binary n op l r =>
    obtain rfl := List.eq_nil_of_length_eq_zero hdecls
    obtain ⟨a, b, rfl⟩ := List.length_eq_two.1 hterms
    exact op.poses_rule w (ht a (by simp)) (ht b (by simp))
  | unary n op a =>
    obtain rfl := List.eq_nil_of_length_eq_zero hdecls
    obtain ⟨t, rfl⟩ := List.length_eq_one_iff.1 hterms
    exact op.poses_rule w (ht t (by simp))
  | assoc n op es =>
    obtain rfl := List.eq_nil_of_length_eq_zero hdecls
    exact op.poses_rule w ht
  | atom n a t =>
    obtain rfl := List.eq_nil_of_length_eq_zero hdecls
    obtain rfl := List.eq_nil_of_length_eq_zero hterms
    exact a.poses_rule w
  | set n es t =>
    obtain rfl := List.eq_nil_of_length_eq_zero hdecls
    exact poses_members w ht
  | bool n p =>
    obtain rfl := List.eq_nil_of_length_eq_zero hdecls
    obtain rfl := List.eq_nil_of_length_eq_zero hterms
    exact Atom.truth.poses_rule w
  | bound n i t | free n x t =>
    exact (poses_fresh w).congr fun θ g => by simp [scheme, Scheme.any, Scheme.Holds]
  | extended n ext es ps t =>
    obtain rfl := List.eq_nil_of_length_eq_zero hdecls
    exact (ext.poses_rule w ht he.1 (hterms ▸ he.2)).orFresh

end Expr

namespace Pred

theorem poses_any (w : u.WellFormed) (θs : Solution → List GroundTy) :
    Poses (pure ()) noTerm u fun θ _ => Scheme.any.Holds (θs θ) none :=
  (poses_pure w fun t ht => by cases ht).congr fun θ g => by
    simp [noTerm, Scheme.holds_none, Scheme.any]

theorem poses_rule {q : Pred} (w : u.WellFormed) (ht : ∀ t ∈ terms, u.Allocated t)
    (hq : q.Fitting) (hterms : terms.length = q.operands.length) :
    Poses (q.rule terms) noTerm u fun θ _ => q.scheme.Holds (terms.map (TyTerm.under θ)) none := by
  cases q with
  | comparison n op l r =>
    obtain ⟨a, b, rfl⟩ := List.length_eq_two.1 hterms
    exact op.poses_rule w (ht a (by simp)) (ht b (by simp))
  | partition n es => exact poses_partition w ht
  | extended n ext es ps =>
    have h := (ext.poses_rule w ht hq.1 (hterms ▸ hq.2)).discard
    simp only [← Scheme.holds_none_iff] at h
    exact h
  | literal n value | not n p | connective n op p q | junction n op ps | quantified n op ds p =>
    exact poses_any w _

end Pred

namespace Assigned

def slots : Assigned → List Nat
  | values es => es.map (·.node.slot)
  | member e => [e.node.slot]
  | such ds _ => ds.map (·.slot)

/-- What the type of a target asks of the type of what is assigned to it. -/
def Relates : Assigned → GroundTy → GroundTy → Prop
  | member _, target, source => source = .power target
  | values _, target, value => target = value
  | such _ _, target, primed => target = primed

/-- The rule of an assignment relates the targets to what is assigned. -/
theorem poses_rule {a : Assigned} {targets : List TyTerm} (w : u.WellFormed)
    (ht : ∀ t ∈ targets, u.Allocated t) (hs : ∀ t ∈ terms, u.Allocated t)
    (hterms : terms.length = a.slots.length) (htargets : targets.length = a.slots.length) :
    Poses (a.rule targets terms) noTerm u fun θ _ => ∀ e ∈ targets.zip terms,
      a.Relates (TyTerm.under θ e.1) (TyTerm.under θ e.2) := by
  have hzip : ∀ e ∈ targets.zip terms, u.Allocated e.1 ∧ u.Allocated e.2 := fun e he =>
    ⟨ht e.1 (List.of_mem_zip he).1, hs e.2 (List.of_mem_zip he).2⟩
  cases a with
  | values es => exact poses_forM w _ hzip
  | such ds q => exact poses_forM w _ hzip
  | member e =>
    obtain ⟨t, rfl⟩ := List.length_eq_one_iff.1 htargets
    obtain ⟨v, rfl⟩ := List.length_eq_one_iff.1 hterms
    refine (poses_unify w (hs v (by simp)) ?_).congr fun θ g => by simp [Relates]
    simpa using ht t (by simp)

end Assigned

theorem forall_zip_iff {α α' β β' γ δ : Type} {f : α → γ} {f' : α' → γ} {g : β → δ} {g' : β' → δ}
    {xs : List α} {xs' : List α'} {ys : List β} {ys' : List β'} (h : xs.map f = xs'.map f')
    (k : ys.map g = ys'.map g') (P : γ → δ → Prop) :
    (∀ e ∈ xs.zip ys, P (f e.1) (g e.2)) ↔ ∀ e ∈ xs'.zip ys', P (f' e.1) (g' e.2) := by
  have hzip : (xs.zip ys).map (Prod.map f g) = (xs'.zip ys').map (Prod.map f' g') := by
    rw [← List.zip_map, ← List.zip_map, h, k]
  have hall : ∀ {ε ε' : Type} (f : ε → γ) (g : ε' → δ) (l : List (ε × ε')),
      (∀ e ∈ l, P (f e.1) (g e.2)) ↔ ∀ e ∈ l.map (Prod.map f g), P e.1 e.2 := fun f g l => by
    rw [List.forall_mem_map]
    rfl
  rw [hall f g, hall f' g', hzip]

theorem Typing.typesAssigned_iff {τ : Typing} {a : Assigned} {targets : List Expr}
    (h : targets.length = a.slots.length) : τ.TypesAssigned targets a ↔
      ∀ e ∈ targets.zip a.slots, a.Relates (τ.ofExpr e.1) (τ.slot e.2) := by
  cases a with
  | values es =>
    rw [Assigned.slots, List.zip_map_right, List.forall_mem_map]
    rfl
  | such ds q =>
    rw [Assigned.slots, List.zip_map_right, List.forall_mem_map]
    rfl
  | member e =>
    obtain ⟨t, rfl⟩ := List.length_eq_one_iff.1 h
    simp [TypesAssigned, Assigned.slots, Assigned.Relates, ofExpr]

end SetLang
