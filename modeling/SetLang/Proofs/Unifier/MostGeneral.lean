import SetLang.Proofs.Unifier.Patterns
import SetLang.Proofs.Unifier.Solving

/-! The solver computes most general solutions. A solver that was made by calls none of which failed
has exactly the solutions of the equations that it was given: solving keeps each of them and adds
none, and new variables are free. So the next equation fails exactly if the equations have no
solution together, and what the solver knows of a term is what all solutions agree on. -/

namespace SetLang

variable {V : Type}

def Solves [BEq V] (θ : TypeVar → TypeTree Datatype V) (eqs : List (TyTerm × TyTerm)) : Prop :=
  ∀ e ∈ eqs, (e.1.subst θ == e.2.subst θ) = true

theorem named_subst (θ : TypeVar → TypeTree Datatype V) (t : TyTerm) :
    (t.subst θ).named = TyTerm.under (fun v => (θ v).named) t :=
  TypeTree.mapData_subst ..

theorem beq_subst_iff [BEq V] [LawfulBEq V] {θ θ' : TypeVar → TypeTree Datatype V} {t t' : TyTerm} :
    (t.subst θ == t'.subst θ') = true ↔
      TyTerm.under (fun v => (θ v).named) t = TyTerm.under (fun v => (θ' v).named) t' := by
  rw [TypeTree.beq_iff_named, named_subst, named_subst]

namespace Solve

open Unifier

/-- The solvers that calls make none of which fails, with the equations that they were given. -/
inductive Solving : Unifier → List (TyTerm × TyTerm) → Prop
  | new : Solving .empty []
  | fresh {u u' : Unifier} {eqs : List (TyTerm × TyTerm)} {t : TyTerm} : Solving u eqs →
      fresh.run u = (.ok t, u') → Solving u' eqs
  | instantiate {u u' : Unifier} {eqs : List (TyTerm × TyTerm)} {pattern : TyTerm} {r : Renaming}
      {x : TyTerm × Renaming} : Solving u eqs → r.Allocated u →
      (instantiateWith pattern r).run u = (.ok x, u') → Solving u' eqs
  | unify {u u' : Unifier} {eqs : List (TyTerm × TyTerm)} {a b : TyTerm} : Solving u eqs →
      u.Allocated a → u.Allocated b → (unify a b).run u = (.ok (), u') →
      Solving u' (eqs ++ [(a, b)])

variable {u u' : Unifier} {eqs : List (TyTerm × TyTerm)} {a b t : TyTerm} {W : Type}

theorem Solving.wellFormed (h : Solving u eqs) : u.WellFormed := by
  induction h with
  | new => exact wellFormed_empty
  | fresh _ hrun ih =>
    cases hrun
    exact ih.addVar
  | @instantiate u u' eqs pattern r x _ hr hrun ih =>
    obtain ⟨_, _, hrun', hren⟩ := run_instantiateWith pattern r u hr
    rw [hrun'] at hrun
    cases hrun
    exact hren.grows.wellFormed ih
  | unify _ ha hb hrun ih =>
    have hstep := step_unify ih ha hb
    rw [hrun] at hstep
    exact hstep.wellFormed

/-- The solutions of the solver are those of the equations. -/
theorem Solving.solvedBy_iff (h : Solving u eqs) {θ : TypeVar → NamedTree W} :
    u.SolvedBy θ ↔ ∀ e ∈ eqs, TyTerm.under θ e.1 = TyTerm.under θ e.2 := by
  induction h with
  | new => exact ⟨fun _ e he => by simp at he, fun _ v t hv => by simp [value?, var?, empty] at hv⟩
  | fresh _ hrun ih =>
    cases hrun
    rw [(grows_addVar _).solvedBy_iff, ih]
  | @instantiate u u' eqs pattern r x _ hr hrun ih =>
    obtain ⟨_, _, hrun', hren⟩ := run_instantiateWith pattern r u hr
    rw [hrun'] at hrun
    cases hrun
    rw [hren.grows.solvedBy_iff, ih]
  | unify hs ha hb hrun ih =>
    have hstep := step_unify hs.wellFormed ha hb
    rw [hrun] at hstep
    constructor
    · intro hθ e he
      rcases List.mem_append.1 he with he | he
      · exact ih.1 (hθ.of_extends hstep.later) e he
      · exact hstep.entails rfl e he θ hθ
    · intro hθ
      have hold := ih.2 fun e he => hθ e (List.mem_append_left _ he)
      obtain ⟨_, _, hrun', -, -, hnew⟩ :=
        keeps_unify hs.wellFormed ha hb hold (hθ (_, _) (by simp))
      rw [hrun] at hrun'
      cases hrun'
      exact hnew

theorem Solving.solvedBy_iff_solves [BEq V] [LawfulBEq V] (h : Solving u eqs)
    {θ : TypeVar → TypeTree Datatype V} :
    u.SolvedBy (fun v => (θ v).named) ↔ Solves θ eqs := by
  simp only [h.solvedBy_iff, Solves, beq_subst_iff]

/-- The solver reads off a most general solution of the equations: resolving is a solution, every
solution factors through it, and a term has a known type if all ground solutions give it this
type. -/
structure MostGeneral (u : Unifier) (eqs : List (TyTerm × TyTerm)) : Prop where
  solution : ∃ σ : TypeVar → TyTerm,
    Solves σ eqs ∧ ∀ t, u.Allocated t → (resolve t).run u = (.ok (t.subst σ), u)
  factors : ∀ θ : TypeVar → TyTerm, Solves θ eqs → ∀ t r, u.Allocated t →
    (resolve t).run u = (.ok r, u) → (r.subst θ == t.subst θ) = true
  known : ∀ t ty, u.Allocated t → ((∃ ty', (solve t).run u = (.ok ty', u) ∧ (ty' == ty) = true) ↔
    ∀ θ : TypeVar → Ty, Solves θ eqs → (t.subst θ == ty) = true)

theorem run_solve (w : u.WellFormed) (ht : u.Allocated t) :
    (solve t).run u = match TyTerm.toTy? (t.subst u.resolution) with
      | some ty => (.ok ty, u)
      | none => (.error (.error (.unsolved (t.subst u.resolution))), u) := by
  unfold solve
  rw [run_bind_ok (run_resolve w ht)]
  cases TyTerm.toTy? (t.subst u.resolution) <;> rfl

theorem toTy?_of_leaves_eq_nil (h : t.leaves = []) (θ : TypeVar → Ty) :
    TyTerm.toTy? t = some (t.subst θ) :=
  TypeTree.subst?_eq_some fun v hv => by simp [h] at hv

theorem leaves_eq_nil_of_toTy? {ty : Ty} (h : TyTerm.toTy? t = some ty) : t.leaves = [] :=
  List.eq_nil_iff_forall_not_mem.2 fun v hv => by
    simpa using (TypeTree.subst?_eq_some_iff.1 h).1 v hv

/-- A term with variables denotes different types for different substitutions. -/
theorem leaves_eq_nil_of_under_eq (h : TyTerm.under (fun _ => (.boolean : NamedTree Empty)) t =
    TyTerm.under (fun _ => .power .boolean) t) : t.leaves = [] := by
  refine List.eq_nil_iff_forall_not_mem.2 fun v hv => ?_
  have hv' : v ∈ t.named.leaves := by simpa [TypeTree.named] using hv
  cases TypeTree.subst_eq_iff.1 h v hv'

/-- A term is solved if all solutions say the same of it; otherwise two of them disagree. -/
theorem solve_known_or_open (w : u.WellFormed) (ht : u.Allocated t) :
    (∃ ty, (solve t).run u = (.ok ty, u) ∧
        ∀ θ : TypeVar → NamedTree Empty, u.SolvedBy θ → TyTerm.under θ t = ty.named) ∨
      ∃ e, (solve t).run u = (.error (.error e), u) ∧ ∃ θ θ' : TypeVar → NamedTree Empty,
        u.SolvedBy θ ∧ u.SolvedBy θ' ∧ TyTerm.under θ t ≠ TyTerm.under θ' t := by
  rw [run_solve w ht]
  cases h : TyTerm.toTy? (t.subst u.resolution) with
  | some ty =>
    refine .inl ⟨ty, rfl, fun θ hθ => ?_⟩
    have hty := toTy?_of_leaves_eq_nil (leaves_eq_nil_of_toTy? h) fun _ => .boolean
    rw [h, Option.some.injEq] at hty
    rw [← w.under_subst_resolution hθ ht, hty, named_subst]
    exact TyTerm.under_congr fun v hv => by simp [leaves_eq_nil_of_toTy? h] at hv
  | none =>
    refine .inr ⟨_, rfl, _, _, w.solvedBy_under_resolution fun _ => .boolean,
      w.solvedBy_under_resolution fun _ => .power .boolean, fun heq => ?_⟩
    rw [← TyTerm.under_subst, ← TyTerm.under_subst] at heq
    rw [toTy?_of_leaves_eq_nil (leaves_eq_nil_of_under_eq heq) fun _ => .boolean] at h
    cases h

theorem Solving.mostGeneral (h : Solving u eqs) : MostGeneral u eqs := by
  have w := h.wellFormed
  have hfactors : ∀ {V : Type} [BEq V] [LawfulBEq V] (θ : TypeVar → TypeTree Datatype V),
      Solves θ eqs → ∀ t, u.Allocated t →
        ((t.subst u.resolution).subst θ == t.subst θ) = true := by
    intro V _ _ θ hθ t ht
    rw [beq_subst_iff]
    exact w.under_subst_resolution (h.solvedBy_iff_solves.2 hθ) ht
  refine ⟨⟨u.resolution, h.solvedBy_iff_solves.1 w.solvedBy_resolution,
    fun t ht => run_resolve w ht⟩, fun θ hθ t r ht hr => ?_, fun t ty ht => ⟨?_, fun hall => ?_⟩⟩
  · rw [run_resolve w ht] at hr
    cases hr
    exact hfactors θ hθ t ht
  · rintro ⟨ty', hrun, hty⟩ θ hθ
    rw [run_solve w ht] at hrun
    split at hrun
    · rename_i ty'' hty'
      cases hrun
      have hground := toTy?_of_leaves_eq_nil (leaves_eq_nil_of_toTy? hty') θ
      rw [hty', Option.some.injEq] at hground
      have hf := hfactors θ hθ t ht
      rw [← hground, TypeTree.beq_iff_named] at hf
      rw [TypeTree.beq_iff_named] at hty ⊢
      exact hf.symm.trans hty
    · cases hrun
  · have hground : ∀ c : Ty,
        TyTerm.under (fun _ => c.named) (t.subst u.resolution) = ty.named := by
      intro c
      have hc : Solves (fun v => (u.resolution v).subst fun _ => c) eqs := by
        rw [← h.solvedBy_iff_solves]
        simpa only [named_subst] using w.solvedBy_under_resolution fun _ => c.named
      have hty := hall _ hc
      rwa [TypeTree.beq_iff_named, ← TypeTree.subst_subst, named_subst] at hty
    have hnil := leaves_eq_nil_of_under_eq ((hground .boolean).trans (hground (.power .boolean)).symm)
    have hsolved := toTy?_of_leaves_eq_nil hnil fun _ => .boolean
    refine ⟨(t.subst u.resolution).subst fun _ => .boolean, ?_, ?_⟩
    · rw [run_solve w ht, hsolved]
    · rw [TypeTree.beq_iff_named, named_subst]
      exact hground .boolean

/-- The next equation is solved if and only if the equations have a solution together, and then the
solver is most general for all of them; otherwise it is a type error. -/
theorem unify_most_general (h : Solving u eqs) (ha : u.Allocated a) (hb : u.Allocated b) :
    (((unify a b).run u).1 = .ok () ↔ ∃ θ : TypeVar → TyTerm, Solves θ (eqs ++ [(a, b)])) ∧
      (∀ e, ((unify a b).run u).1 = .error e → ∃ reason, e = .error reason) ∧
      ∀ u', (unify a b).run u = (.ok (), u') → MostGeneral u' (eqs ++ [(a, b)]) := by
  have hok : ∀ u', (unify a b).run u = (.ok (), u') → MostGeneral u' (eqs ++ [(a, b)]) :=
    fun u' hrun => (Solving.unify h ha hb hrun).mostGeneral
  refine ⟨⟨fun hrun => ?_, fun ⟨θ, hθ⟩ => ?_⟩, (step_unify h.wellFormed ha hb).fault, hok⟩
  · obtain ⟨σ, hσ, -⟩ := (hok _ (Prod.ext hrun rfl)).solution
    exact ⟨σ, hσ⟩
  · have hold : u.SolvedBy fun v => (θ v).named :=
      h.solvedBy_iff_solves.2 fun e he => hθ e (List.mem_append_left _ he)
    obtain ⟨_, u', hrun, -⟩ := keeps_unify h.wellFormed ha hb hold
      (beq_subst_iff.1 (hθ (a, b) (by simp)))
    rw [hrun]

def setOverVariable : Unifier := ((unify (.leaf 0) (.power (.leaf 1))).run empty.addVar.addVar).2

theorem unify_power_boolean : ∃ u', (unify (.leaf 0) (.power .boolean)).run setOverVariable =
    (.ok (), u') ∧ MostGeneral u' [(.leaf 0, .power (.leaf 1)), (.leaf 0, .power .boolean)] := by
  have h : Solving setOverVariable [(.leaf 0, .power (.leaf 1))] :=
    .unify (.fresh (.fresh .new rfl) rfl) (by simp [empty, size, addVar])
      (by simp [empty, size, addVar]) rfl
  have hsize : setOverVariable.size = 2 := rfl
  obtain ⟨-, -, hmost⟩ := unify_most_general (a := .leaf 0) (b := .power .boolean) h
    (by simp [hsize]) (by simp)
  exact ⟨_, rfl, hmost _ rfl⟩

end Solve
end SetLang
