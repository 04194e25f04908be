import Mathlib.Logic.Relation
import SetLang.Proofs.Unifier.MostGeneral

/-! Runs of a solver. Whether a call fails or not, the values that there were stay, and no variable is reached
again from its own value. So a term can be resolved by following values as far as they go, what resolves the
same keeps doing so, and a type that is known stays known. -/

namespace SetLang

namespace Unifier

variable {u u' : Unifier} {v w : TypeVar} {t : TyTerm}

def LeadsTo (u : Unifier) (v w : TypeVar) : Prop := ∃ t, u.value? v = some t ∧ w ∈ t.leaves

theorem WellFormed.not_transGen_leadsTo (h : u.WellFormed) (v : TypeVar) :
    ¬ Relation.TransGen u.LeadsTo v v := by
  obtain ⟨rank, hrank⟩ := h.acyclic
  have hlt : ∀ {x y : TypeVar}, Relation.TransGen u.LeadsTo x y → rank y < rank x := by
    intro x y hxy
    induction hxy with
    | single hxy =>
      obtain ⟨t, ht, hy⟩ := hxy
      exact hrank x t ht _ hy
    | tail _ hyz ih =>
      obtain ⟨t, ht, hz⟩ := hyz
      exact Nat.lt_trans (hrank _ t ht _ hz) ih
  exact fun hv => Nat.lt_irrefl _ (hlt hv)

/-- Resolving by following values, without a bound on their number. -/
inductive Resolves (u : Unifier) : TyTerm → TyTerm → Prop
  | free {v : TypeVar} : v < u.size → u.value? v = none → Resolves u (.leaf v) (.leaf v)
  | value {v : TypeVar} {t r : TyTerm} : u.value? v = some t → Resolves u t r → Resolves u (.leaf v) r
  | boolean : Resolves u .boolean .boolean
  | given (s : String) : Resolves u (.given s) (.given s)
  | power {a b : TyTerm} : Resolves u a b → Resolves u (.power a) (.power b)
  | product {a b c d : TyTerm} : Resolves u a c → Resolves u b d → Resolves u (.product a b) (.product c d)
  | data (d : Datatype) {as bs : List TyTerm} : List.Forall₂ (Resolves u) as bs →
    Resolves u (.data d as) (.data d bs)

theorem resolves_subst {f : TypeVar → TyTerm} (h : ∀ v ∈ t.leaves, u.Resolves (.leaf v) (f v)) :
    u.Resolves t (t.subst f) := by
  induction t using TypeTree.ind with
  | leaf v => exact h v (by simp [TypeTree.leaves])
  | boolean => exact .boolean
  | given s => exact .given s
  | power a ih => exact .power (ih h)
  | product a b iha ihb =>
    simp only [TypeTree.leaves, List.mem_append] at h
    exact .product (iha fun v hv => h v (.inl hv)) (ihb fun v hv => h v (.inr hv))
  | data d as ih =>
    simp only [TypeTree.leaves, TypeTree.leavesAll_eq, List.mem_flatMap] at h
    rw [TypeTree.subst, TypeTree.substAll_eq]
    refine .data d (List.forall₂_map_right_iff.2 (List.forall₂_same.2 fun a ha => ?_))
    exact ih a ha fun v hv => h v ⟨a, ha, hv⟩

theorem WellFormed.resolves (w : u.WellFormed) (ht : u.Allocated t) :
    u.Resolves t (t.subst u.resolution) := by
  refine resolves_subst fun v hv => ?_
  refine w.var_induction (fun v hv hfree => ?_) (fun v t hval ih => ?_) v (ht v hv)
  · rw [w.resolution_of_free hv hfree]
    exact .free hv hfree
  · rw [w.resolution_of_value? hval]
    exact .value hval (resolves_subst ih)

/-- Only free variables are left in a resolved term. -/
theorem WellFormed.free_of_mem_leaves (w : u.WellFormed) (ht : u.Allocated t) :
    ∀ v ∈ (t.subst u.resolution).leaves, v < u.size ∧ u.value? v = none := by
  intro v hv
  rw [TypeTree.leaves_subst] at hv
  obtain ⟨x, hx, hv⟩ := List.mem_flatMap.1 hv
  exact w.free_of_mem_resolution (ht x hx) v hv

/-- To resolve later is to resolve again what was resolved before. -/
theorem Extends.subst_resolution (h : Extends u u') (w : u.WellFormed) (w' : u'.WellFormed)
    (ht : u.Allocated t) : (t.subst u.resolution).subst u'.resolution = t.subst u'.resolution := by
  rw [TypeTree.subst_subst]
  refine TypeTree.subst_congr fun v hv => ?_
  refine w.var_induction (fun v hv hfree => ?_) (fun v t hval ih => ?_) v (ht v hv)
  · rw [w.resolution_of_free hv hfree]
    rfl
  · rw [w.resolution_of_value? hval, w'.resolution_of_value? (h.value v t hval), TypeTree.subst_subst]
    exact TypeTree.subst_congr ih

end Unifier

namespace Solve

open Unifier

variable {u u' : Unifier} {a b t : TyTerm} {α : Type} {x : Solve α}

inductive Call (u : Unifier) : {α : Type} → Solve α → Prop
  | fresh : Call u fresh
  | instantiate (pattern : TyTerm) : Call u (instantiate pattern)
  | instantiateWith (pattern : TyTerm) {r : Renaming} : r.Allocated u → Call u (instantiateWith pattern r)
  | unify {a b : TyTerm} : u.Allocated a → u.Allocated b → Call u (unify a b)
  | resolve {t : TyTerm} : u.Allocated t → Call u (resolve t)
  | solve {t : TyTerm} : u.Allocated t → Call u (solve t)

/-- A call keeps the solver well formed and all values, also where it fails. -/
theorem Call.later (h : Call u x) (w : u.WellFormed) : (x.run u).2.WellFormed ∧ Extends u (x.run u).2 := by
  cases h with
  | fresh => exact ⟨w.addVar, extends_addVar u⟩
  | instantiate pattern =>
    obtain ⟨r', u', hrun, hren⟩ := run_instantiateWith pattern [] u fun _ _ h => by cases h
    unfold Solve.instantiate
    rw [run_bind_ok hrun]
    exact ⟨hren.grows.wellFormed w, hren.grows.extends⟩
  | instantiateWith pattern hr =>
    obtain ⟨r', u', hrun, hren⟩ := run_instantiateWith pattern _ u hr
    rw [hrun]
    exact ⟨hren.grows.wellFormed w, hren.grows.extends⟩
  | unify ha hb =>
    have hstep := step_unify w ha hb
    exact ⟨hstep.wellFormed, hstep.later⟩
  | resolve ht =>
    rw [run_resolve w ht]
    exact ⟨w, .refl u⟩
  | solve ht =>
    rw [run_solve w ht]
    split <;> exact ⟨w, .refl u⟩

/-- Calls one after another, of which each may fail. -/
inductive Runs (u : Unifier) : Unifier → Prop
  | refl : Runs u u
  | call {u' : Unifier} {α : Type} {x : Solve α} : Runs u u' → Call u' x → Runs u (x.run u').2

theorem Runs.later (h : Runs u u') (w : u.WellFormed) : u'.WellFormed ∧ Extends u u' := by
  induction h with
  | refl => exact ⟨w, .refl u⟩
  | call _ hcall ih =>
    obtain ⟨w', hext⟩ := hcall.later ih.1
    exact ⟨w', ih.2.trans hext⟩

def Equated (u : Unifier) (a b : TyTerm) : Prop :=
  ∃ a' b', (resolve a).run u = (.ok a', u) ∧ (resolve b).run u = (.ok b', u) ∧ (a' == b') = true

theorem equated_iff (w : u.WellFormed) (ha : u.Allocated a) (hb : u.Allocated b) :
    Equated u a b ↔ (a.subst u.resolution == b.subst u.resolution) = true := by
  unfold Equated
  rw [run_resolve w ha, run_resolve w hb]
  constructor
  · rintro ⟨a', b', ha', hb', heq⟩
    cases ha'
    cases hb'
    exact heq
  · exact fun heq => ⟨_, _, rfl, rfl, heq⟩

theorem Equated.later (h : Equated u a b) (hext : Extends u u') (w : u.WellFormed) (w' : u'.WellFormed)
    (ha : u.Allocated a) (hb : u.Allocated b) : Equated u' a b := by
  rw [equated_iff w ha hb, TypeTree.beq_iff_named] at h
  rw [equated_iff w' (ha.mono hext.size) (hb.mono hext.size), ← hext.subst_resolution w w' ha,
    ← hext.subst_resolution w w' hb, TypeTree.beq_iff_named, named_subst, named_subst]
  simp only [TyTerm.under, h]

theorem run_solve_later {ty : Ty} (h : (solve t).run u = (.ok ty, u)) (hext : Extends u u')
    (w : u.WellFormed) (w' : u'.WellFormed) (ht : u.Allocated t) :
    (solve t).run u' = (.ok ty, u') := by
  rw [run_solve w ht] at h
  rw [run_solve w' (ht.mono hext.size), ← hext.subst_resolution w w' ht]
  split at h
  · rename_i ty' hty
    cases h
    have hground : (t.subst u.resolution).subst u'.resolution = t.subst u.resolution := by
      have hcongr := TypeTree.subst_congr (f := u'.resolution) (g := .leaf) fun v hv => by
        rw [leaves_eq_nil_of_toTy? hty] at hv
        cases hv
      exact hcongr.trans (TypeTree.subst_leaf _)
    rw [hground, hty]
  · cases h

/-- However calls on a new solver ended, no variable is reached again from its value. Every term has a
resolved form, which resolving finds and leaves as it is, with free variables only. Whatever calls follow,
terms that resolve to the same still do, and a known type stays known. -/
theorem values_acyclic_and_kept (h : Runs .empty u) :
    (∀ v, ¬ Relation.TransGen u.LeadsTo v v) ∧
    (∀ t, u.Allocated t → ∃ r, u.Resolves t r ∧ (resolve t).run u = (.ok r, u) ∧
      (∀ v ∈ r.leaves, v < u.size ∧ u.value? v = none) ∧ (resolve r).run u = (.ok r, u)) ∧
    ∀ u', Runs u u' →
      (∀ a b, u.Allocated a → u.Allocated b → Equated u a b → Equated u' a b) ∧
      ∀ t ty, u.Allocated t → (solve t).run u = (.ok ty, u) → (solve t).run u' = (.ok ty, u') := by
  obtain ⟨w, -⟩ := h.later wellFormed_empty
  refine ⟨w.not_transGen_leadsTo, fun t ht => ?_, fun u' h' => ?_⟩
  · have hfree := w.free_of_mem_leaves ht
    refine ⟨_, w.resolves ht, run_resolve w ht, hfree, ?_⟩
    rw [run_resolve w fun v hv => (hfree v hv).1, (Extends.refl u).subst_resolution w w ht]
  · obtain ⟨w', hext⟩ := h'.later w
    exact ⟨fun a b ha hb hab => hab.later hext w w' ha hb,
      fun t ty ht hty => run_solve_later hty hext w w' ht⟩

def clash : Solve Unit := unify (.product (.leaf 1) .boolean) (.product .boolean (.given "S"))

theorem runs_setOverVariable : Runs .empty setOverVariable :=
  .call (.call (.call .refl .fresh) .fresh) (.unify (by simp [empty, size, addVar])
    (by simp [empty, size, addVar]))

theorem call_clash : Call setOverVariable clash := by
  have hsize : setOverVariable.size = 2 := rfl
  exact .unify (by simp [hsize]) (by simp)

theorem kept_clash : (∃ e, (clash.run setOverVariable).1 = .error e) ∧
    Equated (clash.run setOverVariable).2 (.leaf 0) (.power (.leaf 1)) ∧
    (solve (.leaf 0)).run (clash.run setOverVariable).2.addVar =
      (.ok (.power .boolean), (clash.run setOverVariable).2.addVar) ∧
    ∀ v, ¬ Relation.TransGen (clash.run setOverVariable).2.LeadsTo v v := by
  have hsize : setOverVariable.size = 2 := rfl
  have hsize' : (clash.run setOverVariable).2.size = 2 := rfl
  obtain ⟨-, -, hkept⟩ := values_acyclic_and_kept runs_setOverVariable
  obtain ⟨hagree, -⟩ := hkept _ (.call .refl call_clash)
  obtain ⟨hacyclic, -, hkept'⟩ := values_acyclic_and_kept (.call runs_setOverVariable call_clash)
  obtain ⟨-, hsolve⟩ := hkept' _ (.call .refl .fresh)
  exact ⟨⟨_, rfl⟩, hagree _ _ (by simp [hsize]) (by simp [hsize]) ⟨_, _, rfl, rfl, rfl⟩,
    hsolve _ _ (by simp [hsize']) rfl, hacyclic⟩

end Solve
end SetLang
