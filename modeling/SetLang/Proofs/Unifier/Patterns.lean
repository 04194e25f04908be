import SetLang.Proofs.Run
import SetLang.Proofs.Unifier.Resolution

/-! New variables. They have no value, so that a solver that only grew has the solutions that it had,
and each new variable can be given any tree. Instantiating a pattern renames its variables to new
ones: its instances are the trees that the renamed pattern can denote. -/

namespace SetLang

namespace Unifier

variable {u u' : Unifier} {t : TyTerm} {W : Type}

/-- The later solver has additional variables and no additional value. -/
structure Grows (u u' : Unifier) : Prop where
  size : u.size ≤ u'.size
  value : ∀ v, u'.value? v = u.value? v
  wellFormed : u.WellFormed → u'.WellFormed

theorem Grows.refl (u : Unifier) : Grows u u := ⟨Nat.le_refl _, fun _ => rfl, id⟩

theorem Grows.trans {a b c : Unifier} (h : Grows a b) (k : Grows b c) : Grows a c :=
  ⟨Nat.le_trans h.size k.size, fun v => (k.value v).trans (h.value v),
    fun w => k.wellFormed (h.wellFormed w)⟩

theorem grows_addVar (u : Unifier) : Grows u u.addVar :=
  ⟨by simp, u.value?_addVar, WellFormed.addVar⟩

theorem Grows.extends (h : Grows u u') : Extends u u' :=
  ⟨h.size, fun v _ hv => (h.value v).trans hv⟩

theorem Grows.solvedBy_iff (h : Grows u u') {θ : TypeVar → NamedTree W} :
    u'.SolvedBy θ ↔ u.SolvedBy θ := by
  simp only [SolvedBy, h.value]

/-- Solutions depend on the allocated variables alone. -/
theorem SolvedBy.congr {θ θ' : TypeVar → NamedTree W} (w : u.WellFormed) (h : u.SolvedBy θ)
    (hagree : ∀ v < u.size, θ' v = θ v) : u.SolvedBy θ' := by
  intro v t hv
  rw [hagree v (lt_size_of_value? hv), h v t hv]
  exact TyTerm.under_congr fun x hx => (hagree x (w.allocated v t hv x hx)).symm

theorem Allocated.under_congr {θ θ' : TypeVar → NamedTree W} (h : u.Allocated t)
    (hagree : ∀ v < u.size, θ' v = θ v) : TyTerm.under θ' t = TyTerm.under θ t :=
  TyTerm.under_congr fun v hv => hagree v (h v hv)

end Unifier

namespace Solve

open Unifier

variable {u u' : Unifier} {W : Type}

def Renaming.Allocated (r : Renaming) (u : Unifier) : Prop :=
  ∀ v t, r.lookup v = some t → u.Allocated t

def Renaming.Denotes (r : Renaming) (θ ρ : TypeVar → NamedTree W) : Prop :=
  ∀ v t, r.lookup v = some t → TyTerm.under θ t = ρ v

/-- The renaming `r'` also renames the variables `vars`, to new variables. -/
structure Renames (u : Unifier) (r : Renaming) (vars : List TypeVar) (u' : Unifier)
    (r' : Renaming) : Prop where
  grows : Grows u u'
  kept : ∀ v t, r.lookup v = some t → r'.lookup v = some t
  all : ∀ v ∈ vars, (r'.lookup v).isSome
  allocated : r'.Allocated u'
  lift : ∀ {W : Type} (θ ρ : TypeVar → NamedTree W), r.Denotes θ ρ →
    ∃ θ' : TypeVar → NamedTree W, (∀ v < u.size, θ' v = θ v) ∧ r'.Denotes θ' ρ

theorem renames_nil {r : Renaming} (hr : r.Allocated u) : Renames u r [] u r :=
  ⟨.refl u, fun _ _ h => h, by simp, hr, fun θ _ h => ⟨θ, fun _ _ => rfl, h⟩⟩

/-- One variable more gets a new name. -/
theorem renames_fresh {r : Renaming} (hr : r.Allocated u) {v : TypeVar} (hv : r.lookup v = none) :
    Renames u r [v] u.addVar ((v, .leaf u.size) :: r) := by
  have hcons : ∀ w t, List.lookup w ((v, TypeTree.leaf u.size) :: r) = some t →
      (w = v ∧ t = .leaf u.size) ∨ r.lookup w = some t := by
    intro w t h
    rw [List.lookup_cons] at h
    by_cases hwv : w = v
    · subst hwv
      simp only [beq_self_eq_true, Option.some.injEq] at h
      exact .inl ⟨rfl, h.symm⟩
    · rw [beq_eq_false_iff_ne.2 hwv] at h
      exact .inr h
  refine ⟨grows_addVar u, fun w t h => ?_, ?_, fun w t h => ?_, fun θ ρ hd => ?_⟩
  · rw [List.lookup_cons, beq_eq_false_iff_ne.2 (by rintro rfl; simp [hv] at h)]
    exact h
  · simp
  · rcases hcons w t h with ⟨-, rfl⟩ | h
    · simp
    · exact (hr w t h).mono (by simp)
  · refine ⟨Function.update θ u.size (ρ v), fun w hw => ?_, fun w t h => ?_⟩
    · exact Function.update_of_ne (Nat.ne_of_lt hw) ..
    · rcases hcons w t h with ⟨rfl, rfl⟩ | h
      · simp
      · rw [← hd w t h]
        exact (hr w t h).under_congr fun x hx => Function.update_of_ne (Nat.ne_of_lt hx) ..

theorem Renames.trans {u'' : Unifier} {r r' r'' : Renaming} {vs vs' : List TypeVar}
    (h : Renames u r vs u' r') (k : Renames u' r' vs' u'' r'') :
    Renames u r (vs ++ vs') u'' r'' := by
  refine ⟨h.grows.trans k.grows, fun v t hv => k.kept v t (h.kept v t hv), fun v hv => ?_,
    k.allocated, fun θ ρ hd => ?_⟩
  · rcases List.mem_append.1 hv with hv | hv
    · obtain ⟨t, ht⟩ := Option.isSome_iff_exists.1 (h.all v hv)
      simp [k.kept v t ht]
    · exact k.all v hv
  · obtain ⟨θ₁, hagree, hd₁⟩ := h.lift θ ρ hd
    obtain ⟨θ₂, hagree₂, hd₂⟩ := k.lift θ₁ ρ hd₁
    exact ⟨θ₂, fun v hv => (hagree₂ v (Nat.lt_of_lt_of_le hv h.grows.size)).trans (hagree v hv),
      hd₂⟩

theorem run_extend (vars : List TypeVar) (r : Renaming) (u : Unifier) (hr : r.Allocated u) :
    ∃ r' u', (extend r vars).run u = (.ok r', u') ∧ Renames u r vars u' r' := by
  unfold extend
  induction vars generalizing r u with
  | nil => exact ⟨r, u, rfl, renames_nil hr⟩
  | cons v vars ih =>
    rw [List.foldlM_cons]
    cases hv : r.lookup v with
    | some t =>
      obtain ⟨r', u', hrun, h⟩ := ih r u hr
      have hself : Renames u r [v] u r := by
        refine ⟨.refl u, fun _ _ h => h, fun x hx => ?_, hr, fun θ _ h => ⟨θ, fun _ _ => rfl, h⟩⟩
        obtain rfl : x = v := by simpa using hx
        rw [hv]
        rfl
      refine ⟨r', u', ?_, hself.trans h⟩
      rw [← hrun]
      simp
    | none =>
      have hone := renames_fresh hr hv
      obtain ⟨r', u', hrun, h⟩ := ih _ _ hone.allocated
      refine ⟨r', u', ?_, hone.trans h⟩
      rw [← hrun]
      rfl

/-- The renamed pattern denotes what the pattern denotes for the originals. -/
theorem under_rename {r : Renaming} {θ ρ : TypeVar → NamedTree W} {pattern : TyTerm}
    (hall : ∀ v ∈ pattern.leaves, (r.lookup v).isSome) (h : r.Denotes θ ρ) :
    TyTerm.under θ (rename r pattern) = TyTerm.under ρ pattern := by
  rw [rename, TyTerm.under_subst]
  refine TyTerm.under_congr fun v hv => ?_
  obtain ⟨t, ht⟩ := Option.isSome_iff_exists.1 (hall v hv)
  simp [ht, h v t ht]

/-- Whatever the terms of a renaming denote, the originals can be read off. -/
theorem Renaming.exists_denotes (r : Renaming) (θ : TypeVar → NamedTree W) :
    ∃ ρ : TypeVar → NamedTree W, r.Denotes θ ρ :=
  ⟨fun v => TyTerm.under θ (rename r (.leaf v)), fun v t ht => by
    simp [rename, TypeTree.subst, ht]⟩

theorem Renaming.Allocated.rename {r : Renaming} {pattern : TyTerm} (h : r.Allocated u)
    (hall : ∀ v ∈ pattern.leaves, (r.lookup v).isSome) : u.Allocated (rename r pattern) := by
  intro x hx
  rw [Solve.rename, TypeTree.leaves_subst] at hx
  obtain ⟨v, hv, hx⟩ := List.mem_flatMap.1 hx
  obtain ⟨t, ht⟩ := Option.isSome_iff_exists.1 (hall v hv)
  rw [ht] at hx
  exact h v t ht x hx

theorem run_instantiateWith (pattern : TyTerm) (r : Renaming) (u : Unifier) (hr : r.Allocated u) :
    ∃ r' u', (instantiateWith pattern r).run u = (.ok (rename r' pattern, r'), u') ∧
      Renames u r pattern.leaves u' r' := by
  obtain ⟨r', u', hrun, h⟩ := run_extend pattern.leaves r u hr
  refine ⟨r', u', ?_, h⟩
  unfold instantiateWith
  rw [run_bind_ok hrun]
  rfl

end Solve
end SetLang
