import SetLang.Proofs.Typing.Constraint
import SetLang.Typing.Rule

/-! The rules of the checker are the schemes: the rule of each node asks exactly for an instance of its
scheme. Most rules allocate variables, equate the children with patterns and return a pattern. -/

namespace SetLang

open Solve Unifier

namespace Scheme

variable {p q r : TyTerm} {ps : List TyTerm} {result : Option TyTerm} {ρ : TypeVar → GroundTy}
  {a b g : GroundTy} {gs : List GroundTy}

@[simp] theorem matches_nil {σ : Scheme} : σ.Matches ρ [] := fun i g p h => by simp at h

@[simp] theorem matches_of_no_pattern : (Scheme.mk [] result).Matches ρ gs := fun i g p _ h => by
  simp [pattern?] at h

theorem pattern?_succ (i : Nat) : (Scheme.mk (p :: ps) result).pattern? (i + 1) =
    (Scheme.mk (if ps.isEmpty then [p] else ps) result).pattern? i := by
  cases ps with
  | nil => cases i <;> simp [pattern?]
  | cons q ps => simp [pattern?, List.getLast?_cons_cons]

theorem matches_cons : (Scheme.mk (p :: ps) result).Matches ρ (g :: gs) ↔ g = TyTerm.under ρ p ∧
    (Scheme.mk (if ps.isEmpty then [p] else ps) result).Matches ρ gs := by
  constructor
  · intro h
    refine ⟨h 0 g p rfl rfl, fun i k q hk hq => h (i + 1) k q (by simpa using hk) ?_⟩
    rwa [pattern?_succ]
  · rintro ⟨h0, hs⟩ i k q hk hq
    cases i with
    | zero =>
      cases hk
      cases hq
      exact h0
    | succ i =>
      rw [pattern?_succ] at hq
      exact hs i k q (by simpa using hk) hq

/-- One pattern for all children. -/
theorem matches_all : (Scheme.mk [p] result).Matches ρ gs ↔ ∀ g ∈ gs, g = TyTerm.under ρ p := by
  induction gs with
  | nil => simp
  | cons g gs ih => simp [matches_cons, ih]

theorem holds_some : (Scheme.mk ps (some r)).Holds gs (some g) ↔
    ∃ ρ : TypeVar → GroundTy, (Scheme.mk ps (some r)).Matches ρ gs ∧ g = TyTerm.under ρ r := by
  simp [Holds]

theorem holds_none {σ : Scheme} :
    σ.Holds gs none ↔ ∃ ρ : TypeVar → GroundTy, σ.Matches ρ gs := by
  simp [Holds]

@[simp] theorem holds_any : any.Holds gs none := holds_none.2 ⟨fun _ => .boolean, matches_of_no_pattern⟩

/-- Without a result, the children are as for some result. -/
theorem holds_none_iff {σ : Scheme} : σ.Holds gs none ↔ ∃ g, σ.Holds gs (some g) := by
  constructor
  · rintro ⟨ρ, hρ, -⟩
    refine ⟨(σ.result.map (TyTerm.under ρ)).getD .boolean, ρ, hρ, fun g p hg hp => ?_⟩
    rw [hp] at hg
    exact (Option.some.inj hg).symm
  · rintro ⟨g, ρ, hρ, -⟩
    exact ⟨ρ, hρ, fun _ _ h => by cases h⟩

end Scheme

section
variable {u : Unifier} {a b : TyTerm}

/-- A run that poses patterns of two children. -/
theorem poses_two (w : u.WellFormed) (ha : u.Allocated a) (hb : u.Allocated b) (vars : List TypeVar)
    (p q r : TyTerm) (hp : p.leaves ⊆ vars) (hq : q.leaves ⊆ vars) (hr : r.leaves ⊆ vars) :
    Poses (posed vars [(a, p), (b, q)] r) some u fun θ g =>
      (Scheme.mk [p, q] (some r)).Holds [TyTerm.under θ a, TyTerm.under θ b] (some g) := by
  refine (poses_posed w vars [(a, p), (b, q)] r ?_ hr).congr fun θ g => ?_
  · simp [ha, hb, hp, hq]
  · simp [Scheme.holds_some, Scheme.matches_cons]

theorem poses_one (w : u.WellFormed) (ha : u.Allocated a) (vars : List TypeVar)
    (p r : TyTerm) (hp : p.leaves ⊆ vars) (hr : r.leaves ⊆ vars) :
    Poses (posed vars [(a, p)] r) some u fun θ g =>
      (Scheme.mk [p] (some r)).Holds [TyTerm.under θ a] (some g) := by
  refine (poses_posed w vars [(a, p)] r ?_ hr).congr fun θ g => ?_
  · simp [ha, hp]
  · simp [Scheme.holds_some, Scheme.matches_cons]

/-- A run that poses one pattern of all children. -/
theorem poses_all {terms : List TyTerm} (w : u.WellFormed) (ht : ∀ t ∈ terms, u.Allocated t)
    (vars : List TypeVar) (p r : TyTerm) (hp : p.leaves ⊆ vars) (hr : r.leaves ⊆ vars) :
    Poses (posed vars (terms.map fun t => (t, p)) r) some u fun θ g =>
      (Scheme.mk [p] (some r)).Holds (terms.map (TyTerm.under θ)) (some g) := by
  refine (poses_posed w vars (terms.map fun t => (t, p)) r ?_ hr).congr fun θ g => ?_
  · simpa [hp] using ht
  · simp [Scheme.holds_some, Scheme.matches_all]

theorem BinaryOp.rule_eq_posed {op : BinaryOp} (h : op ≠ .maplet) (a b : TyTerm) :
    ∃ vars p q r, op.scheme = ⟨[p, q], some r⟩ ∧
      (p.leaves ⊆ vars ∧ q.leaves ⊆ vars ∧ r.leaves ⊆ vars) ∧
      op.rule a b = posed vars [(a, p), (b, q)] r := by
  cases op with
  | maplet => exact absurd rfl h
  | setminus =>
    exact ⟨[0], _, _, _, rfl, by decide, by
      simp [rule, posed, Solve.set, extend, rename, TypeTree.subst]⟩
  | dprod =>
    exact ⟨[0, 1, 2], _, _, _, rfl, by decide, by
      simp [rule, posed, relation, extend, rename, TypeTree.subst, TypeTree.relation, List.lookup_cons]⟩
  | _ =>
    exact ⟨[0, 1], _, _, _, rfl, by decide, by
      simp [rule, posed, relation, extend, rename, TypeTree.subst, TypeTree.relation, List.lookup_cons]⟩

theorem BinaryOp.poses_rule (op : BinaryOp) (w : u.WellFormed) (ha : u.Allocated a)
    (hb : u.Allocated b) : Poses (op.rule a b) some u fun θ g =>
      op.scheme.Holds [TyTerm.under θ a, TyTerm.under θ b] (some g) := by
  by_cases h : op = .maplet
  · subst h
    refine (poses_pure w fun t ht => ?_).congr fun θ g => ?_
    · cases ht
      simp [ha, hb]
    · simp only [Option.some.injEq, forall_eq', TyTerm.under_product, scheme, Scheme.holds_some,
        Scheme.matches_cons]
      constructor
      · rintro rfl
        exact ⟨fun | 0 => TyTerm.under θ a | _ => TyTerm.under θ b, by simp [Scheme.matches_cons]⟩
      · rintro ⟨ρ, ⟨ha, hb⟩, hg⟩
        simp only [List.isEmpty_cons, Bool.false_eq_true, if_false, Scheme.matches_cons] at hb
        rw [hg, ha, hb.1]
  · obtain ⟨vars, p, q, r, hs, ⟨hp, hq, hr⟩, hrule⟩ := rule_eq_posed h a b
    rw [hrule, hs]
    exact poses_two w ha hb vars p q r hp hq hr

theorem UnaryOp.rule_eq_posed (op : UnaryOp) (a : TyTerm) :
    ∃ vars p r, op.scheme = ⟨[p], some r⟩ ∧ (p.leaves ⊆ vars ∧ r.leaves ⊆ vars) ∧
      op.rule a = posed vars [(a, p)] r := by
  cases op with
  | pow =>
    exact ⟨[0], _, _, rfl, by decide, by
      simp [rule, posed, Solve.set, extend, rename, TypeTree.subst]⟩
  | _ =>
    exact ⟨[0, 1], _, _, rfl, by decide, by
      simp [rule, posed, relation, extend, rename, TypeTree.subst, TypeTree.relation, List.lookup_cons]⟩

theorem UnaryOp.poses_rule (op : UnaryOp) (w : u.WellFormed) (ha : u.Allocated a) :
    Poses (op.rule a) some u fun θ g => op.scheme.Holds [TyTerm.under θ a] (some g) := by
  obtain ⟨vars, p, r, hs, ⟨hp, hr⟩, hrule⟩ := op.rule_eq_posed a
  rw [hrule, hs]
  exact poses_one w ha vars p r hp hr

theorem AssocOp.rule_eq_posed (op : AssocOp) (terms : List TyTerm) :
    ∃ vars p, op.scheme = ⟨[p], some p⟩ ∧ p.leaves ⊆ vars ∧
      op.rule terms = posed vars (terms.map fun t => (t, p)) p := by
  cases op with
  | ovr =>
    exact ⟨[0, 1], _, rfl, by decide, by
      simp [rule, operand, posed, relation, extend, rename, TypeTree.subst, TypeTree.relation,
        List.lookup_cons]⟩
  | _ =>
    exact ⟨[0], _, rfl, by decide, by
      simp [rule, operand, posed, Solve.set, extend, rename, TypeTree.subst]⟩

theorem AssocOp.poses_rule (op : AssocOp) {terms : List TyTerm} (w : u.WellFormed)
    (ht : ∀ t ∈ terms, u.Allocated t) : Poses (op.rule terms) some u fun θ g =>
      op.scheme.Holds (terms.map (TyTerm.under θ)) (some g) := by
  obtain ⟨vars, p, hs, hp, hrule⟩ := op.rule_eq_posed terms
  rw [hrule, hs]
  exact poses_all w ht vars p p hp hp

theorem Atom.poses_rule (op : Atom) (w : u.WellFormed) :
    Poses op.rule some u fun _ g => op.scheme.Holds [] (some g) := by
  have h : ∃ vars r, op.scheme = ⟨[], some r⟩ ∧ r.leaves ⊆ vars ∧ op.rule = posed vars [] r := by
    cases op with
    | emptySet => exact ⟨[0], _, rfl, by decide, by simp [rule, posed, Solve.set, extend, rename,
        TypeTree.subst]⟩
    | _ => exact ⟨[], _, rfl, by decide, by simp [rule, posed, extend, rename, TypeTree.subst]⟩
  obtain ⟨vars, r, hs, hr, hrule⟩ := h
  rw [hrule, hs]
  refine (poses_posed w vars [] r (by simp) hr).congr fun θ g => ?_
  simp [Scheme.holds_some]

theorem SetBinder.poses_rule (op : SetBinder) (w : u.WellFormed) (ha : u.Allocated a) :
    Poses (op.rule a) some u fun θ g => op.scheme.Holds [TyTerm.under θ a] (some g) := by
  have hset : ∀ op' : SetBinder, op'.rule a = posed [0] [(a, .power (.leaf 0))] (.power (.leaf 0)) →
      op'.scheme = ⟨[.power (.leaf 0)], some (.power (.leaf 0))⟩ → Poses (op'.rule a) some u
        fun θ g => op'.scheme.Holds [TyTerm.under θ a] (some g) := by
    intro op' hrule hs
    rw [hrule, hs]
    exact poses_one w ha [0] _ _ (by decide) (by decide)
  cases op with
  | comprehension =>
    refine (poses_pure w fun t ht => ?_).congr fun θ g => ?_
    · cases ht
      simpa using ha
    · simp only [Option.some.injEq, forall_eq', TyTerm.under_power, scheme, Scheme.holds_some,
        Scheme.matches_all, List.mem_singleton]
      exact ⟨fun h => ⟨fun _ => TyTerm.under θ a, by simp, by simpa using h⟩,
        fun ⟨ρ, ha, hg⟩ => by simpa [← ha _ rfl] using hg⟩
  | _ =>
    exact hset _ (by simp [rule, posed, Solve.set, extend, rename, TypeTree.subst]) rfl

/-- A set of given members. -/
theorem poses_members {terms : List TyTerm} (w : u.WellFormed) (ht : ∀ t ∈ terms, u.Allocated t) :
    Poses (do
      let member ← fresh
      terms.forM (unify · member)
      return .power member) some u fun θ g =>
      (Scheme.mk [.leaf 0] (some (.power (.leaf 0)))).Holds (terms.map (TyTerm.under θ)) (some g) := by
  have h := poses_all w ht [0] (.leaf 0) (.power (.leaf 0)) (by decide) (by decide)
  simpa [posed, extend, rename, TypeTree.subst, List.lookup_cons] using h

theorem Comparison.poses_rule (op : Comparison) (w : u.WellFormed) (ha : u.Allocated a)
    (hb : u.Allocated b) : Poses (op.rule a b) noTerm u fun θ _ =>
      op.scheme.Holds [TyTerm.under θ a, TyTerm.under θ b] none := by
  have heq : Poses (unify a b) noTerm u fun θ _ =>
      (Scheme.mk [.leaf 0] none).Holds [TyTerm.under θ a, TyTerm.under θ b] none := by
    refine (poses_unify w ha hb).congr fun θ g => ?_
    simp only [Scheme.holds_none, Scheme.matches_all, List.forall_mem_cons, TyTerm.under_leaf]
    exact ⟨fun h => ⟨fun _ => TyTerm.under θ a, rfl, h.symm, by simp⟩,
      fun ⟨ρ, ha, hb, _⟩ => ha.trans hb.symm⟩
  have hmem : Poses (unify b (.power a)) noTerm u fun θ _ =>
      (Scheme.mk [.leaf 0, .power (.leaf 0)] none).Holds [TyTerm.under θ a, TyTerm.under θ b]
        none := by
    refine (poses_unify w hb (by simpa using ha)).congr fun θ g => ?_
    simp only [Scheme.holds_none, Scheme.matches_cons, List.isEmpty_cons, Bool.false_eq_true,
      if_false, Scheme.matches_nil, and_true, TyTerm.under_power, TyTerm.under_leaf]
    exact ⟨fun h => ⟨fun _ => TyTerm.under θ a, rfl, h⟩, fun ⟨ρ, ha, hb⟩ => by rw [hb, ha]⟩
  have hset : Poses (do
      let set ← Solve.set
      unify a set
      unify b set) noTerm u fun θ _ =>
      (Scheme.mk [.power (.leaf 0)] none).Holds [TyTerm.under θ a, TyTerm.under θ b] none := by
    have ht : ∀ t ∈ [a, b], u.Allocated t := by simp [ha, hb]
    have h := (poses_all w ht [0] (.power (.leaf 0)) (.leaf 0) (by decide) (by decide)).discard
    simp only [← Scheme.holds_none_iff] at h
    simpa [Solve.set, posed, extend, rename, TypeTree.subst, List.lookup_cons, Scheme.holds_none,
      Scheme.matches_all] using h
  cases op with
  | eq | ne => exact heq
  | mem | notMem => exact hmem
  | _ => exact hset

theorem poses_partition {terms : List TyTerm} (w : u.WellFormed)
    (ht : ∀ t ∈ terms, u.Allocated t) :
    Poses (do
      let set ← Solve.set
      terms.forM (unify · set)) noTerm u fun θ _ =>
      (Scheme.mk [.power (.leaf 0)] none).Holds (terms.map (TyTerm.under θ)) none := by
  have h := (poses_all w ht [0] (.power (.leaf 0)) (.leaf 0) (by decide) (by decide)).discard
  simp only [← Scheme.holds_none_iff] at h
  simpa [Solve.set, posed, extend, rename, TypeTree.subst, List.lookup_cons, Scheme.holds_none,
    Scheme.matches_all] using h

end

namespace Comparison

theorem holds_eq (g : GroundTy) : eq.scheme.Holds [g, g] none := by
  rw [scheme, Scheme.holds_none]
  exact ⟨fun _ => g, by simp [Scheme.matches_all]⟩

theorem holds_mem (g : GroundTy) : mem.scheme.Holds [g, .power g] none := by
  rw [scheme, Scheme.holds_none]
  exact ⟨fun _ => g, by simp [Scheme.matches_cons]⟩

end Comparison
end SetLang
