import Mathlib.Data.Finset.Card
import SetLang.Proofs.TypeTree
import SetLang.Unifier

/-! What a solver knows. Its values are acyclic, so that a term can be resolved: `resolution` gives
every variable its fully resolved value, and `resolve?` replaces the variables of a term by theirs.
The assignments of trees to variables that agree with all values are the solutions; the resolution
is one of them, and every other one factors through it. -/

namespace SetLang

variable {W : Type}

/-- A type tree in which datatypes are known by name. -/
abbrev NamedTree (W : Type) := TypeTree String W

/-- What a term denotes when its variables denote trees. -/
def TyTerm.under (θ : TypeVar → NamedTree W) (t : TyTerm) : NamedTree W := t.named.subst θ

theorem TyTerm.under_subst (θ : TypeVar → NamedTree W) (f : TypeVar → TyTerm) (t : TyTerm) :
    TyTerm.under θ (t.subst f) = TyTerm.under (fun v => TyTerm.under θ (f v)) t := by
  simp only [TyTerm.under, TypeTree.named, TypeTree.mapData_subst, TypeTree.subst_subst]

theorem TyTerm.under_congr {θ θ' : TypeVar → NamedTree W} {t : TyTerm}
    (h : ∀ v ∈ t.leaves, θ v = θ' v) : TyTerm.under θ t = TyTerm.under θ' t :=
  TypeTree.subst_congr fun v hv => h v (by simpa [TypeTree.named] using hv)

@[simp] theorem TyTerm.under_leaf (θ : TypeVar → NamedTree W) (v : TypeVar) :
    TyTerm.under θ (.leaf v) = θ v := rfl

@[simp] theorem TyTerm.under_boolean (θ : TypeVar → NamedTree W) :
    TyTerm.under θ .boolean = .boolean := rfl

@[simp] theorem TyTerm.under_given (θ : TypeVar → NamedTree W) (s : String) :
    TyTerm.under θ (.given s) = .given s := rfl

@[simp] theorem TyTerm.under_power (θ : TypeVar → NamedTree W) (a : TyTerm) :
    TyTerm.under θ (.power a) = .power (TyTerm.under θ a) := rfl

@[simp] theorem TyTerm.under_product (θ : TypeVar → NamedTree W) (a b : TyTerm) :
    TyTerm.under θ (.product a b) = .product (TyTerm.under θ a) (TyTerm.under θ b) := rfl

@[simp] theorem TyTerm.under_relation (θ : TypeVar → NamedTree W) (a b : TyTerm) :
    TyTerm.under θ (.relation a b) = .relation (TyTerm.under θ a) (TyTerm.under θ b) := rfl

@[simp] theorem TyTerm.under_data (θ : TypeVar → NamedTree W) (d : Datatype) (as : List TyTerm) :
    TyTerm.under θ (.data d as) = .data d.name (as.map (TyTerm.under θ)) := by
  simp [TyTerm.under, TypeTree.named, TypeTree.mapData, TypeTree.subst, Function.comp_def]

namespace Unifier

variable {u : Unifier} {v w : TypeVar} {t : TyTerm}

def value? (u : Unifier) (v : TypeVar) : Option TyTerm := (u.var? v).bind (·.value)

def Allocated (u : Unifier) (t : TyTerm) : Prop := ∀ v ∈ t.leaves, v < u.size

/-- The values mention allocated variables only, never lead back to their own variable, and are no
deeper than the solver says. -/
structure WellFormed (u : Unifier) : Prop where
  allocated : ∀ v t, u.value? v = some t → u.Allocated t
  acyclic : ∃ rank : TypeVar → Nat, ∀ v t, u.value? v = some t → ∀ w ∈ t.leaves, rank w < rank v
  deepest : ∀ v t, u.value? v = some t → t.depth ≤ u.deepest

def SolvedBy (u : Unifier) (θ : TypeVar → NamedTree W) : Prop :=
  ∀ v t, u.value? v = some t → θ v = TyTerm.under θ t

/-- The later solver has the variables of the earlier one, with the values that they had. -/
structure Extends (u u' : Unifier) : Prop where
  size : u.size ≤ u'.size
  value : ∀ v t, u.value? v = some t → u'.value? v = some t

theorem Extends.refl (u : Unifier) : Extends u u := ⟨Nat.le_refl _, fun _ _ h => h⟩

theorem Extends.trans {a b c : Unifier} (h : Extends a b) (k : Extends b c) : Extends a c :=
  ⟨Nat.le_trans h.size k.size, fun v t hv => k.value v t (h.value v t hv)⟩

theorem SolvedBy.of_extends {u u' : Unifier} {θ : TypeVar → NamedTree W} (h : u'.SolvedBy θ)
    (k : Extends u u') : u.SolvedBy θ := fun v t hv => h v t (k.value v t hv)

theorem Allocated.mono {u u' : Unifier} (h : u.Allocated t) (k : u.size ≤ u'.size) :
    u'.Allocated t := fun v hv => Nat.lt_of_lt_of_le (h v hv) k

@[simp] theorem allocated_leaf : u.Allocated (.leaf v) ↔ v < u.size := by
  simp [Allocated, TypeTree.leaves]

@[simp] theorem allocated_boolean : u.Allocated .boolean := by simp [Allocated, TypeTree.leaves]

@[simp] theorem allocated_given {s : String} : u.Allocated (.given s) := by
  simp [Allocated, TypeTree.leaves]

@[simp] theorem allocated_power : u.Allocated (.power t) ↔ u.Allocated t := Iff.rfl

@[simp] theorem allocated_product {a b : TyTerm} :
    u.Allocated (.product a b) ↔ u.Allocated a ∧ u.Allocated b := by
  simp only [Allocated, TypeTree.leaves, List.mem_append]
  exact ⟨fun h => ⟨fun v hv => h v (.inl hv), fun v hv => h v (.inr hv)⟩,
    fun h v hv => hv.elim (h.1 v) (h.2 v)⟩

@[simp] theorem allocated_data {d : Datatype} {as : List TyTerm} :
    u.Allocated (.data d as) ↔ ∀ a ∈ as, u.Allocated a := by
  simp only [Allocated, TypeTree.leaves, TypeTree.leavesAll_eq, List.mem_flatMap]
  exact ⟨fun h a ha v hv => h v ⟨a, ha, hv⟩, fun h v hv => hv.elim fun a ha => h a ha.1 v ha.2⟩

theorem lt_size_of_value? (h : u.value? v = some t) : v < u.size := by
  unfold value? var? at h
  by_contra hn
  rw [Array.getElem?_eq_none (Nat.le_of_not_lt hn)] at h
  simp at h

theorem var?_of_free (h : v < u.size) (hf : u.value? v = none) :
    ∃ r, u.var? v = some ⟨r, none⟩ := by
  unfold value? at hf
  have hv : u.var? v = some u.vars[v] := Array.getElem?_eq_getElem h
  rw [hv] at hf
  refine ⟨u.vars[v].rank, ?_⟩
  rw [hv, ← show u.vars[v].value = none from hf]

theorem var?_of_value? (h : u.value? v = some t) : ∃ r, u.var? v = some ⟨r, some t⟩ := by
  unfold value? at h
  obtain ⟨⟨r, x⟩, hv, rfl⟩ := Option.bind_eq_some_iff.1 h
  exact ⟨r, hv⟩

section
variable (u)

@[simp] theorem size_addVar : u.addVar.size = u.size + 1 := by simp [addVar, size]

theorem value?_addVar (v : TypeVar) : u.addVar.value? v = u.value? v := by
  by_cases hv : v < u.vars.size
  · simp [value?, var?, addVar, Array.getElem?_push, Nat.ne_of_lt hv]
  · by_cases he : v = u.vars.size
    · subst he
      simp [value?, var?, addVar]
    · simp [value?, var?, addVar, Array.getElem?_push, he]

@[simp] theorem size_bind (v : TypeVar) (t : TyTerm) : (u.bind v t).size = u.size := by
  simp [bind, size]

@[simp] theorem size_raiseRank (v : TypeVar) : (u.raiseRank v).size = u.size := by
  simp [raiseRank, size]

theorem value?_raiseRank (v w : TypeVar) : (u.raiseRank v).value? w = u.value? w := by
  by_cases h : v = w
  · subst h
    simp only [value?, var?, raiseRank, Array.getElem?_modify, if_true]
    cases u.vars[v]? <;> rfl
  · simp [value?, var?, raiseRank, Array.getElem?_modify, h]

end

theorem value?_bind (h : v < u.size) (t : TyTerm) (w : TypeVar) :
    (u.bind v t).value? w = if v = w then some t else u.value? w := by
  by_cases hw : v = w
  · subst hw
    simp only [value?, var?, bind, Array.getElem?_modify, if_true]
    have hv : u.vars[v]? = some u.vars[v] := Array.getElem?_eq_getElem h
    rw [hv]
    rfl
  · simp [value?, var?, bind, Array.getElem?_modify, hw]

theorem extends_addVar (u : Unifier) : Extends u u.addVar :=
  ⟨by simp, fun v t h => by rwa [value?_addVar]⟩

theorem extends_bind (h : v < u.size) (hf : u.value? v = none) (t : TyTerm) :
    Extends u (u.bind v t) := by
  refine ⟨by simp, fun w s hw => ?_⟩
  rw [value?_bind h]
  split_ifs with he
  · subst he
    simp [hf] at hw
  · exact hw

theorem wellFormed_empty : empty.WellFormed := by
  have h : ∀ v, empty.value? v = none := fun v => by simp [value?, var?, empty]
  exact ⟨fun v t hv => by simp [h] at hv, ⟨fun _ => 0, fun v t hv => by simp [h] at hv⟩,
    fun v t hv => by simp [h] at hv⟩

theorem WellFormed.addVar (w : u.WellFormed) : u.addVar.WellFormed := by
  obtain ⟨rank, hrank⟩ := w.acyclic
  refine ⟨fun v t h => ?_, ⟨rank, fun v t h => ?_⟩, fun v t h => ?_⟩
  · rw [value?_addVar] at h
    exact (w.allocated v t h).mono (by simp)
  · rw [value?_addVar] at h
    exact hrank v t h
  · rw [value?_addVar] at h
    exact w.deepest v t h

/-- Ranks can be chosen below the number of variables: a variable counts those of lower rank. -/
theorem WellFormed.exists_rank (w : u.WellFormed) : ∃ rank : TypeVar → Nat,
    (∀ v < u.size, rank v < u.size) ∧
      ∀ v t, u.value? v = some t → ∀ x ∈ t.leaves, rank x < rank v := by
  obtain ⟨rank, hrank⟩ := w.acyclic
  refine ⟨fun v => ((Finset.range u.size).filter fun x => rank x < rank v).card, ?_, ?_⟩
  · intro v hv
    have hlt : ((Finset.range u.size).filter fun x => rank x < rank v) ⊂ Finset.range u.size :=
      Finset.filter_ssubset.2 ⟨v, Finset.mem_range.2 hv, Nat.lt_irrefl _⟩
    simpa using Finset.card_lt_card hlt
  · intro v t h x hx
    have hxv := hrank v t h x hx
    apply Finset.card_lt_card
    rw [Finset.ssubset_iff_of_subset]
    · refine ⟨x, ?_, ?_⟩
      · simpa using ⟨w.allocated v t h x hx, hxv⟩
      · simp
    · intro y hy
      simp only [Finset.mem_filter] at hy ⊢
      exact ⟨hy.1, Nat.lt_trans hy.2 hxv⟩

structure Head (u : Unifier) (t h : TyTerm) : Prop where
  allocated : u.Allocated h
  free : ∀ v, h = .leaf v → u.value? v = none
  under : ∀ {W : Type} (θ : TypeVar → NamedTree W), u.SolvedBy θ →
    TyTerm.under θ t = TyTerm.under θ h
  depth : h.depth ≤ max u.deepest t.depth

theorem headWithin?_of_ne_leaf (hops : Nat) (h : ∀ v, t ≠ .leaf v) :
    u.headWithin? hops t = some t := by
  unfold headWithin?
  split
  · exact absurd rfl (h _)
  · rfl

theorem head_of_headWithin? (w : u.WellFormed) {rank : TypeVar → Nat}
    (hrank : ∀ v t, u.value? v = some t → ∀ x ∈ t.leaves, rank x < rank v) (hops : Nat) :
    ∀ t, u.Allocated t → (∀ v, t = .leaf v → rank v < hops) →
      ∃ h, u.headWithin? hops t = some h ∧ u.Head t h := by
  induction hops with
  | zero =>
    intro t ht hn
    have hleaf : ∀ v, t ≠ .leaf v := fun v hv => absurd (hn v hv) (Nat.not_lt_zero _)
    exact ⟨t, headWithin?_of_ne_leaf 0 hleaf,
      ht, fun v hv => absurd hv (hleaf v), fun _ _ => rfl, Nat.le_max_right ..⟩
  | succ hops ih =>
    intro t ht hn
    by_cases hleaf : ∃ v, t = .leaf v
    · obtain ⟨v, rfl⟩ := hleaf
      have hv : v < u.size := ht v (by simp [TypeTree.leaves])
      cases hval : u.value? v with
      | none =>
        obtain ⟨r, hr⟩ := var?_of_free hv hval
        refine ⟨.leaf v, by simp [headWithin?, hr], ht, ?_, fun _ _ => rfl, Nat.le_max_right ..⟩
        intro x hx
        cases hx
        exact hval
      | some s =>
        obtain ⟨r, hr⟩ := var?_of_value? hval
        obtain ⟨h, hh, hd⟩ := ih s (w.allocated v s hval) fun x hx => by
          have hxv := hrank v s hval x (by simp [hx, TypeTree.leaves])
          have hvn := hn v rfl
          omega
        refine ⟨h, by simpa [headWithin?, hr] using hh, hd.allocated, hd.free, ?_, ?_⟩
        · intro W θ hθ
          rw [TyTerm.under_leaf, hθ v s hval, hd.under θ hθ]
        · have hs := w.deepest v s hval
          have hle := hd.depth
          omega
    · have hleaf : ∀ v, t ≠ .leaf v := fun v hv => hleaf ⟨v, hv⟩
      exact ⟨t, headWithin?_of_ne_leaf _ hleaf,
        ht, fun v hv => absurd hv (hleaf v), fun _ _ => rfl, Nat.le_max_right ..⟩

theorem exists_head (w : u.WellFormed) (ht : u.Allocated t) :
    ∃ h, u.head? t = some h ∧ u.Head t h := by
  obtain ⟨rank, hlt, hrank⟩ := w.exists_rank
  refine head_of_headWithin? w hrank (u.size + 1) t ht fun v hv => ?_
  subst hv
  exact Nat.lt_succ_of_lt (hlt v (ht v (by simp [TypeTree.leaves])))

def leafWithin? (u : Unifier) (hops : Nat) (v : TypeVar) : Option TyTerm :=
  match u.var? v with
  | none => none
  | some ⟨_, none⟩ => some (.leaf v)
  | some ⟨_, some t⟩ => u.resolveWithin? hops t

theorem resolveWithin?_succ (hops : Nat) (t : TyTerm) :
    u.resolveWithin? (hops + 1) t = t.subst? (u.leafWithin? hops) := rfl

theorem leafWithin?_of_free (h : v < u.size) (hf : u.value? v = none) (hops : Nat) :
    u.leafWithin? hops v = some (.leaf v) := by
  obtain ⟨r, hr⟩ := var?_of_free h hf
  simp [leafWithin?, hr]

theorem leafWithin?_of_value? (h : u.value? v = some t) (hops : Nat) :
    u.leafWithin? hops v = u.resolveWithin? hops t := by
  obtain ⟨r, hr⟩ := var?_of_value? h
  simp [leafWithin?, hr]

/-- With enough hops, more hops give the same term. -/
theorem exists_resolveWithin? (w : u.WellFormed) {rank : TypeVar → Nat}
    (hrank : ∀ v t, u.value? v = some t → ∀ x ∈ t.leaves, rank x < rank v) (hops : Nat) :
    ∀ t, u.Allocated t → (∀ v ∈ t.leaves, rank v < hops) →
      ∃ r, ∀ m, hops ≤ m → u.resolveWithin? m t = some r := by
  induction hops with
  | zero =>
    intro t ht hn
    refine ⟨t, fun m _ => ?_⟩
    cases m with
    | zero => rfl
    | succ m =>
      rw [resolveWithin?_succ, TypeTree.subst?_eq_some (g := .leaf) fun v hv =>
        absurd (hn v hv) (Nat.not_lt_zero _), TypeTree.subst_leaf]
  | succ hops ih =>
    intro t ht hn
    have hleaf : ∀ v, ∃ r, v ∈ t.leaves → ∀ m, hops ≤ m → u.leafWithin? m v = some r := by
      intro v
      by_cases hv : v ∈ t.leaves
      · cases hval : u.value? v with
        | none => exact ⟨.leaf v, fun _ m _ => leafWithin?_of_free (ht v hv) hval m⟩
        | some s =>
          obtain ⟨r, hr⟩ := ih s (w.allocated v s hval) fun x hx => by
            have hxv := hrank v s hval x hx
            have hvn := hn v hv
            omega
          exact ⟨r, fun _ m hm => (leafWithin?_of_value? hval m).trans (hr m hm)⟩
      · exact ⟨t, fun h => absurd h hv⟩
    choose f hf using hleaf
    refine ⟨t.subst f, fun m hm => ?_⟩
    obtain ⟨m, rfl⟩ : ∃ k, m = k + 1 := ⟨m - 1, by omega⟩
    exact TypeTree.subst?_eq_some fun v hv => hf v hv m (by omega)

def resolution (u : Unifier) (v : TypeVar) : TyTerm := (u.resolve? (.leaf v)).getD (.leaf v)

theorem WellFormed.resolveWithin?_size (w : u.WellFormed) (ht : u.Allocated t) :
    ∃ r, u.resolveWithin? u.size t = some r ∧ u.resolve? t = some r := by
  obtain ⟨rank, hlt, hrank⟩ := w.exists_rank
  obtain ⟨r, hr⟩ := exists_resolveWithin? w hrank u.size t ht fun v hv => hlt v (ht v hv)
  exact ⟨r, hr _ (Nat.le_refl _), hr _ (Nat.le_succ _)⟩

theorem WellFormed.leafWithin?_size (w : u.WellFormed) (h : v < u.size) :
    u.leafWithin? u.size v = some (u.resolution v) := by
  have hleaf : u.resolve? (.leaf v) = u.leafWithin? u.size v := rfl
  cases hval : u.value? v with
  | none =>
    have hv := leafWithin?_of_free h hval u.size
    rw [resolution, hleaf, hv]
    rfl
  | some t =>
    obtain ⟨r, hr, -⟩ := w.resolveWithin?_size (w.allocated v t hval)
    rw [resolution, hleaf, leafWithin?_of_value? hval, hr]
    rfl

theorem WellFormed.resolve?_eq (w : u.WellFormed) (ht : u.Allocated t) :
    u.resolve? t = some (t.subst u.resolution) :=
  TypeTree.subst?_eq_some fun v hv => w.leafWithin?_size (ht v hv)

theorem WellFormed.resolution_of_free (w : u.WellFormed) (h : v < u.size)
    (hf : u.value? v = none) : u.resolution v = .leaf v :=
  Option.some.inj ((w.leafWithin?_size h).symm.trans (leafWithin?_of_free h hf u.size))

theorem WellFormed.resolution_of_value? (w : u.WellFormed) (h : u.value? v = some t) :
    u.resolution v = t.subst u.resolution := by
  have ht := w.allocated v t h
  obtain ⟨r, hr, hres⟩ := w.resolveWithin?_size ht
  have hv := w.leafWithin?_size (lt_size_of_value? h)
  rw [leafWithin?_of_value? h, hr, ← hres, w.resolve?_eq ht] at hv
  exact (Option.some.inj hv).symm

/-- Induction along the values: a variable after those in its value. -/
@[elab_as_elim]
theorem WellFormed.var_induction (w : u.WellFormed) {motive : TypeVar → Prop}
    (free : ∀ v, v < u.size → u.value? v = none → motive v)
    (value : ∀ v t, u.value? v = some t → (∀ x ∈ t.leaves, motive x) → motive v)
    (v : TypeVar) (hv : v < u.size) : motive v := by
  obtain ⟨rank, hrank⟩ := w.acyclic
  induction h : rank v using Nat.strongRecOn generalizing v with
  | ind n ih =>
    cases hval : u.value? v with
    | none => exact free v hv hval
    | some t =>
      refine value v t hval fun x hx => ih (rank x) ?_ x (w.allocated v t hval x hx) rfl
      exact h ▸ hrank v t hval x hx

/-- The resolution solves all values. -/
theorem WellFormed.solvedBy_resolution (w : u.WellFormed) :
    u.SolvedBy fun v => (u.resolution v).named := by
  intro v t h
  have hres := congrArg TypeTree.named (w.resolution_of_value? h)
  rwa [TypeTree.named, TypeTree.named, TypeTree.mapData_subst] at hres

/-- Whatever the free variables denote, the resolution makes a solution of it. -/
theorem WellFormed.solvedBy_under_resolution (w : u.WellFormed) (ρ : TypeVar → NamedTree W) :
    u.SolvedBy fun v => TyTerm.under ρ (u.resolution v) := by
  intro v t h
  beta_reduce
  rw [w.resolution_of_value? h, TyTerm.under_subst]

/-- Every solution factors through the resolution. -/
theorem WellFormed.under_resolution (w : u.WellFormed) {θ : TypeVar → NamedTree W}
    (hθ : u.SolvedBy θ) (hv : v < u.size) : TyTerm.under θ (u.resolution v) = θ v := by
  refine w.var_induction (fun v hv hval => ?_) (fun v t hval ih => ?_) v hv
  · rw [w.resolution_of_free hv hval, TyTerm.under_leaf]
  · rw [w.resolution_of_value? hval, TyTerm.under_subst, hθ v t hval]
    exact TyTerm.under_congr ih

theorem WellFormed.under_subst_resolution (w : u.WellFormed) {θ : TypeVar → NamedTree W}
    (hθ : u.SolvedBy θ) (ht : u.Allocated t) :
    TyTerm.under θ (t.subst u.resolution) = TyTerm.under θ t := by
  rw [TyTerm.under_subst]
  exact TyTerm.under_congr fun v hv => w.under_resolution hθ (ht v hv)

/-- Only free variables are left in a resolved value. -/
theorem WellFormed.free_of_mem_resolution (w : u.WellFormed) (hv : v < u.size) :
    ∀ x ∈ (u.resolution v).leaves, x < u.size ∧ u.value? x = none := by
  refine w.var_induction (fun v hv hval => ?_) (fun v t hval ih => ?_) v hv
  · rw [w.resolution_of_free hv hval]
    intro x hx
    obtain rfl : x = v := by simpa [TypeTree.leaves] using hx
    exact ⟨hv, hval⟩
  · rw [w.resolution_of_value? hval, TypeTree.leaves_subst]
    intro x hx
    obtain ⟨y, hy, hx⟩ := List.mem_flatMap.1 hx
    exact ih y hy x hx

/-- A resolved value is at most one value deep for each variable on the way. -/
theorem WellFormed.depth_resolution_le (w : u.WellFormed) {n : Nat} (hn : 0 < n)
    (hdeep : u.deepest ≤ n) (ht : u.Allocated t) (htn : t.depth ≤ n) :
    (t.subst u.resolution).depth ≤ (u.size + 1) * n := by
  obtain ⟨rank, hlt, hrank⟩ := w.exists_rank
  have hvar : ∀ v, v < u.size → (u.resolution v).depth ≤ (rank v + 1) * n := by
    intro v hv
    refine w.var_induction (fun v hv hval => ?_) (fun v t hval ih => ?_) v hv
    · rw [w.resolution_of_free hv hval]
      exact Nat.mul_pos (Nat.succ_pos (rank v)) hn
    · rw [w.resolution_of_value? hval]
      have hle : (t.subst u.resolution).depth ≤ t.depth + rank v * n :=
        TypeTree.depth_subst_le fun x hx =>
          Nat.le_trans (ih x hx) (Nat.mul_le_mul_right n (hrank v t hval x hx))
      have hd := w.deepest v t hval
      rw [Nat.succ_mul]
      omega
  have hle : (t.subst u.resolution).depth ≤ t.depth + u.size * n :=
    TypeTree.depth_subst_le fun v hv =>
      Nat.le_trans (hvar v (ht v hv)) (Nat.mul_le_mul_right n (hlt v (ht v hv)))
  rw [Nat.succ_mul]
  omega

/-- Binding a free variable to a term that does not lead back to it keeps the values acyclic: the
variables that lead to it move above all others. -/
theorem WellFormed.bind (w : u.WellFormed) (hv : v < u.size) (hf : u.value? v = none)
    (ht : u.Allocated t) (hocc : v ∉ (t.subst u.resolution).leaves) :
    (u.bind v t).WellFormed := by
  classical
  obtain ⟨rank, hlt, hrank⟩ := w.exists_rank
  have hself : v ∈ (u.resolution v).leaves := by
    simp [w.resolution_of_free hv hf, TypeTree.leaves]
  have hvalue : ∀ x s, (u.bind v t).value? x = some s →
      (x = v ∧ s = t) ∨ (x ≠ v ∧ u.value? x = some s) := by
    intro x s hx
    rw [value?_bind hv] at hx
    split_ifs at hx with he
    · exact .inl ⟨he.symm, (Option.some.inj hx).symm⟩
    · exact .inr ⟨fun h => he h.symm, hx⟩
  refine ⟨fun x s hx => ?_, ⟨fun x => if v ∈ (u.resolution x).leaves then rank x + u.size else
    rank x, fun x s hx y hy => ?_⟩, fun x s hx => ?_⟩
  · rcases hvalue x s hx with ⟨-, rfl⟩ | ⟨-, hx⟩
    · exact ht.mono (by simp)
    · exact (w.allocated x s hx).mono (by simp)
  · rcases hvalue x s hx with ⟨rfl, rfl⟩ | ⟨-, hx⟩
    · have hy' : x ∉ (u.resolution y).leaves := fun h =>
        hocc (by rw [TypeTree.leaves_subst]; exact List.mem_flatMap.2 ⟨y, hy, h⟩)
      have := hlt y (ht y hy)
      simp only [hself, hy', if_true, if_false]
      omega
    · have hyx := hrank x s hx y hy
      have hmono : v ∈ (u.resolution y).leaves → v ∈ (u.resolution x).leaves := by
        intro h
        rw [w.resolution_of_value? hx, TypeTree.leaves_subst]
        exact List.mem_flatMap.2 ⟨y, hy, h⟩
      beta_reduce
      split_ifs with h1 h2 h2
      · omega
      · exact absurd (hmono h1) h2
      · omega
      · exact hyx
  · rcases hvalue x s hx with ⟨-, rfl⟩ | ⟨-, hx⟩
    · exact Nat.le_max_right ..
    · exact Nat.le_trans (w.deepest x s hx) (Nat.le_max_left ..)

theorem SolvedBy.bind {θ : TypeVar → NamedTree W} (h : u.SolvedBy θ) (hv : v < u.size)
    (heq : θ v = TyTerm.under θ t) : (u.bind v t).SolvedBy θ := by
  intro x s hx
  rw [value?_bind hv] at hx
  split_ifs at hx with he
  · obtain rfl := Option.some.inj hx
    rwa [← he]
  · exact h x s hx

theorem SolvedBy.raiseRank {θ : TypeVar → NamedTree W} (h : u.SolvedBy θ) (v : TypeVar) :
    (u.raiseRank v).SolvedBy θ := fun x s hx => h x s (by rwa [value?_raiseRank] at hx)

theorem WellFormed.raiseRank (w : u.WellFormed) (v : TypeVar) : (u.raiseRank v).WellFormed := by
  obtain ⟨rank, hrank⟩ := w.acyclic
  refine ⟨fun x t h => ?_, ⟨rank, fun x t h => ?_⟩, fun x t h => ?_⟩
  all_goals rw [value?_raiseRank] at h
  · exact (w.allocated x t h).mono (by simp)
  · exact hrank x t h
  · exact w.deepest x t h

end Unifier
end SetLang
