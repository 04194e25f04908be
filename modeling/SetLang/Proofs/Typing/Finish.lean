import SetLang.Proofs.Environment
import SetLang.Proofs.Typing.Collected
import SetLang.Proofs.Unifier.MostGeneral

/-! The end of a check. A pending term has a type exactly if all solutions of the solver agree on it,
and the given types that occur are declared unless their names are taken otherwise. -/

namespace SetLang

open Solve Unifier

variable {s : Store} {env : Environment} {c : Collected}

namespace Collected

def Knows (c : Collected) (t : TyTerm) (g : GroundTy) : Prop :=
  ∀ θ : Solution, c.unifier.SolvedBy θ → TyTerm.under θ t = g

def Leaves (c : Collected) (t : TyTerm) : Prop :=
  ∃ θ θ' : Solution, c.unifier.SolvedBy θ ∧ c.unifier.SolvedBy θ' ∧ TyTerm.under θ t ≠ TyTerm.under θ' t

/-- A pending term is known, or else the solver reports that it is open. -/
theorem solve_spec (w : c.unifier.WellFormed) {q : Pending} (hq : c.unifier.Allocated q.term) :
    (∃ t, c.solve q = .ok t ∧ c.Knows q.term t.named) ∨
      ∃ e, c.solve q = .error (.error e) ∧ c.Leaves q.term := by
  unfold solve
  obtain ⟨t, ht, hknows⟩ | ⟨e, he, hopen⟩ := solve_known_or_open w hq
  · rw [ht]
    exact .inl ⟨t, rfl, hknows⟩
  · rw [he]
    exact .inr ⟨_, rfl, hopen⟩

theorem solveAll_spec {α : Type} (w : c.unifier.WellFormed) (items : List (α × Pending))
    (h : ∀ i ∈ items, c.unifier.Allocated i.2.term) :
    (∃ ts, c.solveAll items = .ok ts ∧ List.Forall₂
        (fun i t => t.1 = i.1 ∧ c.Knows i.2.term t.2.named) items ts) ∨
      ∃ e, c.solveAll items = .error (.error e) ∧ ∃ i ∈ items, c.Leaves i.2.term := by
  induction items with
  | nil => exact .inl ⟨[], rfl, .nil⟩
  | cons i items ih =>
    rw [List.forall_mem_cons] at h
    unfold solveAll at ih ⊢
    simp only [List.mapM_cons]
    obtain ⟨t, ht, hknows⟩ | ⟨e, he, hopen⟩ := solve_spec w h.1
    · rw [ht]
      obtain ⟨ts, hts, hall⟩ | ⟨e, he, i', hi', hopen⟩ := ih h.2
      · refine .inl ⟨(i.1, t) :: ts, ?_, .cons ⟨rfl, hknows⟩ hall⟩
        rw [hts]
        rfl
      · refine .inr ⟨e, ?_, i', List.mem_cons_of_mem _ hi', hopen⟩
        rw [he]
        rfl
    · rw [he]
      exact .inr ⟨e, rfl, i, List.mem_cons_self, hopen⟩

theorem named_givenSet (name : String) : (Ty.givenSet name).named = .power (.given name) := rfl

/-- Given types are declared unless their names stand for something else. -/
theorem inferGivens_spec (env : Environment) (names : Names) (inferred : Environment) :
    (∃ r, inferGivens env names inferred = .ok r ∧
        (∀ x ∈ names, ∀ t, (env.get? x).or (inferred.get? x) = some t →
          t.named = .power (.given x)) ∧
        ∀ x, r.get? x = (inferred.get? x).or
          (if x ∈ names ∧ env.get? x = none then some (Ty.givenSet x) else none)) ∨
      ∃ e, inferGivens env names inferred = .error (.error e) ∧
        ∃ x ∈ names, ∃ t, (env.get? x).or (inferred.get? x) = some t ∧
          t.named ≠ .power (.given x) := by
  -- a name that is declared on the way is taken for the names after it
  induction names generalizing inferred with
  | nil => exact .inl ⟨inferred, rfl, by simp, by simp⟩
  | cons y names ih =>
    unfold inferGivens
    cases hy : (env.get? y).or (inferred.get? y) with
    | some u =>
      have hu : (u == Ty.givenSet y) = true ↔ u.named = .power (.given y) := by
        rw [TypeTree.beq_iff_named, named_givenSet]
      by_cases hgiven : u.named = .power (.given y)
      · simp only [hu.2 hgiven, if_true]
        obtain ⟨r, hr, hnames, hget⟩ | ⟨e, he, x, hx, hbad⟩ := ih inferred
        · refine .inl ⟨r, hr, List.forall_mem_cons.2 ⟨fun t ht => ?_, hnames⟩, fun x => ?_⟩
          · rw [hy] at ht
            cases ht
            exact hgiven
          · rw [hget]
            simp only [List.mem_cons]
            by_cases hxy : x = y
            · subst hxy
              cases he : env.get? x with
              | some t => simp
              | none =>
                rw [he, Option.none_or] at hy
                simp [hy]
            · simp [hxy]
        · exact .inr ⟨e, he, x, List.mem_cons_of_mem _ hx, hbad⟩
      · simp only [Bool.eq_false_iff.2 (mt hu.1 hgiven), Bool.false_eq_true, if_false]
        exact .inr ⟨_, rfl, y, List.mem_cons_self, u, hy, hgiven⟩
    | none =>
      obtain ⟨henv, hinf⟩ := Option.or_eq_none_iff.1 hy
      have hget' := fun x => Environment.get?_insertGiven_of_none hinf (x := x)
      obtain ⟨r, hr, hnames, hget⟩ | ⟨e, he, x, hx, t, ht, hbad⟩ := ih (inferred.insertGiven y)
      · refine .inl ⟨r, hr, List.forall_mem_cons.2 ⟨fun t ht => ?_, fun x hx t ht => ?_⟩,
          fun x => ?_⟩
        · rw [hy] at ht
          cases ht
        · refine hnames x hx t ?_
          rw [hget', ← Option.or_assoc, ht, Option.some_or]
        · rw [hget, hget']
          simp only [List.mem_cons]
          by_cases hxy : x = y
          · subst hxy
            simp [hinf, henv]
          · simp [hxy]
      · refine .inr ⟨e, he, x, List.mem_cons_of_mem _ hx, t, ?_, hbad⟩
        rw [hget', ← Option.or_assoc] at ht
        cases hxt : (env.get? x).or (inferred.get? x) with
        | some u =>
          rw [hxt] at ht
          exact ht
        | none =>
          rw [hxt, Option.none_or] at ht
          split_ifs at ht with hxy
          · cases ht
            subst hxy
            exact absurd (named_givenSet _) hbad

def reading (c : Collected) (s : Store) (θ : Solution) : Typing where
  slot x := ((s.type? x).map TypeTree.named).getD
    (((c.pending? x).map fun q => TyTerm.under θ q.term).getD .boolean)
  free x := ((c.free.lookup x).map fun q => TyTerm.under θ q.term).getD .boolean

theorem models_reading (hc : c.Sound s env) {θ : Solution} (hθ : c.unifier.SolvedBy θ) :
    c.Models s (c.reading s θ) θ := by
  refine ⟨hθ, fun slot t ht => ?_, fun slot q hq => ?_, fun x q hq => ?_⟩
  · simp [reading, ht]
  · simp [reading, hq, (hc.pending slot q hq).2]
  · simp [reading, hq]

def Occurs (c : Collected) (τ : Typing) (x : String) : Prop :=
  x ∈ c.givens ∨ (∃ slot ∈ c.slots, x ∈ (τ.slot slot).givens) ∨
    ∃ y, (c.free.lookup y).isSome ∧ x ∈ (τ.free y).givens

/-- The name of a given type is free or stands for the set of its values. -/
def Declared (c : Collected) (env : Environment) (τ : Typing) (x : String) : Prop :=
  (∀ t, env.get? x = some t → t.named = .power (.given x)) ∧
    ((c.free.lookup x).isSome → τ.free x = .power (.given x))

theorem mem_pendingSlots (hc : c.Sound s env) {slot : Nat} {q : Pending} :
    (slot, q) ∈ c.pendingSlots ↔ c.pending? slot = some q := by
  simp only [pendingSlots, List.mem_filterMap, List.mem_reverse, hc.slots, Option.map_eq_some_iff,
    Prod.mk.injEq]
  exact ⟨fun ⟨x, _, q', hq', hx, hq⟩ => hx ▸ hq ▸ hq', fun h => ⟨slot, by simp [h], q, h, rfl, rfl⟩⟩

theorem pendingSlots_fst (hc : c.Sound s env) : c.pendingSlots.map Prod.fst = c.slots.reverse := by
  have hslots : ∀ slot ∈ c.slots.reverse, (c.pending? slot).isSome := fun slot h =>
    (hc.slots slot).1 (List.mem_reverse.1 h)
  unfold pendingSlots
  generalize c.slots.reverse = slots at hslots
  induction slots with
  | nil => rfl
  | cons slot slots ih =>
    rw [List.forall_mem_cons] at hslots
    obtain ⟨q, hq⟩ := Option.isSome_iff_exists.1 hslots.1
    simp [hq, ih hslots.2]

/-- What is known of pending terms, as what a typing says of their owners. -/
theorem solved_eq {K : Type} {items : List (K × Pending)} {ts : List (K × Ty)} {τ : Typing}
    {θ : Solution} {g : K → GroundTy} (hm : c.Models s τ θ)
    (h : List.Forall₂ (fun i t => t.1 = i.1 ∧ c.Knows i.2.term t.2.named) items ts)
    (hg : ∀ i ∈ items, TyTerm.under θ i.2.term = g i.1) :
    ts.map Prod.fst = items.map Prod.fst ∧ ∀ t ∈ ts, t.2.named = g t.1 := by
  induction h with
  | nil => simp
  | cons ht _ ih =>
    rw [List.forall_mem_cons] at hg
    obtain ⟨hkey, hknows⟩ := ht
    obtain ⟨hkeys, hall⟩ := ih hg.2
    refine ⟨by rw [List.map_cons, List.map_cons, hkey, hkeys], List.forall_mem_cons.2 ⟨?_, hall⟩⟩
    rw [← hknows θ hm.solved, hg.1, hkey]

theorem mem_foldl_givens {x : String} {ts : List Ty} {ns : Names} :
    x ∈ ts.foldl (fun ns t => ns.insertAll t.givens) ns ↔ x ∈ ns ∨ ∃ t ∈ ts, x ∈ t.givens := by
  induction ts generalizing ns with
  | nil => simp
  | cons t ts ih => simp [ih, Names.mem_insertAll, or_assoc]

/-- The typings that are possible agree. -/
def Settled (c : Collected) (s : Store) : Prop :=
  ∀ τ τ', c.Admits s τ → c.Admits s τ' → (∀ slot ∈ c.slots, τ.slot slot = τ'.slot slot) ∧
    ∀ x, (c.free.lookup x).isSome → τ.free x = τ'.free x

theorem not_settled {q : Pending} (hc : c.Sound s env) (hopen : c.Leaves q.term)
    (hq : (∃ slot, c.pending? slot = some q) ∨ ∃ x, c.free.lookup x = some q) : ¬ c.Settled s := by
  intro h
  obtain ⟨θ, θ', hθ, hθ', hne⟩ := hopen
  have hm := models_reading hc hθ
  have hm' := models_reading hc hθ'
  obtain ⟨hslots, hfree⟩ := h _ _ ⟨θ, hm⟩ ⟨θ', hm'⟩
  obtain ⟨slot, hq⟩ | ⟨x, hq⟩ := hq
  · have heq := hslots slot ((hc.slots slot).2 (by simp [hq]))
    rw [← hm.pending slot q hq, ← hm'.pending slot q hq] at heq
    exact hne heq
  · have heq := hfree x (by simp [hq])
    rw [← hm.free x q hq, ← hm'.free x q hq] at heq
    exact hne heq

structure Finished (c : Collected) (env : Environment) (τ : Typing) (r : CheckResult) : Prop where
  slots : r.types.map Prod.fst = c.slots.reverse
  types : ∀ e ∈ r.types, e.2.named = τ.slot e.1
  marks : r.marks = c.marks
  declared : ∀ x, c.Occurs τ x → c.Declared env τ x
  inferred : ∀ x g, (r.inferred.get? x).map TypeTree.named = some g ↔ env.get? x = none ∧
    ((c.free.lookup x).isSome ∧ g = τ.free x ∨ c.Occurs τ x ∧ g = .power (.given x))

theorem Finished.settled {r : CheckResult} (hc : c.Sound s env)
    (h : ∀ τ, c.Admits s τ → c.Finished env τ r) : c.Settled s := by
  intro τ τ' hτ hτ'
  refine ⟨fun slot hslot => ?_, fun x hx => ?_⟩
  · have hmem : slot ∈ r.types.map Prod.fst := by
      rw [(h τ hτ).slots]
      exact List.mem_reverse.2 hslot
    obtain ⟨e, he, rfl⟩ := List.mem_map.1 hmem
    rw [← (h τ hτ).types e he, (h τ' hτ').types e he]
  · obtain ⟨q, hq⟩ := Option.isSome_iff_exists.1 hx
    have hget := ((h τ hτ).inferred x (τ.free x)).2 ⟨(hc.free x q hq).2, .inl ⟨hx, rfl⟩⟩
    have hget' := ((h τ' hτ').inferred x (τ'.free x)).2 ⟨(hc.free x q hq).2, .inl ⟨hx, rfl⟩⟩
    exact Option.some.inj (hget.symm.trans hget')

/-- The given types that were collected, and those of the types that were found. -/
def givensWith (c : Collected) (types : List (Nat × Ty)) (free : List (String × Ty)) : Names :=
  (free.map (·.2)).foldl (fun ns t => ns.insertAll t.givens)
    ((types.map (·.2)).foldl (fun ns t => ns.insertAll t.givens) c.givens)

theorem givens_of_named {K : Type} {ts : List (K × Ty)} {g : K → GroundTy} {x : String}
    (h : ∀ t ∈ ts, t.2.named = g t.1) :
    (∃ t ∈ ts.map (·.2), x ∈ t.givens) ↔ ∃ k ∈ ts.map Prod.fst, x ∈ (g k).givens := by
  have hgivens : ∀ t ∈ ts, t.2.givens = (g t.1).givens := fun t ht => by
    rw [← h t ht, TypeTree.named, TypeTree.givens_mapData]
  constructor
  · rintro ⟨_, hmem, hx⟩
    obtain ⟨t, ht, rfl⟩ := List.mem_map.1 hmem
    exact ⟨t.1, List.mem_map_of_mem ht, hgivens t ht ▸ hx⟩
  · rintro ⟨_, hmem, hx⟩
    obtain ⟨t, ht, rfl⟩ := List.mem_map.1 hmem
    exact ⟨t.2, List.mem_map_of_mem ht, (hgivens t ht).symm ▸ hx⟩

structure Solved (c : Collected) (τ : Typing) (types : List (Nat × Ty)) (free : List (String × Ty)) :
    Prop where
  slots : types.map Prod.fst = c.slots.reverse
  types : ∀ e ∈ types, e.2.named = τ.slot e.1
  names : free.map Prod.fst = c.free.map Prod.fst
  free : ∀ e ∈ free, e.2.named = τ.free e.1

namespace Solved

variable {τ : Typing} {types : List (Nat × Ty)} {free : List (String × Ty)} {x : String}

theorem mem_givensWith (h : c.Solved τ types free) :
    x ∈ c.givensWith types free ↔ c.Occurs τ x := by
  rw [givensWith, mem_foldl_givens, mem_foldl_givens, givens_of_named h.types, givens_of_named h.free, h.slots,
    h.names, or_assoc]
  simp only [List.mem_reverse, ← isSome_lookup_iff]
  rfl

theorem get?_free (hc : c.Sound s env) (h : c.Solved τ types free) (g : GroundTy) :
    ((Environment.empty.insertAll free).get? x).map TypeTree.named = some g ↔
      (c.free.lookup x).isSome ∧ g = τ.free x := by
  have hdistinct : (free.map Prod.fst).Nodup := h.names ▸ hc.names
  rw [Environment.get?_insertAll hdistinct, Environment.get?_empty, Option.or_none,
    isSome_lookup_iff, ← h.names, ← isSome_lookup_iff]
  cases hx : free.lookup x with
  | none => simp
  | some t =>
    rw [← h.free (x, t) ((lookup_eq_some_iff_mem hdistinct).1 hx)]
    simp [eq_comm]

theorem declared_iff (hc : c.Sound s env) (h : c.Solved τ types free) :
    (∀ t, (env.get? x).or ((Environment.empty.insertAll free).get? x) = some t →
      t.named = .power (.given x)) ↔ c.Declared env τ x := by
  have hget := h.get?_free hc (x := x)
  cases henv : env.get? x with
  | some u =>
    have hfree : (c.free.lookup x).isSome = false := by
      by_contra hne
      obtain ⟨q, hq⟩ := Option.isSome_iff_exists.1 (Bool.not_eq_false _ ▸ hne)
      simp [(hc.free x q hq).2] at henv
    simp [Declared, henv, hfree]
  | none =>
    simp only [Declared, henv, Option.none_or, reduceCtorEq, false_imp_iff, implies_true, true_and]
    constructor
    · intro hall hx
      obtain ⟨t, ht, hnamed⟩ := Option.map_eq_some_iff.1 ((hget (τ.free x)).2 ⟨hx, rfl⟩)
      rw [← hnamed, hall t ht]
    · intro hx t ht
      obtain ⟨hsome, heq⟩ := (hget t.named).1 (by rw [ht]; rfl)
      rw [heq, hx hsome]

/-- The inferred names are the free ones and the missing given sets. -/
theorem get?_inferred (hc : c.Sound s env) (h : c.Solved τ types free) {inferred : Environment}
    (hget : ∀ x, inferred.get? x = ((Environment.empty.insertAll free).get? x).or
      (if x ∈ c.givensWith types free ∧ env.get? x = none then some (Ty.givenSet x) else none))
    (hdeclared : ∀ x, c.Occurs τ x → c.Declared env τ x) (g : GroundTy) :
    (inferred.get? x).map TypeTree.named = some g ↔ env.get? x = none ∧
      ((c.free.lookup x).isSome ∧ g = τ.free x ∨ c.Occurs τ x ∧ g = .power (.given x)) := by
  have hfree := h.get?_free hc (x := x)
  rw [hget, ← h.mem_givensWith]
  cases hx : (Environment.empty.insertAll free).get? x with
  | some t =>
    obtain ⟨hsome, heq⟩ := (hfree t.named).1 (by rw [hx]; rfl)
    obtain ⟨q, hq⟩ := Option.isSome_iff_exists.1 hsome
    simp only [Option.some_or, Option.map_some, Option.some.injEq, (hc.free x q hq).2, hsome, true_and]
    constructor
    · rintro rfl
      exact .inl heq
    · rintro (rfl | ⟨hocc, rfl⟩)
      · exact heq
      · rw [heq, (hdeclared x (h.mem_givensWith.1 hocc)).2 hsome]
  | none =>
    have hnone : ¬ (c.free.lookup x).isSome := fun hsome => by
      simpa [hx] using (hfree (τ.free x)).2 ⟨hsome, rfl⟩
    by_cases hocc : x ∈ c.givensWith types free ∧ env.get? x = none
    · simp [hocc, hnone, named_givenSet, eq_comm]
    · rw [if_neg hocc]
      simp only [Option.or_none, Option.map_none, reduceCtorEq, hnone, false_and, false_or, false_iff]
      exact fun ⟨henv, hocc', _⟩ => hocc ⟨hocc', henv⟩

end Solved

theorem finish_eq {types : List (Nat × Ty)} {free : List (String × Ty)}
    (htypes : c.solveAll c.pendingSlots = .ok types) (hfree : c.solveAll c.free = .ok free) :
    c.finish env = (inferGivens env (c.givensWith types free) (Environment.empty.insertAll free)).map
      fun inferred => ⟨types, c.marks, inferred⟩ := by
  unfold finish
  rw [htypes, hfree]
  rfl

/-- A check that has collected everything answers with what all possible typings say, or else reports
that they disagree or that a name is taken. -/
theorem finish_spec (hc : c.Sound s env) :
    (∃ r, c.finish env = .ok r ∧ ∀ τ, c.Admits s τ → c.Finished env τ r) ∨
      ∃ e, c.finish env = .error (.error e) ∧
        ¬ (c.Settled s ∧ ∀ τ, c.Admits s τ → ∀ x, c.Occurs τ x → c.Declared env τ x) := by
  have hslots : ∀ i ∈ c.pendingSlots, c.unifier.Allocated i.2.term := fun i hi =>
    (hc.pending i.1 i.2 ((mem_pendingSlots hc).1 hi)).1
  have hfrees : ∀ i ∈ c.free, c.unifier.Allocated i.2.term := fun i hi =>
    (hc.free i.1 i.2 ((lookup_eq_some_iff_mem hc.names).2 hi)).1
  obtain ⟨types, htypes, htypes'⟩ | ⟨e, he, i, hi, hopen⟩ :=
    solveAll_spec hc.wellFormed c.pendingSlots hslots
  swap
  · refine .inr ⟨e, by rw [finish, he]; rfl, fun h => not_settled hc hopen (.inl ⟨i.1, ?_⟩) h.1⟩
    exact (mem_pendingSlots hc).1 hi
  obtain ⟨free, hfree, hfree'⟩ | ⟨e, he, i, hi, hopen⟩ :=
    solveAll_spec hc.wellFormed c.free hfrees
  swap
  · refine .inr ⟨e, by rw [finish, htypes, he]; rfl,
      fun h => not_settled hc hopen (.inr ⟨i.1, ?_⟩) h.1⟩
    exact (lookup_eq_some_iff_mem hc.names).2 hi
  have hsolved : ∀ τ, c.Admits s τ → c.Solved τ types free := by
    rintro τ ⟨θ, hm⟩
    obtain ⟨hkeys, hall⟩ := solved_eq hm htypes' (g := τ.slot) fun i hi =>
      hm.pending i.1 i.2 ((mem_pendingSlots hc).1 hi)
    obtain ⟨hkeys', hall'⟩ := solved_eq hm hfree' (g := τ.free) fun i hi =>
      hm.free i.1 i.2 ((lookup_eq_some_iff_mem hc.names).2 hi)
    exact ⟨hkeys.trans (pendingSlots_fst hc), hall, hkeys', hall'⟩
  rw [finish_eq htypes hfree]
  obtain ⟨inferred, hinf, hnames, hget⟩ | ⟨e, he, x, hx, t, ht, hbad⟩ := inferGivens_spec env
    (c.givensWith types free) (Environment.empty.insertAll free)
  · rw [hinf]
    refine .inl ⟨_, rfl, fun τ hτ => ?_⟩
    have h := hsolved τ hτ
    have hdeclared : ∀ x, c.Occurs τ x → c.Declared env τ x := fun x hx =>
      (h.declared_iff hc).1 (hnames x (h.mem_givensWith.2 hx))
    exact ⟨h.slots, h.types, rfl, hdeclared, fun x g => h.get?_inferred hc hget hdeclared g⟩
  · rw [he]
    refine .inr ⟨e, rfl, fun hall => ?_⟩
    have hτ : c.Admits s (c.reading s _) :=
      ⟨_, models_reading hc (hc.wellFormed.solvedBy_under_resolution fun _ => .boolean)⟩
    have h := hsolved _ hτ
    exact hbad ((h.declared_iff hc).2 (hall.2 _ hτ x (h.mem_givensWith.1 hx)) t ht)

end Collected
end SetLang
