import Mathlib.Logic.Relation
import SetLang.Grammar
import SetLang.Proofs.Environment

/-! Priorities and their closure. Going through the operators once, each time joining what is lower than
the operator with what is higher, gives exactly the priorities that follow by chains. -/

namespace SetLang

namespace Priorities

variable {p : Priorities} {k x y : String}

def Below (p : Priorities) (lower higher : String) : Prop := higher ∈ p.above lower

/-- What follows by way of an operator is there already. -/
def ClosedAt (p : Priorities) (k : String) : Prop :=
  ∀ x y, p.Below x k → p.Below k y → p.Below x y

theorem mem_keys_of_below (h : p.Below x y) : x ∈ p.map (·.1) := by
  unfold Below above at h
  rw [← isSome_lookup_iff]
  cases hx : p.lookup x with
  | none => simp [hx] at h
  | some higher => rfl

theorem keys_chainThrough (p : Priorities) (k : String) :
    (p.chainThrough k).map (·.1) = p.map (·.1) := by
  simp [chainThrough, Function.comp_def]

theorem lookup_chainThrough (p : Priorities) (k x : String) :
    (p.chainThrough k).lookup x = (p.lookup x).map fun higher =>
      if higher.contains k then higher.insertAll (p.above k) else higher := by
  unfold chainThrough
  generalize p.above k = new
  induction p with
  | nil => rfl
  | cons e p ih =>
    obtain ⟨z, higher⟩ := e
    rw [List.map_cons, lookup_cons_if, lookup_cons_if, ih]
    by_cases hx : x = z
    · rw [if_pos hx, if_pos hx, Option.map_some]
    · rw [if_neg hx, if_neg hx]

/-- One operator is joined with what is lower and what is higher. -/
theorem below_chainThrough :
    (p.chainThrough k).Below x y ↔ p.Below x y ∨ p.Below x k ∧ p.Below k y := by
  unfold Below
  rw [above, lookup_chainThrough]
  change _ ↔ y ∈ (p.lookup x).getD [] ∨ k ∈ (p.lookup x).getD [] ∧ _
  cases p.lookup x with
  | none => simp
  | some higher =>
    simp only [Option.map_some, Option.getD_some, List.contains_iff_mem]
    split_ifs with hk
    · rw [Names.mem_insertAll, and_iff_right hk]
    · simp [hk]

theorem closedAt_chainThrough (p : Priorities) (k : String) : (p.chainThrough k).ClosedAt k := by
  intro x y hx hy
  rw [below_chainThrough] at hx hy ⊢
  exact .inr ⟨hx.elim id And.left, hy.elim id And.right⟩

/-- What holds at an operator is not lost when others are joined. -/
theorem ClosedAt.chainThrough {k' : String} (h : p.ClosedAt k) : (p.chainThrough k').ClosedAt k := by
  intro x y hx hy
  rw [below_chainThrough] at hx hy ⊢
  rcases hx with hx | ⟨hx, hk⟩
  · rcases hy with hy | ⟨hk', hy⟩
    · exact .inl (h x y hx hy)
    · exact .inr ⟨h x k' hx hk', hy⟩
  · rcases hy with hy | ⟨-, hy⟩
    · exact .inr ⟨hx, h k' y hk hy⟩
    · exact .inr ⟨hx, hy⟩

theorem closedAt_foldl {ks : List String} (h : p.ClosedAt k ∨ k ∈ ks) :
    (ks.foldl Priorities.chainThrough p).ClosedAt k := by
  induction ks generalizing p with
  | nil => exact h.resolve_right List.not_mem_nil
  | cons k' ks ih =>
    refine ih ?_
    rcases h with h | h
    · exact .inl h.chainThrough
    · rcases List.mem_cons.1 h with rfl | h
      · exact .inl (p.closedAt_chainThrough k)
      · exact .inr h

theorem keys_foldl (ks : List String) (p : Priorities) :
    (ks.foldl Priorities.chainThrough p).map (·.1) = p.map (·.1) := by
  induction ks generalizing p with
  | nil => rfl
  | cons k ks ih => rw [List.foldl_cons, ih, keys_chainThrough]

theorem below_foldl_of_below {ks : List String} (h : p.Below x y) :
    (ks.foldl Priorities.chainThrough p).Below x y := by
  induction ks generalizing p with
  | nil => exact h
  | cons k ks ih => exact ih (below_chainThrough.2 (.inl h))

theorem transGen_of_below_foldl {ks : List String} {r : String → String → Prop}
    (hp : ∀ x y, p.Below x y → Relation.TransGen r x y)
    (h : (ks.foldl Priorities.chainThrough p).Below x y) : Relation.TransGen r x y := by
  induction ks generalizing p with
  | nil => exact hp x y h
  | cons k ks ih =>
    refine ih (fun x y hxy => ?_) h
    rcases below_chainThrough.1 hxy with hxy | ⟨hxk, hky⟩
    · exact hp x y hxy
    · exact (hp x k hxk).trans (hp k y hky)

/-- Chains need no further operators: only an operator with something above it stands inside one. -/
theorem closure_trans {z : String} (hxy : p.closure.Below x y) (hyz : p.closure.Below y z) :
    p.closure.Below x z := by
  have hkey : y ∈ p.map (·.1) := by
    rw [← keys_foldl (p.map (·.1)) p]
    exact mem_keys_of_below hyz
  exact closedAt_foldl (.inr hkey) x z hxy hyz

/-- The closure holds exactly the chains of priorities. -/
theorem below_closure : p.closure.Below x y ↔ Relation.TransGen p.Below x y := by
  refine ⟨transGen_of_below_foldl fun x y => .single, fun h => ?_⟩
  induction h with
  | single hxy => exact below_foldl_of_below hxy
  | tail _ hyz ih => exact closure_trans ih (below_foldl_of_below hyz)

theorem lookup_map_of_mem {V : Type} {keys : List String} {f : String → V} (h : x ∈ keys) :
    (keys.map fun k => (k, f k)).lookup x = some (f x) := by
  induction keys with
  | nil => cases h
  | cons k keys ih =>
    rw [List.map_cons, lookup_cons_if]
    split_ifs with hx
    · rw [hx]
    · exact ih ((List.mem_cons.1 h).resolve_left hx)

/-- Grouping keeps the pairs. -/
theorem below_ofPairs {pairs : List (String × String)} : (ofPairs pairs).Below x y ↔ (x, y) ∈ pairs := by
  have hmem : y ∈ Names.ofList ((pairs.filter (·.1 == x)).map (·.2)) ↔ (x, y) ∈ pairs := by
    simp [Names.ofList, Names.mem_insertAll]
  unfold Below above ofPairs
  by_cases hx : x ∈ (pairs.map (·.1)).eraseDups
  · rw [lookup_map_of_mem hx]
    exact hmem
  · have hnone : ((pairs.map (·.1)).eraseDups.map fun lower =>
        (lower, Names.ofList ((pairs.filter (·.1 == lower)).map (·.2)))).lookup x = none := by
      rw [lookup_eq_none_iff_not_mem]
      simpa [Function.comp_def] using hx
    rw [hnone]
    refine iff_of_false List.not_mem_nil fun hxy => hx ?_
    exact List.mem_eraseDups.2 (List.mem_map_of_mem hxy)

theorem below_closure_ofPairs {pairs : List (String × String)} :
    (ofPairs pairs).closure.Below x y ↔ Relation.TransGen (fun l r => (l, r) ∈ pairs) x y := by
  have hpairs : (ofPairs pairs).Below = fun l r => (l, r) ∈ pairs :=
    funext₂ fun l r => propext below_ofPairs
  rw [below_closure, hpairs]

def Grouped (p : Priorities) : Prop := ∀ e ∈ p, p.lookup e.1 = some e.2

theorem grouped_ofPairs (pairs : List (String × String)) : (ofPairs pairs).Grouped := by
  intro e he
  obtain ⟨lower, hlower, rfl⟩ := List.mem_map.1 he
  exact lookup_map_of_mem hlower

theorem Grouped.chainThrough (h : p.Grouped) : (p.chainThrough k).Grouped := by
  intro e he
  obtain ⟨⟨lower, higher⟩, hold, rfl⟩ := List.mem_map.1 he
  rw [lookup_chainThrough, h _ hold, Option.map_some]

theorem Grouped.foldl (h : p.Grouped) (ks : List String) :
    (ks.foldl Priorities.chainThrough p).Grouped := by
  induction ks generalizing p with
  | nil => exact h
  | cons k ks ih => exact ih h.chainThrough

theorem Grouped.below_of_firstCyclic? (h : p.Grouped) (hop : p.firstCyclic? = some x) : p.Below x x := by
  have hmem : x ∈ Names.ofList ((p.filter fun e => e.2.contains e.1).map (·.1)) :=
    List.mem_of_mem_head? hop
  simp only [Names.ofList, Names.mem_insertAll, List.not_mem_nil, false_or, List.mem_map,
    List.mem_filter, List.contains_iff_mem] at hmem
  obtain ⟨e, ⟨he, hcyclic⟩, rfl⟩ := hmem
  rw [Below, above, h e he]
  exact hcyclic

end Priorities
end SetLang
