import Mathlib.Data.Finset.Prod
import Mathlib.Logic.Function.Iterate
import SetLang.Proofs.Grammar.Priorities

/-! Closing priorities in rounds. A round looks at all pairs and adds those that follow from two of them and
are missing. As no operator comes in, only finitely many pairs can be added, so that some round finds nothing
to add; the pairs are then the chains of the first ones. -/

namespace SetLang

namespace Priorities

variable {pairs : List (String × String)} {x z : String}

def missing (pairs : List (String × String)) : List (String × String) :=
  pairs.flatMap fun p => (pairs.filter fun q => q.1 == p.2 && !pairs.contains (p.1, q.2)).map fun q =>
    (p.1, q.2)

def round (pairs : List (String × String)) : List (String × String) := pairs ++ missing pairs

theorem mem_missing : (x, z) ∈ missing pairs ↔
    (∃ y, (x, y) ∈ pairs ∧ (y, z) ∈ pairs) ∧ (x, z) ∉ pairs := by
  simp only [missing, List.mem_flatMap, List.mem_map, List.mem_filter, Bool.and_eq_true, beq_iff_eq,
    Bool.not_eq_true', List.contains_eq_mem, decide_eq_false_iff_not, Prod.mk.injEq]
  constructor
  · rintro ⟨⟨_, y⟩, hxy, ⟨_, _⟩, ⟨hyz, rfl, hnew⟩, rfl, rfl⟩
    exact ⟨⟨_, hxy, hyz⟩, hnew⟩
  · rintro ⟨⟨y, hxy, hyz⟩, hnew⟩
    exact ⟨(x, y), hxy, (y, z), ⟨hyz, rfl, hnew⟩, rfl, rfl⟩

theorem mem_round : (x, z) ∈ round pairs ↔ (x, z) ∈ pairs ∨ ∃ y, (x, y) ∈ pairs ∧ (y, z) ∈ pairs := by
  rw [round, List.mem_append, mem_missing]
  tauto

theorem transGen_round : Relation.TransGen (fun l r => (l, r) ∈ round pairs) =
    Relation.TransGen fun l r => (l, r) ∈ pairs := by
  refine le_antisymm (Relation.TransGen.closed fun x z hxz => ?_)
    (Relation.TransGen.mono fun x z hxz => mem_round.2 (.inl hxz))
  rcases mem_round.1 hxz with hxz | ⟨y, hxy, hyz⟩
  · exact .single hxz
  · exact .tail (.single hxy) hyz

theorem transGen_iterate_round (n : ℕ) : Relation.TransGen (fun l r => (l, r) ∈ round^[n] pairs) =
    Relation.TransGen fun l r => (l, r) ∈ pairs := by
  induction n generalizing pairs with
  | zero => rfl
  | succ n ih => rw [Function.iterate_succ_apply, ih, transGen_round]

theorem transGen_iff_of_missing_eq_nil (h : missing pairs = []) :
    Relation.TransGen (fun l r => (l, r) ∈ pairs) x z ↔ (x, z) ∈ pairs := by
  have htrans : IsTrans String fun l r => (l, r) ∈ pairs := ⟨fun x y z hxy hyz => by
    by_contra hnew
    have hmem := mem_missing.2 ⟨⟨y, hxy, hyz⟩, hnew⟩
    rw [h] at hmem
    cases hmem⟩
  rw [Relation.transGen_eq_self]

def Within (lower higher : Finset String) (pairs : List (String × String)) : Prop :=
  ∀ p ∈ pairs, p ∈ lower ×ˢ higher

variable {lower higher : Finset String}

theorem Within.round (h : Within lower higher pairs) : Within lower higher (round pairs) := by
  rintro ⟨x, z⟩ hxz
  rcases mem_round.1 hxz with hxz | ⟨y, hxy, hyz⟩
  · exact h _ hxz
  · exact Finset.mem_product.2 ⟨(Finset.mem_product.1 (h _ hxy)).1, (Finset.mem_product.1 (h _ hyz)).2⟩

/-- The pairs between the two sets that are not there. -/
def addable (lower higher : Finset String) (pairs : List (String × String)) : Finset (String × String) :=
  lower ×ˢ higher \ pairs.toFinset

theorem card_addable_round_lt (h : Within lower higher pairs) (hne : missing pairs ≠ []) :
    (addable lower higher (Priorities.round pairs)).card < (addable lower higher pairs).card := by
  obtain ⟨⟨x, z⟩, hxz⟩ := List.exists_mem_of_ne_nil _ hne
  have hround : (x, z) ∈ Priorities.round pairs := List.mem_append_right _ hxz
  refine Finset.card_lt_card ((Finset.ssubset_iff_of_subset ?_).2 ⟨(x, z), ?_, ?_⟩)
  · exact Finset.sdiff_subset_sdiff le_rfl fun p hp =>
      List.mem_toFinset.2 (List.mem_append_left _ (List.mem_toFinset.1 hp))
  · simpa [addable] using ⟨Finset.mem_product.1 (h.round _ hround), (mem_missing.1 hxz).2⟩
  · simp [addable, hround]

/-- Rounds come to an end, after no more of them than there are pairs to be added. -/
theorem exists_missing_eq_nil (h : Within lower higher pairs) :
    ∃ n ≤ (addable lower higher pairs).card, missing (Priorities.round^[n] pairs) = [] := by
  -- a round that is not the last one adds a pair, of which there are finitely many
  induction hn : (addable lower higher pairs).card using Nat.strong_induction_on generalizing pairs with
  | _ n ih =>
    by_cases hnil : missing pairs = []
    · exact ⟨0, n.zero_le, hnil⟩
    · have hlt := card_addable_round_lt h hnil
      obtain ⟨m, hm, hclosed⟩ := ih _ (hn ▸ hlt) h.round rfl
      exact ⟨m + 1, by omega, hclosed⟩

/-- Rounds end with the priorities that come of going through the operators once. -/
theorem exists_rounds_eq_closure (pairs : List (String × String)) :
    ∃ n, missing (round^[n] pairs) = [] ∧
      ∀ x z, (x, z) ∈ round^[n] pairs ↔ (ofPairs pairs).closure.Below x z := by
  have hwithin : Within (pairs.map (·.1)).toFinset (pairs.map (·.2)).toFinset pairs := fun p hp =>
    Finset.mem_product.2 ⟨List.mem_toFinset.2 (List.mem_map_of_mem hp),
      List.mem_toFinset.2 (List.mem_map_of_mem hp)⟩
  obtain ⟨n, -, hnil⟩ := exists_missing_eq_nil hwithin
  refine ⟨n, hnil, fun x z => ?_⟩
  rw [← transGen_iff_of_missing_eq_nil hnil, transGen_iterate_round, below_closure_ofPairs]

end Priorities
end SetLang
