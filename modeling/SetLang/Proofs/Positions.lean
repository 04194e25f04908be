import SetLang.Proofs.Walk

/-! Positions and what stands at them: the selected positions are those of the selected parts, and
increase; a path is followed in pieces; and it leads nowhere exactly if one of its indices is too large. -/

namespace SetLang
namespace Formula

variable {f g : Formula}

/-- The selected positions are read off the parts in preorder. -/
theorem positions_eq (select : Formula → Bool) (hf : f.isAssignment = false) :
    f.positions select = .ok (((f.preorder .root).filter (select ·.2)).map (·.1)) := by
  obtain ⟨vs, acc, hmakes, hplaces, hresult⟩ :=
    @inspect_all Position (fun _ p g => { found := if select g then [p] else [] }) f hf fun _ _ _ => ⟨rfl, rfl⟩
  rw [positions, hresult, ← hplaces]
  congr 1
  have hfound : ∀ v ∈ vs, v.decision.found = if select v.node then [v.position] else [] := by
    intro v hv
    obtain ⟨_, _, hdecision⟩ := hmakes.decision_eq hv
    exact congrArg Visit.found hdecision
  clear hmakes hplaces hresult
  induction vs with
  | nil => rfl
  | cons v vs ih =>
    rw [List.forall_mem_cons] at hfound
    rw [List.flatMap_cons, hfound.1, ih hfound.2, List.map_cons, List.filter_cons]
    cases hv : select v.node <;> simp [Visited.place, hv]

/-- For every filter, the selected positions strictly increase, lexicographically and with a path before
its extensions, and are those where a selected part stands. A path is followed in pieces with the same
result. It fails only as invalid, and exactly if some index on it is not below the number of children of
the part reached by then. -/
theorem positions_descendant (select : Formula → Bool) (hf : f.isAssignment = false) :
    (∃ ps, f.positions select = .ok ps ∧
      ps.Pairwise (fun p q => (p.precedes q ∧ ¬q.precedes p) ∧ p.indexes < q.indexes) ∧
      ∀ p, p ∈ ps ↔ ∃ g, f.descendant p = .ok g ∧ select g) ∧
    (∀ p g, f.descendant p = .ok g →
      ∀ q h, f.descendant (p.append q) = .ok h ↔ g.descendant q = .ok h) ∧
    ∀ p e, f.descendant p = .error e ↔ e = .invalidPosition p ∧
      ∃ is i js g n, p.indexes = is ++ i :: js ∧ f.descendant ⟨is⟩ = .ok g ∧ g.childCount = .ok n ∧ n ≤ i := by
  refine ⟨⟨_, positions_eq select hf, ?_, fun p => ?_⟩, fun p g hg q h => ?_, fun p e => ?_⟩
  · rw [List.pairwise_map]
    refine ((preorder_sorted f .root).filter _).imp fun hlt => ?_
    have hnot := Position.not_precedes_iff.2 hlt
    exact ⟨⟨Position.precedes_of_not_precedes hnot, hnot⟩, hlt⟩
  · simp only [List.mem_map, List.mem_filter, Prod.exists, exists_and_right, exists_eq_right,
      mem_preorder_root, descendant_eq_ok_iff hf]
  · rw [descendant_eq_ok_iff hf] at hg
    rw [descendant_eq_ok_iff hf, descendant_eq_ok_iff (isAssignment_of_at? hf hg), Position.append,
      at?_append, hg, Option.bind_some]
  · rw [descendant_eq_error_iff hf, at?_eq_none_iff]
    refine and_congr_right fun _ => ⟨?_, ?_⟩
    · rintro ⟨is, i, js, g, hp, hg, hi⟩
      refine ⟨is, i, js, g, _, hp, (descendant_eq_ok_iff hf).2 hg, childCount_eq (isAssignment_of_at? hf hg), hi⟩
    · rintro ⟨is, i, js, g, n, hp, hg, hn, hi⟩
      rw [descendant_eq_ok_iff hf] at hg
      rw [childCount_eq (isAssignment_of_at? hf hg), Except.ok.injEq] at hn
      exact ⟨is, i, js, g, hp, hg, hn ▸ hi⟩

/-- The literals stand at four positions, one of them below a quantifier. -/
theorem positions_descendant_literals : literals.isAssignment = false ∧
    ∃ ps, literals.positions (fun g => g matches .pred (.literal ..)) = .ok ps ∧
      ps = [⟨[0]⟩, ⟨[1, 1]⟩, ⟨[2]⟩, ⟨[3]⟩] ∧
      ∀ p, p ∈ ps ↔ ∃ g, literals.descendant p = .ok g ∧ g matches .pred (.literal ..) := by
  obtain ⟨⟨ps, hps, -, hmem⟩, -, -⟩ :=
    positions_descendant (fun g => g matches .pred (.literal ..)) (rfl : literals.isAssignment = false)
  have hrun : literals.positions (fun g => g matches .pred (.literal ..)) =
      .ok [⟨[0]⟩, ⟨[1, 1]⟩, ⟨[2]⟩, ⟨[3]⟩] := by cbv
  exact ⟨rfl, ps, hps, Except.ok.inj (hps.symm.trans hrun), hmem⟩

end Formula
end SetLang
