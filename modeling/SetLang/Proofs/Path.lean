import SetLang.Proofs.Formula

/-! Paths into formulas: what stands at a path, and how many identifiers are declared on the way. -/

namespace SetLang
namespace Formula

/-- The identifiers that a formula declares for the predicate and the expression below it. -/
def declared : Formula → List Declaration
  | expr (.quantified _ _ ds _ _) | pred (.quantified _ _ ds _) => ds
  | _ => []

/-- How many identifiers are declared by the quantifiers that a path crosses. -/
def declaredAlong : Formula → List Nat → Nat
  | _, [] => 0
  | f, i :: is => f.declared.length + ((f.parts[i]?).map (declaredAlong · is)).getD 0

theorem at?_append (f : Formula) (is js : List Nat) :
    f.at? (is ++ js) = (f.at? is).bind (·.at? js) := by
  induction is generalizing f with
  | nil => rfl
  | cons i is ih =>
    rw [List.cons_append, at?, at?, Option.bind_assoc]
    exact Option.bind_congr fun g _ => ih g

theorem declaredAlong_append {f g : Formula} {is : List Nat} (h : f.at? is = some g)
    (js : List Nat) : f.declaredAlong (is ++ js) = f.declaredAlong is + g.declaredAlong js := by
  induction is generalizing f with
  | nil =>
    cases h
    rw [List.nil_append, declaredAlong, Nat.zero_add]
  | cons i is ih =>
    obtain ⟨k, hk, hg⟩ := Option.bind_eq_some_iff.1 h
    simp only [List.cons_append, declaredAlong, hk, Option.map_some, Option.getD_some, ih hg,
      Nat.add_assoc]

/-- One more step on a path. -/
theorem at?_child {f g k : Formula} {p : Position} {i : Nat} (h : f.at? p.indexes = some g)
    (hk : g.parts[i]? = some k) : f.at? (p.child i).indexes = some k := by
  rw [Position.child, at?_append, h, Option.bind_some, at?, hk]
  rfl

theorem declaredAlong_child {f g : Formula} {p : Position} (h : f.at? p.indexes = some g) (i : Nat) :
    f.declaredAlong (p.child i).indexes = f.declaredAlong p.indexes + g.declared.length := by
  rw [Position.child, declaredAlong_append h, declaredAlong]
  cases g.parts[i]? <;> rfl

theorem parts_subset_components (f : Formula) : f.parts ⊆ f.components := by
  cases f with
  | assignment a => exact List.nil_subset _
  | _ => exact List.Subset.refl _

/-- What stands at a path is a node. -/
theorem mem_nodes_of_at? {f g : Formula} {is : List Nat} (h : f.at? is = some g) : g ∈ f.nodes := by
  induction is generalizing f with
  | nil =>
    cases h
    exact mem_nodes_self _
  | cons i is ih =>
    obtain ⟨k, hk, hg⟩ := Option.bind_eq_some_iff.1 h
    have hmem := parts_subset_components f (List.mem_of_getElem? hk)
    exact nodes_trans (nodes_closed (mem_nodes_self f) hmem) (ih hg)

theorem descendant_eq_ok {f g : Formula} {p : Position} (hf : f.isAssignment = false)
    (h : f.at? p.indexes = some g) : f.descendant p = .ok g := by
  simp only [descendant, support, hf, h]
  rfl

/-- What stands at any path is as stated, below so many declarations. -/
def Everywhere (P : Nat → Formula → Prop) (d : Nat) (f : Formula) : Prop :=
  ∀ is g, f.at? is = some g → P (d + f.declaredAlong is) g

namespace Everywhere

variable {P : Nat → Formula → Prop} {d : Nat} {f g : Formula}

theorem self (h : f.Everywhere P d) : P d f := h [] f rfl

theorem part (h : f.Everywhere P d) (hg : g ∈ f.parts) : g.Everywhere P (d + f.declared.length) := by
  obtain ⟨i, hi⟩ := List.mem_iff_getElem?.1 hg
  intro is k hk
  have hthere := h (i :: is) k (by rw [at?, hi, Option.bind_some, hk])
  rwa [declaredAlong, hi, Option.map_some, Option.getD_some, ← Nat.add_assoc] at hthere

end Everywhere

/-- Every bound identifier refers to a declaration inside the formula, or to one of so many around it. -/
def BoundBelow (k : Nat) (f : Formula) : Prop :=
  ∀ is n i t, f.at? is = some (.expr (.bound n i t)) → i < k + f.declaredAlong is

theorem boundBelow_iff {k : Nat} {f : Formula} : f.BoundBelow k ↔
    (∀ n i t, f = .expr (.bound n i t) → i < k) ∧ ∀ g ∈ f.parts, g.BoundBelow (k + f.declared.length) := by
  constructor
  · intro h
    have heverywhere : f.Everywhere (fun d g => ∀ n i t, g = .expr (.bound n i t) → i < d) k := by
      rintro is _ hg n i t rfl
      exact h is n i t hg
    exact ⟨heverywhere.self, fun g hg is n i t hi => heverywhere.part hg is _ hi n i t rfl⟩
  · rintro ⟨hself, hparts⟩ is n i t hi
    cases is with
    | nil =>
      cases hi
      exact hself n i t rfl
    | cons j is =>
      obtain ⟨g, hg, hi⟩ := Option.bind_eq_some_iff.1 hi
      have hbelow := hparts g (List.mem_of_getElem? hg) is n i t hi
      rwa [declaredAlong, hg, Option.map_some, Option.getD_some, ← Nat.add_assoc]

end Formula
end SetLang
