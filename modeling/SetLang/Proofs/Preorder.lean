import SetLang.Walk
import SetLang.Proofs.Path

/-! The parts of a formula in preorder: each before its own parts, and from left to right. The list holds
what stands at any path, once, and the paths in it increase. -/

namespace SetLang
namespace Position

/-- Positions are ordered as lists of indices are, with the lists before their extensions. -/
theorem not_precedes_iff {p q : Position} : ¬q.precedes p ↔ p.indexes < q.indexes := by
  have hlt : (fun i j => Nat.blt i j = true) = fun i j : Nat => i < j :=
    funext₂ fun _ _ => Nat.blt_eq
  rw [precedes, Bool.not_eq_true, Bool.not_eq_false', List.lex_eq_true_iff_lex, hlt]
  rfl

theorem precedes_of_not_precedes {p q : Position} (h : ¬q.precedes p) : p.precedes q := by
  by_contra hnot
  exact List.lt_irrefl _ (List.lt_trans (not_precedes_iff.1 h) (not_precedes_iff.1 hnot))

def append (p q : Position) : Position := ⟨p.indexes ++ q.indexes⟩

def above (p q : Position) : Bool := p.indexes.isPrefixOf q.indexes && p != q

theorem above_iff {p q : Position} : p.above q ↔ ∃ i is, q.indexes = p.indexes ++ i :: is := by
  rw [above, Bool.and_eq_true, List.isPrefixOf_iff_prefix, bne_iff_ne]
  constructor
  · rintro ⟨⟨js, hjs⟩, hne⟩
    cases js with
    | nil => exact absurd (congrArg Position.mk ((List.append_nil _).symm.trans hjs)) hne
    | cons i is => exact ⟨i, is, hjs.symm⟩
  · rintro ⟨i, is, hq⟩
    refine ⟨⟨i :: is, hq.symm⟩, ?_⟩
    rintro rfl
    simpa using congrArg List.length hq

/-- What lies below different children of one node does not lie below each other. -/
theorem not_above_of_ne {p q r : Position} {i j : Nat} {is js : List Nat} (hne : i ≠ j)
    (hq : q.indexes = p.indexes ++ i :: is) (hr : r.indexes = p.indexes ++ j :: js) : ¬q.above r := by
  rw [above_iff]
  rintro ⟨k, ks, h⟩
  rw [hq, hr, List.append_assoc, List.append_cancel_left_eq, List.cons_append, List.cons.injEq] at h
  exact hne h.1.symm

end Position

namespace Formula

mutual

/-- The parts of a formula that stands at a position, itself included, each before its own parts and from
left to right. -/
def preorder (f : Formula) (p : Position) : List (Position × Formula) :=
  (p, f) :: preorderAll f.parts p 0
termination_by (f.size, 0)
decreasing_by exact Prod.Lex.left _ _ (sizes_parts_lt f)

def preorderAll (fs : List Formula) (p : Position) (i : Nat) : List (Position × Formula) :=
  match fs with
  | [] => []
  | f :: fs => f.preorder (p.child i) ++ preorderAll fs p (i + 1)
termination_by (sizes fs, fs.length + 1)
decreasing_by
  · simp only [sizes, Prod.lex_def]; omega
  · simp only [sizes, Prod.lex_def, List.length_cons]; omega

end

mutual

theorem mem_preorder (f : Formula) (p q : Position) (g : Formula) :
    (q, g) ∈ f.preorder p ↔ ∃ is, q.indexes = p.indexes ++ is ∧ f.at? is = some g := by
  rw [preorder, List.mem_cons, mem_preorderAll f.parts]
  constructor
  · rintro (h | ⟨i, is, hq, hg⟩)
    · cases h
      exact ⟨[], (List.append_nil _).symm, rfl⟩
    · exact ⟨i :: is, by rwa [Nat.zero_add] at hq, hg⟩
  · rintro ⟨is, hq, hg⟩
    cases is with
    | nil =>
      cases hg
      exact Or.inl (congrArg (·, f) (congrArg Position.mk (hq.trans (List.append_nil _))))
    | cons i is => exact Or.inr ⟨i, is, by rwa [Nat.zero_add], hg⟩
termination_by (f.size, 0)
decreasing_by exact Prod.Lex.left _ _ (sizes_parts_lt f)

theorem mem_preorderAll (fs : List Formula) (p : Position) (i : Nat) (q : Position) (g : Formula) :
    (q, g) ∈ preorderAll fs p i ↔
      ∃ k is, q.indexes = p.indexes ++ (i + k) :: is ∧ fs[k]?.bind (·.at? is) = some g := by
  match fs with
  | [] => simp [preorderAll]
  | f :: fs =>
    rw [preorderAll, List.mem_append, mem_preorder f, mem_preorderAll fs]
    constructor
    · rintro (⟨is, hq, hg⟩ | ⟨k, is, hq, hg⟩)
      · exact ⟨0, is, by rw [hq, Position.child, List.append_assoc]; rfl, hg⟩
      · exact ⟨k + 1, is, by rw [hq, Nat.add_right_comm, Nat.add_assoc], hg⟩
    · rintro ⟨k, is, hq, hg⟩
      cases k with
      | zero => exact Or.inl ⟨is, by rw [hq, Position.child, List.append_assoc]; rfl, hg⟩
      | succ k => exact Or.inr ⟨k, is, by rw [hq, Nat.add_right_comm, Nat.add_assoc], hg⟩
termination_by (sizes fs, fs.length + 1)
decreasing_by
  · simp only [sizes, Prod.lex_def]; omega
  · simp only [sizes, Prod.lex_def, List.length_cons]; omega

end

theorem mem_preorder_root {f g : Formula} {p : Position} :
    (p, g) ∈ f.preorder .root ↔ f.at? p.indexes = some g := by
  rw [mem_preorder]
  exact ⟨fun ⟨_, hp, hg⟩ => hp ▸ hg, fun h => ⟨p.indexes, rfl, h⟩⟩

/-- What is listed below a node lies strictly below it, and below one of the children. -/
theorem exists_of_mem_preorderAll {fs : List Formula} {p : Position} {i : Nat} {x : Position × Formula}
    (hx : x ∈ preorderAll fs p i) : ∃ j is, i ≤ j ∧ x.1.indexes = p.indexes ++ j :: is := by
  obtain ⟨k, is, hq, -⟩ := (mem_preorderAll fs p i x.1 x.2).1 hx
  exact ⟨i + k, is, Nat.le_add_right i k, hq⟩

theorem exists_of_mem_preorder_child {f : Formula} {p : Position} {i : Nat} {x : Position × Formula}
    (hx : x ∈ f.preorder (p.child i)) : ∃ is, x.1.indexes = p.indexes ++ i :: is := by
  obtain ⟨is, hq, -⟩ := (mem_preorder f (p.child i) x.1 x.2).1 hx
  exact ⟨is, by rw [hq, Position.child, List.append_assoc]; rfl⟩

mutual

/-- The positions increase. -/
theorem preorder_sorted (f : Formula) (p : Position) :
    (f.preorder p).Pairwise fun x y => x.1.indexes < y.1.indexes := by
  rw [preorder]
  refine List.Pairwise.cons (fun x hx => ?_) (preorderAll_sorted f.parts p 0)
  obtain ⟨j, is, -, hq⟩ := exists_of_mem_preorderAll hx
  rw [hq]
  have hlt : p.indexes ++ [] < p.indexes ++ j :: is := List.append_left_lt (List.nil_lt_cons j is)
  rwa [List.append_nil] at hlt
termination_by (f.size, 0)
decreasing_by exact Prod.Lex.left _ _ (sizes_parts_lt f)

theorem preorderAll_sorted (fs : List Formula) (p : Position) (i : Nat) :
    (preorderAll fs p i).Pairwise fun x y => x.1.indexes < y.1.indexes := by
  match fs with
  | [] =>
    rw [preorderAll]
    exact List.Pairwise.nil
  | f :: fs =>
    rw [preorderAll, List.pairwise_append]
    refine ⟨preorder_sorted f (p.child i), preorderAll_sorted fs p (i + 1), fun x hx y hy => ?_⟩
    obtain ⟨is, hq⟩ := exists_of_mem_preorder_child hx
    obtain ⟨j, js, hj, hr⟩ := exists_of_mem_preorderAll hy
    rw [hq, hr]
    exact List.append_left_lt (List.cons_lt_cons_iff.2 (Or.inl hj))
termination_by (sizes fs, fs.length + 1)
decreasing_by
  · simp only [sizes, Prod.lex_def]; omega
  · simp only [sizes, Prod.lex_def, List.length_cons]; omega

end

/-! What stands at a path -/

theorem isAssignment_of_mem_parts {f g : Formula} (h : g ∈ f.parts) : g.isAssignment = false := by
  cases f with
  | expr e => cases e <;> simp [parts, Expr.children] at h <;> grind [isAssignment]
  | pred q => cases q <;> simp [parts, Pred.children] at h <;> grind [isAssignment]
  | assignment a => cases h
  | decl d => cases h

theorem isAssignment_of_at? {f g : Formula} {is : List Nat} (hf : f.isAssignment = false)
    (h : f.at? is = some g) : g.isAssignment = false := by
  induction is generalizing f with
  | nil =>
    cases h
    exact hf
  | cons i is ih =>
    obtain ⟨k, hk, hg⟩ := Option.bind_eq_some_iff.1 h
    exact ih (isAssignment_of_mem_parts (List.mem_of_getElem? hk)) hg

theorem descendant_eq_ok_iff {f g : Formula} {p : Position} (hf : f.isAssignment = false) :
    f.descendant p = .ok g ↔ f.at? p.indexes = some g := by
  cases h : f.at? p.indexes with
  | none =>
    simp only [descendant, support, hf, h]
    constructor <;> intro he <;> cases he
  | some k => rw [descendant_eq_ok hf h, Except.ok.injEq, Option.some.injEq]

theorem descendant_eq_error_iff {f : Formula} {p : Position} {e : FormulaError}
    (hf : f.isAssignment = false) :
    f.descendant p = .error e ↔ e = .invalidPosition p ∧ f.at? p.indexes = none := by
  cases h : f.at? p.indexes with
  | none =>
    simp only [descendant, support, hf, h]
    refine ⟨fun he => ?_, fun he => he.1 ▸ rfl⟩
    cases he
    trivial
  | some k =>
    rw [descendant_eq_ok hf h]
    exact ⟨fun he => (by cases he), fun he => (by cases he.2)⟩

theorem childCount_eq {f : Formula} (hf : f.isAssignment = false) : f.childCount = .ok f.parts.length := by
  rw [childCount, support, hf]
  rfl

/-- No part stands at a path exactly if some index on it is too large for the node reached by then. -/
theorem at?_eq_none_iff {f : Formula} {is : List Nat} : f.at? is = none ↔
    ∃ js i ks g, is = js ++ i :: ks ∧ f.at? js = some g ∧ g.parts.length ≤ i := by
  induction is generalizing f with
  | nil => simp [at?]
  | cons i is ih =>
    rw [at?]
    cases hk : f.parts[i]? with
    | none =>
      refine ⟨fun _ => ⟨[], i, is, f, rfl, rfl, List.getElem?_eq_none_iff.1 hk⟩, fun _ => rfl⟩
    | some k =>
      rw [Option.bind_some, ih]
      constructor
      · rintro ⟨js, j, ks, g, rfl, hg, hj⟩
        exact ⟨i :: js, j, ks, g, rfl, by rw [at?, hk, Option.bind_some, hg], hj⟩
      · rintro ⟨js, j, ks, g, his, hg, hj⟩
        cases js with
        | nil =>
          cases hg
          cases his
          rw [List.getElem?_eq_none hj] at hk
          cases hk
        | cons j' js =>
          cases his
          rw [at?, hk, Option.bind_some] at hg
          exact ⟨js, j, ks, g, rfl, hg, hj⟩

end Formula
end SetLang
