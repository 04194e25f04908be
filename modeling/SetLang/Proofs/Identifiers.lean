import SetLang.Assignment
import SetLang.Proofs.Walk

/-! The free identifiers of a formula, as a walk finds them: one of each name. -/

namespace SetLang

variable {f g : Formula} {x : String} {n : Node} {u : Option Ty}

def Expr.Found (x : String) (es : List Expr) : Prop := ∃ e ∈ es, e.freeName? = some x

namespace Expr

theorem freeName?_of_same {e e' : Expr} (h : e.same e' = true) (hx : e'.freeName? = some x) :
    e.freeName? = some x := by
  cases e' with
  | free n' y u' =>
    obtain rfl := Option.some_inj.1 hx
    cases e with
    | free n z u => exact congrArg some (eq_of_beq h)
    | _ => cases h
  | _ => cases hx

theorem found_append {es es' : List Expr} : Found x (es ++ es') ↔ Found x es ∨ Found x es' := by
  simp only [Found, List.mem_append, or_and_right, exists_or]

theorem found_foldl (es : List Expr) {found : List Expr} (h : Found x (found ++ es)) :
    Found x (es.foldl (fun found e => if found.any (·.same e) then found else found ++ [e]) found) := by
  induction es generalizing found with
  | nil => simpa using h
  | cons e es ih =>
    rw [List.foldl_cons]
    split
    next hany =>
      rw [← List.singleton_append, ← List.append_assoc, found_append, found_append] at h
      refine ih (found_append.2 (h.imp_left fun h => h.elim id ?_))
      rintro ⟨_, he, hx⟩
      obtain rfl := List.mem_singleton.1 he
      obtain ⟨e', he', hsame⟩ := List.any_eq_true.1 hany
      exact ⟨e', he', freeName?_of_same hsame hx⟩
    next => exact ih (by rwa [List.append_assoc, List.singleton_append])

end Expr

namespace Formula

theorem exists_at?_of_mem_nodes (hf : f.isAssignment = false) (hg : g ∈ f.nodes) : ∃ is, f.at? is = some g := by
  have hclosed : ClosedSet {g | ∃ is, f.at? is = some g} := by
    rintro g ⟨is, hg⟩ k hk
    have hparts : k ∈ g.parts := by
      cases g with
      | assignment a => cases isAssignment_of_at? hf hg
      | _ => exact hk
    obtain ⟨i, hi⟩ := List.mem_iff_getElem?.1 hparts
    exact ⟨is ++ [i], at?_child (p := ⟨is⟩) hg hi⟩
  exact f.nodes_subset hclosed ⟨[], rfl⟩ hg

/-- A free identifier that was visited has been found, or an earlier one of its name. -/
theorem found_of_makes {acc acc' : Accumulator Unit Expr} {vs : List (Visited Expr)}
    (h : freeIdentifier.stateless.Makes acc vs acc') {v : Visited Expr} (hv : v ∈ vs)
    (hx : v.node = .expr (.free n x u)) : Expr.Found x acc'.found := by
  induction h with
  | none _ => cases hv
  | @next acc acc' p g vs hmakes ih =>
    rcases List.mem_cons.1 hv with rfl | hv
    · obtain rfl : g = _ := hx
      rw [hmakes.found_eq, Expr.found_append]
      right
      change Expr.Found x ((ite _ _ _ : List Expr).reverse ++ acc.found)
      split
      next hany =>
        obtain ⟨e, he, hsame⟩ := List.any_eq_true.1 hany
        exact ⟨e, he, Expr.freeName?_of_same hsame rfl⟩
      next => exact ⟨.free n x u, List.mem_cons_self, rfl⟩
    · exact ih hv

theorem found_of_mem_freeNames (hf : f.isAssignment = false) (hx : x ∈ f.freeNames) :
    Expr.Found x f.freeIdentifiers := by
  obtain ⟨n, u, hnode⟩ := mem_freeNames.1 hx
  obtain ⟨is, his⟩ := exists_at?_of_mem_nodes hf hnode
  have hnever : ∀ found p g, (freeIdentifier found p g).skipChildren = false ∧
      (freeIdentifier found p g).skipAll = false := fun found p g => by
    unfold freeIdentifier
    split <;> exact ⟨rfl, rfl⟩
  obtain ⟨vs, acc, hmakes, hplaces, hresult⟩ := inspect_all hf hnever
  obtain ⟨v, hv, hplace⟩ : ∃ v ∈ vs, v.place = (⟨is⟩, .expr (.free n x u)) := by
    rw [← List.mem_map, hplaces]
    exact mem_preorder_root.2 his
  have hfound := found_of_makes hmakes hv (Prod.ext_iff.1 hplace).2
  rw [hmakes.found_eq, List.append_nil] at hfound
  obtain ⟨e, he, hname⟩ := hfound
  refine ⟨e, ?_, hname⟩
  rw [freeIdentifiers, hresult]
  exact List.mem_reverse.1 he

end Formula

/-- The free names on the right side of an assignment are those of the identifiers that it uses. -/
theorem Assignment.found_used {a : Assignment} (hg : g ∈ a.assigned.components) (hx : x ∈ g.freeNames) :
    Expr.Found x a.used := by
  unfold used
  cases ha : a.assigned with
  | values es =>
    rw [ha] at hg
    obtain ⟨e, he, rfl⟩ := List.mem_map.1 hg
    obtain ⟨e', he', hname⟩ := Formula.found_of_mem_freeNames rfl hx
    exact Expr.found_foldl _ ⟨e', List.mem_flatMap.2 ⟨e, he, he'⟩, hname⟩
  | member e =>
    rw [ha] at hg
    obtain rfl := List.mem_singleton.1 hg
    exact Formula.found_of_mem_freeNames rfl hx
  | such ds p =>
    rw [ha] at hg
    rcases List.mem_append.1 hg with hg | hg
    · obtain ⟨b, -, rfl⟩ := List.mem_map.1 hg
      cases hx
    · obtain rfl := List.mem_singleton.1 hg
      exact Formula.found_of_mem_freeNames rfl hx

end SetLang
