import SetLang.Proofs.Rebuild.Run
import SetLang.Proofs.Semantics.Meaning
import SetLang.Substitution

/-! Substitution of expressions for free identifiers. Replacements are put below declarations as they are, so
that nothing is captured as long as they refer to no declarations around them. -/

namespace SetLang

universe u

variable {s t : Store} {held : Set Formula} {nodes : Nat → Set Formula} {σ : Substitution} {F : Factory}

namespace Substitution

/-- What a substitution makes of identifiers. -/
inductive Leaf (σ : Substitution) : Nat → Expr → Expr → Prop
  | replaced {d : Nat} {n : Node} {x : String} {u : Option Ty} {e : Expr} : σ.replacement? x = some e →
    Leaf σ d (.free n x u) e
  | free {d : Nat} {n n' : Node} {x : String} {u u' : Option Ty} : σ.replacement? x = none →
    Leaf σ d (.free n x u) (.free n' x u')
  | bound {d : Nat} {n n' : Node} {i : Nat} {u u' : Option Ty} : Leaf σ d (.bound n i u) (.bound n' i u')

/-- The valuation that gives the names that are replaced the values of their replacements, read in a stack that
does not count where these refer to nothing in it. -/
def valuation {V W : Type u} (σ : Substitution) (M : Operators V W) (s : Store) (v : String → V) (st : Nat → V)
    (x : String) : V :=
  match σ.replacement? x with
  | some e => e.meaning M s v st
  | none => v x

theorem rebuilder_of_some {x : String} {e : Expr} (h : σ.replacement? x = some e) (o : Option Ty) :
    (σ.rebuilder F).free x o = pure e := by
  simp only [rebuilder, h]

theorem rebuilder_of_none {x : String} (h : σ.replacement? x = none) (o : Option Ty) :
    (σ.rebuilder F).free x o = F.free x o := by
  simp only [rebuilder, h]

theorem respects (hσ : ∀ x e, σ.replacement? x = some e → e.factory = F) :
    (σ.rebuilder F).Respects s nodes (Formula.Replaced σ.Leaf F nodes s) := by
  refine Rebuilder.respects_replaced rfl (fun _ _ _ _ _ => rfl) (fun n x u o t d => ?_) fun n i u o t d => ?_
  · cases he : σ.replacement? x with
    | some e =>
      rw [rebuilder_of_some he]
      exact Succeeds.pure ⟨.refl t, hσ x e he, .replaced he⟩
    | none =>
      rw [rebuilder_of_none he]
      refine (Build.succeeds_identifier (.free · x o) (fun _ => rfl) (fun _ => rfl) fun _ => trivial).mono ?_
      rintro _ t' ⟨hgrown, hfactory, n', rfl⟩
      exact ⟨hgrown, hfactory, .free he⟩
  · refine (Build.succeeds_identifier (.bound · i o) (fun _ => rfl) (fun _ => rfl) fun _ => trivial).mono ?_
    rintro _ t' ⟨hgrown, hfactory, n', rfl⟩
    exact ⟨hgrown, hfactory, .bound⟩

section

variable {f g : Formula} {d : Nat}

/-- The replacements say the same in the store of the result, and wherever they are put. -/
theorem offsets {V W : Type u} (M : Operators V W) (v : String → V) (st : Nat → V)
    (hbelow : ∀ x e, σ.replacement? x = some e → (Formula.expr e).BoundBelow 0)
    (hdecls : ∀ x e, σ.replacement? x = some e → ∀ b, .decl b ∈ (Formula.expr e).nodes → b.type? t = b.type? s) :
    Offsets M (Formula.Replaced σ.Leaf F nodes s t) s t (σ.valuation M s v st) v fun _ st st' => st = st' where
  identifier d g g' st₁ st₂ hid h hst := by
    subst hst
    cases g with
    | expr e =>
      obtain ⟨e', rfl, hleaf⟩ := h.leaf e rfl hid
      cases hleaf with
      | @replaced n x u _ he =>
        have hmeaning : (Formula.expr e').meaning M s v st = (Formula.expr e').meaning M t v st₁ :=
          Formula.meaning_eq_of_boundBelow (hbelow x e' he) (fun i hi => absurd hi (Nat.not_lt_zero i))
            (hdecls x e' he)
        rw [← hmeaning]
        simp only [Formula.meaning, Expr.meaning, valuation, he]
      | free hnone => simp only [Formula.meaning, Expr.meaning, valuation, hnone]
      | bound => simp only [Formula.meaning, Expr.meaning]
    | _ => exact hid.elim
  decl d b b' h := by
    obtain ⟨b', ⟨⟩, -, htype⟩ := h.decl b rfl
    exact htype
  push d n xs st₁ st₂ hst := by rw [hst]

theorem mem_freeNames_rebuilt (h : f.Rebuilt (Formula.Replaced σ.Leaf F nodes s t) d g) {x : String} :
    x ∈ g.freeNames ↔ (x ∈ f.freeNames ∧ σ.replacement? x = none) ∨
      ∃ y ∈ f.freeNames, ∃ e, σ.replacement? y = some e ∧ x ∈ (Formula.expr e).freeNames := by
  constructor
  · intro hx
    obtain ⟨n, u, hnode⟩ := Formula.mem_freeNames.1 hx
    obtain ⟨d', g', -, hid, hg'⟩ | ⟨d', g', hg', hid, k, hk, hnode⟩ := h.exists_source hnode
    · exact absurd (hg'.isIdentifier trivial) hid
    · cases g' with
      | expr e =>
        obtain ⟨e', rfl, hleaf⟩ := hk.leaf e rfl hid
        cases hleaf with
        | @replaced n y u _ he =>
          exact .inr ⟨y, Formula.mem_freeNames.2 ⟨n, u, hg'⟩, e', he, Formula.mem_freeNames.2 ⟨_, _, hnode⟩⟩
        | @free m m' y u u' hnone =>
          obtain ⟨o, ho, hn⟩ := hnode
          obtain rfl := List.mem_singleton.1 ho
          cases hn
          exact .inl ⟨Formula.mem_freeNames.2 ⟨m, u, hg'⟩, hnone⟩
        | bound =>
          obtain ⟨o, ho, hn⟩ := hnode
          obtain rfl := List.mem_singleton.1 ho
          cases hn
      | _ => exact hid.elim
  · -- what has become of an occurrence of `y` is a node of the result, and so are its nodes
    have hfound : ∀ {y}, y ∈ f.freeNames → ∃ n u, ∃ e', .expr e' ∈ g.nodes ∧
        ∃ d', σ.Leaf d' (.free n y u) e' := by
      intro y hy
      obtain ⟨n, u, hnode⟩ := Formula.mem_freeNames.1 hy
      obtain ⟨d', g', hg', hrebuilt⟩ := h.exists_of_mem_nodes hnode
      obtain ⟨e', rfl, hleaf⟩ := hrebuilt.node.leaf _ rfl trivial
      exact ⟨n, u, e', hg', d', hleaf⟩
    rintro (⟨hx, hnone⟩ | ⟨y, hy, e, he, hx⟩)
    · obtain ⟨n, u, e', he', d', hleaf⟩ := hfound hx
      cases hleaf with
      | replaced he => rw [hnone] at he; cases he
      | free _ => exact Formula.mem_freeNames.2 ⟨_, _, he'⟩
    · obtain ⟨n, u, e', he', d', hleaf⟩ := hfound hy
      cases hleaf with
      | replaced he'' =>
        obtain rfl := Option.some_inj.1 (he.symm.trans he'')
        obtain ⟨m, u', hnode⟩ := Formula.mem_freeNames.1 hx
        exact Formula.mem_freeNames.2 ⟨m, u', Formula.nodes_trans he' hnode⟩
      | free hnone => rw [he] at hnone; cases hnone

/-- Where no name is replaced, nothing changes that equality sees. -/
theorem keepsNames (hnone : ∀ x ∈ f.freeNames, σ.replacement? x = none) :
    KeepsNames (Formula.Replaced σ.Leaf F (fun _ => f.nodes) s t) where
  leaf d g g' hid h := by
    cases g with
    | expr e =>
      obtain ⟨e', rfl, hleaf⟩ := h.leaf e rfl hid
      cases hleaf with
      | replaced he =>
        rw [hnone _ (Formula.mem_freeNames.2 ⟨_, _, h.source⟩)] at he
        cases he
      | free _ => simp [Formula.same, Expr.same]
      | bound => simp [Formula.same, Expr.same]
    | _ => exact hid.elim
  decl d b b' h := by
    obtain ⟨b', ⟨⟩, hname, -⟩ := h.decl b rfl
    exact hname

end

/-- Substitution succeeds on every formula of the factory that is no assignment. The result means what the formula
means where the replaced names have the values of their replacements; its free names are those that are not
replaced and those of the replacements that are used; and where none is used, it is equal to the formula. -/
theorem formula_correct (hmoves : Session.Moves .empty ∅ s held) {f : Formula} (hf : f ∈ held)
    (hkind : f.isAssignment = false) (hF : f.OfFactory F)
    (hσ : ∀ x e, σ.replacement? x = some e →
      .expr e ∈ held ∧ e.factory = F ∧ (Formula.expr e).BoundBelow 0) :
    ∃ g t, ((σ.rebuilder F).formula f).run s = (.ok g, t) ∧
      (∀ (V W : Type u) (M : Operators V W) (v : String → V) (st st₀ : Nat → V),
        g.meaning M t v st = f.meaning M s (σ.valuation M s v st₀) st) ∧
      (∀ x, x ∈ g.freeNames ↔ (x ∈ f.freeNames ∧ σ.replacement? x = none) ∨
        ∃ y ∈ f.freeNames, ∃ e, σ.replacement? y = some e ∧ x ∈ (Formula.expr e).freeNames) ∧
      ((∀ x ∈ f.freeNames, σ.replacement? x = none) → f.same g = true) := by
  have hsound := hmoves.sound
  have hclosed : ClosedSet f.nodes := fun _ hg _ hh => Formula.nodes_closed hg hh
  obtain ⟨g, t, hrun, hgrown, hrebuilt⟩ := Rebuilder.succeeds_formula (respects fun x e he => (hσ x e he).2.1)
    hclosed (hmoves.remakable hf hF) f.mem_nodes_self hkind
  refine ⟨g, t, hrun, fun V W M v st st₀ => ?_, fun x => mem_freeNames_rebuilt hrebuilt, fun hnone =>
    hrebuilt.same (keepsNames hnone)⟩
  have hdecls : ∀ x e, σ.replacement? x = some e → ∀ b, .decl b ∈ (Formula.expr e).nodes →
      b.type? t = b.type? s := fun x e he b hb =>
    hgrown.type? b.slot (hsound.slot_lt (Formula.nodes_subset hsound.closed (hσ x e he).1 hb) rfl)
  exact (hrebuilt.meaning (offsets M v st₀ (fun x e he => (hσ x e he).2.2) hdecls) rfl).symm

/-- `∀x·x ∈ B` -/
def allMembers : Pred :=
  .quantified ⟨bareFactory, 1⟩ .all [⟨"x", 3⟩]
    (.comparison ⟨bareFactory, 0⟩ .mem (.bound ⟨bareFactory, 1⟩ 0 none) (.free ⟨bareFactory, 2⟩ "B" none))

def freeForSet : Substitution := ⟨[("B", .free ⟨bareFactory, 4⟩ "x" none)]⟩

theorem reached_allMembers : ∃ held, Session.Moves .empty ∅ ⟨#[none, none, none, none, none], #[false, false], 0⟩ held ∧
    .pred allMembers ∈ held ∧ .expr (.free ⟨bareFactory, 4⟩ "x" none) ∈ held := by
  obtain ⟨held₁, -, hx, h₁⟩ := Session.Moves.empty.declare "x" none
  obtain ⟨held₂, hsub₂, hbound, h₂⟩ := h₁.makeLeaf bareFactory (.bound ⟨bareFactory, 1⟩ 0 none) _
    ⟨#[none, none], #[], 0⟩ rfl trivial rfl
  obtain ⟨held₃, hsub₃, hfree, h₃⟩ := h₂.makeLeaf bareFactory (.free ⟨bareFactory, 2⟩ "B" none) _
    ⟨#[none, none, none], #[], 0⟩ rfl trivial rfl
  obtain ⟨held₄, hsub₄, hmem, h₄⟩ := h₃.makePred bareFactory (.comparison ⟨bareFactory, 0⟩ .mem _ _) _
    ⟨#[none, none, none], #[false], 0⟩ (List.forall_mem_cons.2 ⟨hsub₃ hbound, List.forall_mem_singleton.2 hfree⟩)
    trivial rfl
  obtain ⟨held₅, hsub₅, hall, h₅⟩ := h₄.makePred bareFactory (.quantified ⟨bareFactory, 1⟩ .all [⟨"x", 0⟩] _)
    allMembers ⟨#[none, none, none, none], #[false, false], 0⟩
    (List.forall_mem_cons.2 ⟨hsub₄ (hsub₃ (hsub₂ hx)), List.forall_mem_singleton.2 hmem⟩) trivial rfl
  obtain ⟨held₆, hsub₆, hother, h₆⟩ := h₅.makeLeaf bareFactory (.free ⟨bareFactory, 4⟩ "x" none) _
    ⟨#[none, none, none, none, none], #[false, false], 0⟩ rfl trivial rfl
  exact ⟨held₆, h₆, hsub₆ hall, hother⟩

/-- The free identifier is not captured by the declaration of its name. -/
theorem formula_correct_allMembers : ∃ s held, Session.Moves .empty ∅ s held ∧ .pred allMembers ∈ held ∧
    (Formula.pred allMembers).OfFactory bareFactory ∧ ∃ g t,
      ((freeForSet.rebuilder bareFactory).formula (.pred allMembers)).run s = (.ok g, t) ∧
        (∀ (V W : Type) (M : Operators V W) (v : String → V) (st : Nat → V), g.meaning M t v st =
          some (.inr (M.quantifier .all [none] fun xs => M.comparison .mem (xs 0) (v "x")))) ∧
        "x" ∈ g.freeNames ∧ "B" ∉ g.freeNames := by
  obtain ⟨held, hreached, hall, hother⟩ := reached_allMembers
  have hfactory : (Formula.pred allMembers).OfFactory bareFactory := Formula.ofFactory_of_replicate 4 rfl rfl
  have hreplaced : ∀ x e, freeForSet.replacement? x = some e →
      x = "B" ∧ e = .free ⟨bareFactory, 4⟩ "x" none := by
    intro x e he
    simp only [replacement?, freeForSet, List.reverse_singleton, List.lookup_cons, List.lookup_nil] at he
    split at he
    · cases he
      exact ⟨by simp_all, rfl⟩
    · cases he
  have hclosed : ∀ x e, freeForSet.replacement? x = some e →
      .expr e ∈ held ∧ e.factory = bareFactory ∧ (Formula.expr e).BoundBelow 0 := by
    intro x e he
    obtain ⟨-, rfl⟩ := hreplaced x e he
    exact ⟨hother, rfl, Formula.boundBelow_iff.2 ⟨nofun, nofun⟩⟩
  obtain ⟨g, t, hrun, hmeaning, hfree, -⟩ :=
    formula_correct hreached hall rfl hfactory hclosed
  refine ⟨_, held, hreached, hall, hfactory, g, t, hrun, fun V W M v st => ?_, ?_, fun hB => ?_⟩
  · rw [hmeaning V W M v st st]
    rfl
  · exact (hfree "x").2 (.inr ⟨"B", by decide, _, rfl, by decide⟩)
  · obtain ⟨-, hnone⟩ | ⟨y, -, e, he, hB⟩ := (hfree "B").1 hB
    · cases hnone
    · obtain ⟨-, rfl⟩ := hreplaced y e he
      revert hB
      decide

end Substitution
end SetLang
