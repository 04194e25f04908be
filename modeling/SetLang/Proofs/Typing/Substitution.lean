import SetLang.Proofs.Rebuild.Typed
import SetLang.Proofs.Substitution

/-! Substitution keeps types. Where identifiers are replaced by expressions of their types, what is made is typed
again, and every node has the type of the node that it was made from. -/

namespace SetLang

variable {s t : Store} {held : Set Formula} {σ : Substitution} {F : Factory} {f g : Formula}

namespace Substitution

/-- Identifiers in the formula are replaced by typed expressions of their types. -/
def KeepsTypes (σ : Substitution) (s : Store) (f : Formula) : Prop :=
  ∀ n x u e, .expr (.free n x u) ∈ f.nodes → σ.replacement? x = some e →
    (Formula.expr e).Settled s ∧ (Formula.expr (.free n x u)).KeepsType s s (.expr e)

theorem respects_retyped (hF : ∀ x e, σ.replacement? x = some e → e.factory = F)
    (hf : ∀ g ∈ f.nodes, g.Formed ∧ g.Settled s) (hσ : σ.KeepsTypes s f) :
    (σ.rebuilder F).Respects s (fun _ => f.nodes) fun t _ => Formula.Retyped F s t := by
  refine Rebuilder.respects_retyped rfl (fun _ _ _ _ _ => rfl) (fun _ => hf) (fun n x u t _ hx ht => ?_)
    fun n i u t d hi _ => ?_
  · cases he : σ.replacement? x with
    | some e =>
      rw [rebuilder_of_some he]
      obtain ⟨hsettled, htype⟩ := hσ n x u e hx he
      have hretyped : (Formula.expr (.free n x u)).Retyped F s s (.expr e) :=
        ⟨by rintro _ ⟨⟩; exact hF x e he, hsettled, htype⟩
      exact Succeeds.pure ⟨.refl t, hretyped.mono ht.later⟩
    | none =>
      rw [rebuilder_of_none he]
      exact Build.succeeds_retyped (.free · x _) (fun _ => rfl) (fun _ => trivial) (fun _ => rfl) trivial
        (hf _ hx).2
  · exact Build.succeeds_retyped (.bound · i _) (fun _ => rfl) (fun _ => trivial) (fun _ => rfl) trivial
      (hf _ hi).2

/-- A node and what has become of it: of the same kind, or a replacement, and of the same type. -/
def Goes (σ : Substitution) (F : Factory) (f : Formula) (s t : Store) (d : Nat) (g g' : Formula) : Prop :=
  Formula.Replaced σ.Leaf F (fun _ => f.nodes) s t d g g' ∧ g.Retyped F s t g'

theorem isTyped_of_rebuilt (hs : s.Sound held) (hgrown : s.Grown t)
    (hσ : ∀ n x u e, .expr (.free n x u) ∈ f.nodes → σ.replacement? x = some e → .expr e ∈ held ∧ e.isTyped s)
    (h : f.Rebuilt (σ.Goes F f s t) 0 g) : ∀ k ∈ g.nodes, k.isTyped t := by
  intro k hk
  obtain ⟨d, c, -, -, hck⟩ | ⟨d, c, hc, hid, c', hcc', hk⟩ := h.exists_source hk
  · exact hck.node.2.settled.typed
  · cases c with
    | expr e =>
      obtain ⟨e', rfl, hleaf⟩ := hcc'.1.leaf e rfl hid
      have hself : ∀ {k}, k ∈ (Formula.expr e').nodes → (Formula.expr e').IsIdentifier → k.isTyped t := by
        rintro _ ⟨o, ho, rfl⟩ hid'
        have htyped := hcc'.2.settled.typed
        cases e' <;> first | exact hid'.elim | exact List.mem_singleton.1 ho ▸ htyped
      cases hleaf with
      | replaced he =>
        obtain ⟨hheld, htyped⟩ := hσ _ _ _ _ hc he
        exact Formula.isTyped_mono (Session.isTyped_of_mem_nodes hs hheld htyped hk) hgrown.later
      | free => exact hself hk trivial
      | bound => exact hself hk trivial
    | _ => exact hid.elim

theorem parts_eq_nil (hnone : ∀ x ∈ f.freeNames, σ.replacement? x = none) {d : Nat} {k k' : Formula}
    (hid : k.IsIdentifier) (h : Formula.Replaced σ.Leaf F (fun _ => f.nodes) s t d k k') : k'.parts = [] := by
  cases k with
  | expr e =>
    obtain ⟨e', rfl, hleaf⟩ := h.leaf e rfl hid
    cases hleaf with
    | replaced he =>
      rw [hnone _ (Formula.mem_freeNames.2 ⟨_, _, h.source⟩)] at he
      cases he
    | free | bound => rfl
  | _ => exact hid.elim

/-- Substitution of typed expressions for identifiers of their types makes a typed formula. What was made of a node
has the type of the node; and where no name is replaced, the whole formula is as it was. -/
theorem formula_typed (hmoves : Session.Moves .empty ∅ s held) (hf : f ∈ held) (hkind : f.isAssignment = false)
    (hF : f.OfFactory F) (htyped : f.isTyped s) (hσF : ∀ x e, σ.replacement? x = some e → e.factory = F)
    (hσ : ∀ n x u e, .expr (.free n x u) ∈ f.nodes → σ.replacement? x = some e →
      .expr e ∈ held ∧ e.isTyped s ∧ (Formula.expr (.free n x u)).KeepsType s s (.expr e)) :
    ∃ g t, ((σ.rebuilder F).formula f).run s = (.ok g, t) ∧ (∀ k ∈ g.nodes, k.isTyped t) ∧
      (∀ is k, f.at? is = some k → ∃ k', g.at? is = some k' ∧ k.KeepsType s t k') ∧
      ((∀ x ∈ f.freeNames, σ.replacement? x = none) → f.same g = true ∧
        ∀ is k', g.at? is = some k' → ∃ k, f.at? is = some k ∧ k.KeepsType s t k') := by
  have hs := hmoves.sound
  have hclosed : ClosedSet f.nodes := fun _ hg _ hh => Formula.nodes_closed hg hh
  have hsub := f.nodes_subset hs.closed hf
  have hsettled : ∀ g ∈ f.nodes, g.Formed ∧ g.Settled s := fun g hg =>
    ⟨hs.formed g (hsub hg), hs.settled (hsub hg) (Session.isTyped_of_mem_nodes hs hf htyped hg)⟩
  have hkeeps : σ.KeepsTypes s f := fun n x u e hx he => by
    obtain ⟨hheld, htyped, htype⟩ := hσ n x u e hx he
    exact ⟨hs.settled hheld htyped, htype⟩
  obtain ⟨g, t, hrun, hgrown, hrebuilt⟩ := Rebuilder.succeeds_formula
    ((respects hσF).and (respects_retyped hσF hsettled hkeeps)) hclosed (hmoves.remakable hf hF) f.mem_nodes_self
    hkind
  refine ⟨g, t, hrun, isTyped_of_rebuilt hs hgrown
    (fun n x u e hx he => (hσ n x u e hx he).imp_right And.left) hrebuilt, fun is k hk => ?_, fun hnone =>
    ⟨?_, fun is k' hk' => ?_⟩⟩
  · obtain ⟨k', hk', hgoes⟩ := hrebuilt.at? hk
    exact ⟨k', hk', hgoes.node.2.type⟩
  · have hnames := keepsNames (F := F) (s := s) (t := t) hnone
    exact hrebuilt.same ⟨fun d c c' hid h => hnames.leaf d c c' hid h.1, fun d b b' h => hnames.decl d b b' h.1⟩
  · obtain ⟨-, k, hk, hgoes⟩ := hrebuilt.exists_at? (fun _ _ _ hid h => parts_eq_nil hnone hid h.1) hk'
    exact ⟨k, hk, hgoes.node.2.type⟩

/-- `∀x·x ∈ B` where `x` is a truth value -/
def allTruths : Pred :=
  .quantified ⟨bareFactory, 1⟩ .all [⟨"x", 3⟩] (.comparison ⟨bareFactory, 0⟩ .mem
    (.bound ⟨bareFactory, 1⟩ 0 (some .boolean)) (.free ⟨bareFactory, 2⟩ "B" (some (.power .boolean))))

def truthsForSet : Substitution := ⟨[("B", .atom ⟨bareFactory, 4⟩ .boolSet none)]⟩

def truthsStore : Store where
  types := #[some .boolean, some .boolean, some (.power .boolean), some .boolean, some (.power .boolean)]
  marks := #[true, true]
  factories := 0

theorem reached_allTruths : ∃ held, Session.Moves .empty ∅ truthsStore held ∧ .pred allTruths ∈ held ∧
    .expr (.atom ⟨bareFactory, 4⟩ .boolSet none) ∈ held := by
  obtain ⟨held₁, -, hx, h₁⟩ := Session.Moves.empty.declare "x" (some .boolean)
  obtain ⟨held₂, hsub₂, hbound, h₂⟩ := h₁.makeLeaf bareFactory (.bound ⟨bareFactory, 1⟩ 0 (some .boolean)) _
    ⟨#[some .boolean, some .boolean], #[], 0⟩ rfl trivial rfl
  obtain ⟨held₃, hsub₃, hfree, h₃⟩ := h₂.makeLeaf bareFactory
    (.free ⟨bareFactory, 2⟩ "B" (some (.power .boolean))) _
    ⟨#[some .boolean, some .boolean, some (.power .boolean)], #[], 0⟩ rfl trivial rfl
  obtain ⟨held₄, hsub₄, hmem, h₄⟩ := h₃.makePred bareFactory (.comparison ⟨bareFactory, 0⟩ .mem _ _) _
    ⟨#[some .boolean, some .boolean, some (.power .boolean)], #[true], 0⟩
    (List.forall_mem_cons.2 ⟨hsub₃ hbound, List.forall_mem_singleton.2 hfree⟩) trivial rfl
  obtain ⟨held₅, hsub₅, hall, h₅⟩ := h₄.makePred bareFactory (.quantified ⟨bareFactory, 1⟩ .all [⟨"x", 0⟩] _)
    allTruths ⟨#[some .boolean, some .boolean, some (.power .boolean), some .boolean], #[true, true], 0⟩
    (List.forall_mem_cons.2 ⟨hsub₄ (hsub₃ (hsub₂ hx)), List.forall_mem_singleton.2 hmem⟩) trivial rfl
  obtain ⟨held₆, hsub₆, hset, h₆⟩ := h₅.makeLeaf bareFactory (.atom ⟨bareFactory, 4⟩ .boolSet none) _ truthsStore
    rfl trivial rfl
  exact ⟨held₆, h₆, hsub₆ hall, hset⟩

/-- The set in place of the identifier has its type, and all that is made around it is typed. -/
theorem formula_typed_allTruths : ∃ held, Session.Moves .empty ∅ truthsStore held ∧ .pred allTruths ∈ held ∧
    (Formula.pred allTruths).OfFactory bareFactory ∧ (Formula.pred allTruths).isTyped truthsStore ∧ ∃ g t,
      ((truthsForSet.rebuilder bareFactory).formula (.pred allTruths)).run truthsStore = (.ok g, t) ∧
        (∀ k ∈ g.nodes, k.isTyped t) ∧
        ∃ k, g.at? [1, 1] = some k ∧ (k.type? t).map TypeTree.named = some (.power .boolean) := by
  obtain ⟨held, hreached, hall, hset⟩ := reached_allTruths
  have hfactory : (Formula.pred allTruths).OfFactory bareFactory := Formula.ofFactory_of_replicate 4 rfl rfl
  have hreplaced : ∀ x e, truthsForSet.replacement? x = some e →
      x = "B" ∧ e = .atom ⟨bareFactory, 4⟩ .boolSet none := by
    intro x e he
    simp only [replacement?, truthsForSet, List.reverse_singleton, List.lookup_cons, List.lookup_nil] at he
    split at he
    · cases he
      exact ⟨by simp_all, rfl⟩
    · cases he
  have hkeeps : ∀ n x u e, .expr (.free n x u) ∈ (Formula.pred allTruths).nodes →
      truthsForSet.replacement? x = some e → .expr e ∈ held ∧ e.isTyped truthsStore ∧
        (Formula.expr (.free n x u)).KeepsType truthsStore truthsStore (.expr e) := by
    intro n x u e hx he
    obtain ⟨rfl, rfl⟩ := hreplaced x e he
    obtain ⟨o, ho, hn⟩ := hx
    simp only [Formula.occurrences, allTruths, Pred.occurrences, Expr.occurrences, List.map_cons, List.map_nil,
      List.cons_append, List.nil_append, List.mem_cons, List.not_mem_nil, or_false] at ho
    obtain rfl | rfl | rfl | rfl | rfl := ho <;> cases hn
    exact ⟨hset, rfl, rfl⟩
  obtain ⟨g, t, hrun, htyped, hpaths, -⟩ := formula_typed hreached hall rfl hfactory rfl
    (fun x e he => by rw [(hreplaced x e he).2]; rfl) hkeeps
  obtain ⟨k, hk, htype⟩ := hpaths [1, 1] _ rfl
  exact ⟨held, hreached, hall, hfactory, rfl, g, t, hrun, htyped, k, hk, htype⟩

end Substitution
end SetLang
