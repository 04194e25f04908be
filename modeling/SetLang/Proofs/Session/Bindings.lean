import SetLang.Proofs.Session

/-! Bindings and types. Construction types a node from the types of its parts alone, so that identifiers
of one name, or an identifier and its declaration, can have different types below a typed node. A check
compares them: below a checked node they have the same types from then on. -/

namespace SetLang

def Store.SameType (s : Store) (x y : Nat) : Prop :=
  ∃ t u, s.type? x = some t ∧ s.type? y = some u ∧ (t == u) = true

/-- Bound identifiers have the types of their declarations, as far as these belong to the formula, and
free identifiers of one name have one type. -/
structure Formula.BindingsAgree (s : Store) (f : Formula) : Prop where
  bound : ∀ o ∈ f.occurrences, ∀ n i t d, o.node = .expr (.bound n i t) → o.scope[i]? = some d →
    s.SameType n.slot d.slot
  free : ∀ o ∈ f.occurrences, ∀ o' ∈ f.occurrences, ∀ n n' x t t', o.node = .expr (.free n x t) →
    o'.node = .expr (.free n' x t') → s.SameType n.slot n'.slot

/-- The declarations in scope are those of an outer scope or belong to the list. -/
def Scoped (outer : List Declaration) (os : List Occurrence) : Prop :=
  ∀ o ∈ os, ∀ d ∈ o.scope, d ∈ outer ∨ ∃ o' ∈ os, o'.node = .decl d

namespace Scoped

variable {outer : List Declaration} {os os' : List Occurrence} {n : Formula}

theorem nil : Scoped outer [] := fun _ h => by cases h

theorem append (h : Scoped outer os) (k : Scoped outer os') : Scoped outer (os ++ os') := by
  intro o ho d hd
  rcases List.mem_append.1 ho with ho | ho
  · exact (h o ho d hd).imp_right fun ⟨o', ho', hn⟩ => ⟨o', List.mem_append_left _ ho', hn⟩
  · exact (k o ho d hd).imp_right fun ⟨o', ho', hn⟩ => ⟨o', List.mem_append_right _ ho', hn⟩

theorem cons (h : Scoped outer os) : Scoped outer (⟨outer, n⟩ :: os) := by
  intro o ho d hd
  rcases List.mem_cons.1 ho with rfl | ho
  · exact .inl hd
  · exact (h o ho d hd).imp_right fun ⟨o', ho', hn⟩ => ⟨o', List.mem_cons_of_mem _ ho', hn⟩

/-- Declarations together with what stands in their scope. -/
theorem binder {ds : List Declaration} (h : Scoped (ds.reverse ++ outer) os) :
    Scoped outer ((ds.map fun d => ⟨outer, .decl d⟩) ++ os) := by
  intro o ho d hd
  rcases List.mem_append.1 ho with ho | ho
  · obtain ⟨d', -, rfl⟩ := List.mem_map.1 ho
    exact .inl hd
  · rcases h o ho d hd with hin | ⟨o', ho', hn⟩
    · rcases List.mem_append.1 hin with hin | hin
      · exact .inr ⟨⟨outer, .decl d⟩,
          List.mem_append_left _ (List.mem_map_of_mem (List.mem_reverse.1 hin)), rfl⟩
      · exact .inl hin
    · exact .inr ⟨o', List.mem_append_right _ ho', hn⟩

end Scoped

mutual

theorem Expr.inScope (outer : List Declaration) : ∀ e : Expr, Scoped outer (e.occurrences outer)
  | .binary _ _ l r => ((l.inScope outer).append (r.inScope outer)).cons
  | .unary _ _ a => (a.inScope outer).cons
  | .assoc _ _ es | .set _ es _ => (Expr.allInScope outer es).cons
  | .atom .. | .bound .. | .free .. => Scoped.nil.cons
  | .bool _ p => (p.inScope outer).cons
  | .quantified _ _ ds p e =>
    (Scoped.binder ((p.inScope (ds.reverse ++ outer)).append (e.inScope (ds.reverse ++ outer)))).cons
  | .extended _ _ es ps _ => ((Expr.allInScope outer es).append (Pred.allInScope outer ps)).cons

theorem Expr.allInScope (outer : List Declaration) :
    ∀ es : List Expr, Scoped outer (Expr.allOccurrences outer es)
  | [] => Scoped.nil
  | e :: es => (e.inScope outer).append (Expr.allInScope outer es)

theorem Pred.inScope (outer : List Declaration) : ∀ p : Pred, Scoped outer (p.occurrences outer)
  | .literal .. => Scoped.nil.cons
  | .not _ p => (p.inScope outer).cons
  | .connective _ _ p q => ((p.inScope outer).append (q.inScope outer)).cons
  | .junction _ _ ps => (Pred.allInScope outer ps).cons
  | .comparison _ _ l r => ((l.inScope outer).append (r.inScope outer)).cons
  | .partition _ es => (Expr.allInScope outer es).cons
  | .quantified _ _ ds p => (Scoped.binder (p.inScope (ds.reverse ++ outer))).cons
  | .extended _ _ es ps => ((Expr.allInScope outer es).append (Pred.allInScope outer ps)).cons

theorem Pred.allInScope (outer : List Declaration) :
    ∀ ps : List Pred, Scoped outer (Pred.allOccurrences outer ps)
  | [] => Scoped.nil
  | p :: ps => (p.inScope outer).append (Pred.allInScope outer ps)

end

namespace Formula

variable {s s' : Store} {env inferred : Environment} {f : Formula} {τ : Typing}

/-- The declarations in scope at a node belong to the formula. -/
theorem inScope : ∀ f : Formula, Scoped [] f.occurrences
  | expr e => e.inScope []
  | pred p => p.inScope []
  | decl _ => Scoped.nil.cons
  | assignment ⟨_, targets, .values es⟩ => ((Expr.allInScope [] es).append (Expr.allInScope [] targets)).cons
  | assignment ⟨_, targets, .member e⟩ => ((e.inScope []).append (Expr.allInScope [] targets)).cons
  | assignment ⟨_, targets, .such ds p⟩ => by
    have hp : Scoped (ds.reverse ++ []) (p.occurrences ds.reverse) := by
      rw [List.append_nil]
      exact p.inScope ds.reverse
    exact ((Scoped.binder hp).append (Expr.allInScope [] targets)).cons

theorem exists_decl {o : Occurrence} (ho : o ∈ f.occurrences) {i : Nat} {d : Declaration}
    (hd : o.scope[i]? = some d) : ∃ o' ∈ f.occurrences, o'.node = .decl d :=
  (f.inScope o ho d (List.mem_of_getElem? hd)).resolve_left fun h => by cases h

/-- Types that a typing gives to slots are the same in the store if they are in the typing. -/
theorem sameType_of_published (hpub : τ.Published s s' env inferred f) {o o' : Occurrence}
    (ho : o ∈ f.occurrences) (ho' : o' ∈ f.occurrences) {x y : Nat} (hx : o.node.slot? = some x)
    (hy : o'.node.slot? = some y) (heq : τ.slot x = τ.slot y) : s'.SameType x y := by
  have hslot : ∀ {o : Occurrence} {x}, o ∈ f.occurrences → o.node.slot? = some x →
      ∃ t, s'.type? x = some t ∧ t.named = τ.slot x := fun ho hx =>
    Option.map_eq_some_iff.1 (hpub.types _ (List.mem_filterMap.2 ⟨_, ho, hx⟩))
  obtain ⟨t, ht, htx⟩ := hslot ho hx
  obtain ⟨u, hu, huy⟩ := hslot ho' hy
  exact ⟨t, u, ht, hu, (TypeTree.beq_iff_named t u).2 (htx.trans (heq.trans huy.symm))⟩

/-- What a check publishes makes the bindings agree. -/
theorem bindingsAgree_of_published (hτ : τ.Types s env f)
    (hpub : τ.Published s s' env inferred f) : f.BindingsAgree s' := by
  refine ⟨fun o ho n i t d hn hd => ?_, fun o ho o' ho' n n' x t t' hn hn' => ?_⟩
  · have hbound := (hτ.node o ho).2
    rw [hn] at hbound
    obtain ⟨d', hd', heq⟩ := hbound
    obtain rfl : d' = d := Option.some.inj (hd'.symm.trans hd)
    obtain ⟨o', ho', hn'⟩ := exists_decl ho hd
    exact sameType_of_published hpub ho ho' (by rw [hn]; rfl) (by rw [hn']; rfl) heq
  · have hfree := (hτ.node o ho).2
    have hfree' := (hτ.node o' ho').2
    rw [hn] at hfree
    rw [hn'] at hfree'
    exact sameType_of_published hpub ho ho' (by rw [hn]; rfl) (by rw [hn']; rfl)
      (Eq.trans hfree hfree'.symm)

theorem BindingsAgree.mono (h : f.BindingsAgree s) (k : s.Later s') : f.BindingsAgree s' := by
  have hmono : ∀ {x y}, s.SameType x y → s'.SameType x y := fun ⟨t, u, ht, hu, heq⟩ =>
    ⟨t, u, k.type? _ t ht, k.type? _ u hu, heq⟩
  exact ⟨fun o ho n i t d hn hd => hmono (h.bound o ho n i t d hn hd),
    fun o ho o' ho' n n' x t t' hn hn' => hmono (h.free o ho o' ho' n n' x t t' hn hn')⟩

end Formula

namespace Session

variable {s₀ s s' : Store} {held₀ held held' : Set Formula}

/-- Below a typed node every node is typed. -/
theorem isTyped_of_mem_nodes (h : s.Sound held) {f g : Formula} (hf : f ∈ held) (ht : f.isTyped s)
    (hg : g ∈ f.nodes) : g.isTyped s := by
  have hclosed : ClosedSet {g | g ∈ held ∧ g.isTyped s} := fun g hg k hk =>
    ⟨h.closed g hg.1 k hk, (h.typed g hg.1 hg.2).1 k hk⟩
  exact (f.nodes_subset hclosed ⟨hf, ht⟩ hg).2

/-- A typed formula has types everywhere. Once it was checked, its bindings agree from then on. -/
theorem bindings_agree_of_check (h : Moves .empty ∅ s held) {f : Formula} (hf : f ∈ held) :
    (f.isTyped s → ∀ g ∈ f.nodes, g.isTyped s) ∧
      ∀ env inferred s', f.check? s env = some (.ok (inferred, s')) →
        ∀ s'' held'', Moves s' held s'' held'' → f.BindingsAgree s'' := by
  have hs := h.sound
  refine ⟨fun ht g hg => isTyped_of_mem_nodes hs hf ht hg, fun env inferred s' hr s'' held'' k => ?_⟩
  have hfits : f.Fits s := fun o ho => hs.fits _ (f.within hs.closed hf o ho)
  obtain ⟨hw, _, _, heq, hpub⟩ | ⟨-, e, heq⟩ := Formula.check_spec hfits hr
  swap
  · cases heq
  cases heq
  obtain ⟨τ, hτ⟩ := hw.typed
  obtain ⟨hlater, -⟩ := k.sound_of_sound (hs.check hf hr).2
  exact (Formula.bindingsAgree_of_published hτ (hpub τ hτ)).mono hlater

/-- The equation of two identifiers of one name, of which only the second one was given a type. -/
def selfEquation : Pred :=
  .comparison ⟨bareFactory, 0⟩ .eq (.free ⟨bareFactory, 0⟩ "x" none)
    (.free ⟨bareFactory, 1⟩ "x" (some .boolean))

theorem Move.make {α : Type} {x : Build α} {inj : α → Formula} {a : α}
    (hx : Call held do return [inj (← x)]) (hrun : x.run s = (.ok a, s')) :
    ∃ held', held ⊆ held' ∧ inj a ∈ held' ∧ Move s held s' held' := by
  have hcall : (do return [inj (← x)] : Build (List Formula)).run s = (.ok [inj a], s') := by
    rw [run_bind, hrun]
    rfl
  have hstep : Move s held _ _ := .call hx
  rw [hcall] at hstep
  refine ⟨_, Set.subset_union_left, .inr ?_, hstep⟩
  exact ⟨inj a, List.mem_singleton_self _, Formula.mem_nodes_self _⟩

theorem Move.makeExpr (f : Factory) (e e' : Expr) (s' : Store)
    (hparts : ∀ g ∈ e.children, g ∈ held) (hext : e.Genuine)
    (hrun : (f.makeExpr e).run s = (.ok e', s')) :
    ∃ held', held ⊆ held' ∧ .expr e' ∈ held' ∧ Move s held s' held' := Move.make (.expr f hparts hext) hrun

theorem Move.makePred (f : Factory) (p p' : Pred) (s' : Store)
    (hparts : ∀ g ∈ p.children, g ∈ held) (hext : p.Genuine)
    (hrun : (f.makePred p).run s = (.ok p', s')) :
    ∃ held', held ⊆ held' ∧ .pred p' ∈ held' ∧ Move s held s' held' := Move.make (.pred f hparts hext) hrun

theorem Moves.makeFactory (h : Moves s₀ held₀ s held) (l : Language) : ∃ held', held ⊆ held' ∧
    Moves s₀ held₀ { s with factories := s.factories + 1 } held' :=
  ⟨_, Set.subset_union_left, h.step (.call (.factory l))⟩

theorem Moves.declare (h : Moves s₀ held₀ s held) (name : String) (t : Option Ty) : ∃ held', held ⊆ held' ∧
    .decl ⟨name, s.types.size⟩ ∈ held' ∧ Moves s₀ held₀ { s with types := s.types.push t } held' := by
  obtain ⟨held', hsub, hd, hstep⟩ := Move.make (.declare name t) (rfl : (Build.declare name t).run s = _)
  exact ⟨held', hsub, hd, h.step hstep⟩

theorem Moves.makeExpr (h : Moves s₀ held₀ s held) (f : Factory) (e e' : Expr) (s' : Store)
    (hparts : ∀ g ∈ e.children, g ∈ held) (hext : e.Genuine)
    (hrun : (f.makeExpr e).run s = (.ok e', s')) :
    ∃ held', held ⊆ held' ∧ .expr e' ∈ held' ∧ Moves s₀ held₀ s' held' := by
  obtain ⟨held', hsub, he, hstep⟩ := Move.makeExpr f e e' s' hparts hext hrun
  exact ⟨held', hsub, he, h.step hstep⟩

/-- What has no parts is made at any time. -/
theorem Moves.makeLeaf (h : Moves s₀ held₀ s held) (f : Factory) (e e' : Expr) (s' : Store)
    (hleaf : e.children = []) (hext : e.Genuine) (hrun : (f.makeExpr e).run s = (.ok e', s')) :
    ∃ held', held ⊆ held' ∧ .expr e' ∈ held' ∧ Moves s₀ held₀ s' held' :=
  h.makeExpr f e e' s' (hleaf ▸ List.forall_mem_nil _) hext hrun

theorem Moves.makePred (h : Moves s₀ held₀ s held) (f : Factory) (p p' : Pred) (s' : Store)
    (hparts : ∀ g ∈ p.children, g ∈ held) (hext : p.Genuine)
    (hrun : (f.makePred p).run s = (.ok p', s')) :
    ∃ held', held ⊆ held' ∧ .pred p' ∈ held' ∧ Moves s₀ held₀ s' held' := by
  obtain ⟨held', hsub, hp, hstep⟩ := Move.makePred f p p' s' hparts hext hrun
  exact ⟨held', hsub, hp, h.step hstep⟩

theorem Moves.makeAssignment (h : Moves s₀ held₀ s held) (f : Factory) (a a' : Assignment) (s' : Store)
    (hparts : ∀ g ∈ (Formula.assignment a).components, g ∈ held)
    (hrun : (f.makeAssignment a).run s = (.ok a', s')) :
    ∃ held', held ⊆ held' ∧ .assignment a' ∈ held' ∧ Moves s₀ held₀ s' held' := by
  obtain ⟨held', hsub, ha, hstep⟩ := Move.make (.assignment f hparts) hrun
  exact ⟨held', hsub, ha, h.step hstep⟩

theorem reached_selfEquation : ∃ held, Moves .empty ∅ ⟨#[none, some .boolean], #[false], 0⟩ held ∧
    .pred selfEquation ∈ held := by
  obtain ⟨held₁, -, hx, h₁⟩ := Moves.empty.makeLeaf bareFactory
    (.free ⟨bareFactory, 0⟩ "x" none) _ ⟨#[none], #[], 0⟩ rfl trivial rfl
  obtain ⟨held₂, hsub, hy, h₂⟩ := h₁.makeLeaf bareFactory
    (.free ⟨bareFactory, 1⟩ "x" (some .boolean)) _ ⟨#[none, some .boolean], #[], 0⟩
    rfl trivial rfl
  obtain ⟨held₃, -, hp, h₃⟩ := h₂.makePred bareFactory selfEquation selfEquation
    ⟨#[none, some .boolean], #[false], 0⟩
    (by simpa [selfEquation, Pred.children] using ⟨hsub hx, hy⟩) trivial rfl
  exact ⟨held₃, h₃, hp⟩

theorem bindings_agree_selfEquation : ∃ s held inferred s', Moves .empty ∅ s held ∧
    .pred selfEquation ∈ held ∧ ¬ (Formula.pred selfEquation).isTyped s ∧
    (Formula.pred selfEquation).check? s .empty = some (.ok (inferred, s')) ∧
    (Formula.pred selfEquation).BindingsAgree s' := by
  obtain ⟨held, h, hp⟩ := reached_selfEquation
  obtain ⟨-, hagree⟩ := bindings_agree_of_check h hp
  have hcheck : (Formula.pred selfEquation).check? ⟨#[none, some .boolean], #[false], 0⟩ .empty =
      some (.ok (⟨[("x", .boolean)]⟩, ⟨#[some .boolean, some .boolean], #[true], 0⟩)) := rfl
  exact ⟨_, held, _, _, h, hp, by decide, hcheck, hagree _ _ _ hcheck _ _ Relation.ReflTransGen.refl⟩

end Session

def namesakes : Expr :=
  .binary ⟨bareFactory, 2⟩ .maplet (.free ⟨bareFactory, 0⟩ "x" (some (.given "S")))
    (.free ⟨bareFactory, 1⟩ "x" (some .boolean))

namespace Session

def namesakeStore (n : Nat) : Store :=
  ⟨#[some (.given "S"), some .boolean, some (.product (.given "S") .boolean)].extract 0 n, #[], 0⟩

/-- Construction alone does not make bindings agree. -/
theorem not_bindingsAgree_of_isTyped : ¬ ∀ s held f, Moves .empty ∅ s held → f ∈ held → f.isTyped s →
    f.BindingsAgree s := by
  intro h
  obtain ⟨held₁, -, hx, h₁⟩ := Moves.empty.makeLeaf bareFactory
    (.free ⟨bareFactory, 0⟩ "x" (some (.given "S"))) _ (namesakeStore 1)
    rfl trivial rfl
  obtain ⟨held₂, hsub, hy, h₂⟩ := h₁.makeLeaf bareFactory
    (.free ⟨bareFactory, 1⟩ "x" (some .boolean)) _ (namesakeStore 2)
    rfl trivial rfl
  obtain ⟨held₃, -, hpair, h₃⟩ := h₂.makeExpr bareFactory namesakes namesakes (namesakeStore 3)
    (by simpa [namesakes, Expr.children] using ⟨hsub hx, hy⟩) trivial rfl
  have hagree := (h _ _ _ h₃ hpair rfl).free
  let x : Expr := .free ⟨bareFactory, 0⟩ "x" (some (.given "S"))
  let y : Expr := .free ⟨bareFactory, 1⟩ "x" (some .boolean)
  obtain ⟨t, u, ht, hu, heq⟩ := hagree ⟨[], .expr x⟩ (by simp [x, Formula.occurrences, namesakes])
    ⟨[], .expr y⟩ (by simp [y, Formula.occurrences, namesakes]) _ _ _ _ _ rfl rfl
  cases ht
  cases hu
  cases heq

end Session
end SetLang
