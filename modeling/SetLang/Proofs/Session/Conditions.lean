import SetLang.Proofs.Session.Slots

/-! The conditions of construction. A factory makes a node only over parts of its own and an extended node only
after it has accepted the extension; and an assignment assigns free identifiers. What a session holds
goes on to meet these conditions. -/

namespace SetLang

namespace Formula

def ExtensionAccepted : Formula → Prop
  | expr (.extended n ext es ps _) => n.factory.accept ext .expression es.length ps.length = .ok ()
  | pred (.extended n ext es ps) => n.factory.accept ext .predicate es.length ps.length = .ok ()
  | _ => True

structure Accepted (g : Formula) : Prop where
  extension : g.ExtensionAccepted
  factories : ∀ h ∈ g.components, ∀ f f', g.factory? = some f → h.factory? = some f' → f'.id = f.id
  targets : ∀ a, g = .assignment a → a.targets ≠ [] ∧ ∀ e ∈ a.targets, ∃ x, e.freeName? = some x

end Formula

theorem Assigned.partFactories_eq (a : Assigned) :
    a.partFactories = a.components.filterMap Formula.factory? := by
  cases a <;> simp [Assigned.partFactories, Assigned.components, Formula.factory?, Function.comp_def]

namespace Build

variable {s : Store} {f : Factory} {held : Set Formula}

/-- A new node: it meets the conditions, and below it are formulas that are held or new declarations. -/
def Fresh (held : Set Formula) (g : Formula) : Prop :=
  g.Accepted ∧ ∀ h ∈ g.components, h ∈ held ∨ ∃ d, h = .decl d

theorem yields_lift {α : Type} (x : Except Misuse α) : Yields (lift x) s fun a _ => x = .ok a := by
  cases x with
  | ok a => exact Yields.pure rfl
  | error m => exact Yields.throw

theorem yields_fresh (make : Node → Expr) (hnode : ∀ n, (make n).node = n)
    (hext : ∀ n, n.factory = f → (Formula.expr (make n)).ExtensionAccepted)
    (hparts : ∀ n, ∀ g ∈ (make n).children, g ∈ held ∨ ∃ d, g = .decl d) :
    Yields (Build.expr f make) s fun e _ => Fresh held (.expr e) := by
  refine (yields_node f make).mono fun e _ ⟨n, he, hn, hids⟩ => ?_
  subst he
  refine ⟨⟨hext n hn, fun h hh g g' hg hg' => ?_, nofun⟩, hparts n⟩
  have hmem : g' ∈ (make n).partFactories := by
    rw [Expr.partFactories_eq]
    exact List.mem_filterMap.2 ⟨h, hh, hg'⟩
  rw [hids g' hmem, ← Option.some_inj.1 hg, Expr.factory, hnode, hn]

theorem yields_freshPred (make : Node → Pred) (hnode : ∀ n, (make n).node = n)
    (hext : ∀ n, n.factory = f → (Formula.pred (make n)).ExtensionAccepted)
    (hparts : ∀ n, ∀ g ∈ (make n).children, g ∈ held ∨ ∃ d, g = .decl d) :
    Yields (Build.pred f make) s fun p _ => Fresh held (.pred p) := by
  refine (yields_predNode f make).mono fun p _ ⟨⟨n, hp, hn, hids⟩, _⟩ => ?_
  subst hp
  refine ⟨⟨hext n hn, fun h hh g g' hg hg' => ?_, nofun⟩, hparts n⟩
  have hmem : g' ∈ (make n).partFactories := by
    rw [Pred.partFactories_eq]
    exact List.mem_filterMap.2 ⟨h, hh, hg'⟩
  rw [hids g' hmem, ← Option.some_inj.1 hg, Pred.factory, hnode, hn]

theorem yields_makeExpr {e : Expr} (h : ∀ g ∈ e.children, g ∈ held) :
    Yields (f.makeExpr e) s fun e' _ => Fresh held (.expr e') := by
  have plain : ∀ {s : Store} (make : Node → Expr), (∀ n, (make n).node = n) →
      (∀ n, n.factory = f → (Formula.expr (make n)).ExtensionAccepted) →
      (∀ n, (make n).children = e.children) →
      Yields (Build.expr f make) s fun e' _ => Fresh held (.expr e') := fun make hnode hext hchildren =>
    yields_fresh make hnode hext fun n g hg => .inl (h g (hchildren n ▸ hg))
  cases e with
  | binary n op l r => exact plain (.binary · op l r) (fun _ => rfl) (fun _ _ => trivial) fun _ => rfl
  | unary n op a => exact plain (.unary · op a) (fun _ => rfl) (fun _ _ => trivial) fun _ => rfl
  | atom n a t => exact plain (.atom · a t) (fun _ => rfl) (fun _ _ => trivial) fun _ => rfl
  | set n es t => exact plain (.set · es t) (fun _ => rfl) (fun _ _ => trivial) fun _ => rfl
  | bool n p => exact plain (.bool · p) (fun _ => rfl) (fun _ _ => trivial) fun _ => rfl
  | bound n i t => exact plain (.bound · i t) (fun _ => rfl) (fun _ _ => trivial) fun _ => rfl
  | free n x t => exact plain (.free · x t) (fun _ => rfl) (fun _ _ => trivial) fun _ => rfl
  | assoc n op es =>
    exact Yields.bind_any fun _ _ => plain (.assoc · op es) (fun _ => rfl) (fun _ _ => trivial) fun _ => rfl
  | quantified n op ds p e =>
    refine Yields.bind_any fun _ _ => Yields.bind_any fun ds' _ =>
      yields_fresh (.quantified · op ds' p e) (fun _ => rfl) (fun _ _ => trivial) fun _ g hg => ?_
    rcases List.mem_append.1 hg with hg | hg
    · obtain ⟨d, -, rfl⟩ := List.mem_map.1 hg
      exact .inr ⟨d, rfl⟩
    · exact .inl (h g (List.mem_append_right _ hg))
  | extended n ext es ps t =>
    refine (yields_lift _).bind fun _ _ haccept =>
      plain (.extended · ext es ps t) (fun _ => rfl) (fun n hn => ?_) fun _ => rfl
    rw [Formula.ExtensionAccepted, hn]
    exact haccept

theorem yields_makePred {p : Pred} (h : ∀ g ∈ p.children, g ∈ held) :
    Yields (f.makePred p) s fun p' _ => Fresh held (.pred p') := by
  have plain : ∀ {s : Store} (make : Node → Pred), (∀ n, (make n).node = n) →
      (∀ n, n.factory = f → (Formula.pred (make n)).ExtensionAccepted) →
      (∀ n, (make n).children = p.children) →
      Yields (Build.pred f make) s fun p' _ => Fresh held (.pred p') := fun make hnode hext hchildren =>
    yields_freshPred make hnode hext fun n g hg => .inl (h g (hchildren n ▸ hg))
  cases p with
  | literal n b => exact plain (.literal · b) (fun _ => rfl) (fun _ _ => trivial) fun _ => rfl
  | not n p => exact plain (.not · p) (fun _ => rfl) (fun _ _ => trivial) fun _ => rfl
  | connective n op p q => exact plain (.connective · op p q) (fun _ => rfl) (fun _ _ => trivial) fun _ => rfl
  | comparison n op l r => exact plain (.comparison · op l r) (fun _ => rfl) (fun _ _ => trivial) fun _ => rfl
  | junction n op ps =>
    exact Yields.bind_any fun _ _ => plain (.junction · op ps) (fun _ => rfl) (fun _ _ => trivial) fun _ => rfl
  | partition n es =>
    exact Yields.bind_any fun _ _ => plain (.partition · es) (fun _ => rfl) (fun _ _ => trivial) fun _ => rfl
  | quantified n op ds p =>
    refine Yields.bind_any fun _ _ => Yields.bind_any fun ds' _ =>
      yields_freshPred (.quantified · op ds' p) (fun _ => rfl) (fun _ _ => trivial) fun _ g hg => ?_
    rcases List.mem_append.1 hg with hg | hg
    · obtain ⟨d, -, rfl⟩ := List.mem_map.1 hg
      exact .inr ⟨d, rfl⟩
    · exact .inl (h g (List.mem_append_right _ hg))
  | extended n ext es ps =>
    refine (yields_lift _).bind fun _ _ haccept =>
      plain (.extended · ext es ps) (fun _ => rfl) (fun n hn => ?_) fun _ => rfl
    rw [Formula.ExtensionAccepted, hn]
    exact haccept

theorem yields_require (b : Bool) (m : Misuse) : Yields (require b m) s fun _ _ => b = true := by
  unfold require
  cases b with
  | true => exact Yields.pure rfl
  | false => exact Yields.throw

theorem yields_requireTargets (targets : List Expr) (seen : List String) :
    Yields (requireTargets seen targets) s fun _ _ => ∀ e ∈ targets, ∃ x, e.freeName? = some x := by
  induction targets generalizing seen s with
  | nil => exact Yields.pure fun _ he => by cases he
  | cons e targets ih =>
    unfold requireTargets
    split
    next x hx =>
      exact Yields.bind_any fun _ _ => (ih _).mono fun _ _ h => List.forall_mem_cons.2 ⟨⟨x, hx⟩, h⟩
    next => exact Yields.throw

theorem yields_assignment {targets : List Expr} {assigned : Assigned} :
    Yields (assignment f targets assigned) s fun a _ => a.targets = targets ∧ a.assigned = assigned ∧
      (Formula.assignment a).Accepted := by
  unfold assignment
  refine (yields_require _ _).bind fun _ _ hne => (yields_requireTargets targets []).bind fun _ _ htargets =>
    Yields.bind_any fun _ _ => (yields_require _ _).bind fun _ _ hids =>
    Yields.bind_any fun slot _ => Yields.bind_any fun _ _ => ?_
  have haccepted : (Formula.assignment ⟨⟨f, slot⟩, targets, assigned⟩).Accepted := by
    refine ⟨trivial, fun h hh g g' hg hg' => ?_, ?_⟩
    · cases hg
      refine ids_of_all hids g' ?_
      rw [Assigned.partFactories_eq, ← Formula.factories_exprs, ← List.filterMap_append]
      exact List.mem_filterMap.2 ⟨h, List.mem_append.2 (List.mem_append.1 hh).symm, hg'⟩
    · rintro _ ⟨⟩
      exact ⟨by simpa using hne, htargets⟩
  split
  · exact Yields.bind_any fun _ _ => Yields.pure ⟨rfl, rfl, haccepted⟩
  · exact Yields.pure ⟨rfl, rfl, haccepted⟩
  · exact Yields.bind_any fun _ _ => Yields.pure ⟨rfl, rfl, haccepted⟩

theorem yields_makeAssignment {a : Assignment} (h : ∀ g ∈ (Formula.assignment a).components, g ∈ held) :
    Yields (f.makeAssignment a) s fun a' _ => Fresh held (.assignment a') := by
  obtain ⟨n, targets, assigned⟩ := a
  have old : ∀ g ∈ (Formula.assignment ⟨n, targets, assigned⟩).components, g ∈ held ∨ ∃ d, g = .decl d :=
    fun g hg => .inl (h g hg)
  cases assigned with
  | values es =>
    refine yields_assignment.mono fun a' _ ha => ⟨ha.2.2, ?_⟩
    rw [Formula.components, ha.1, ha.2.1]
    exact old
  | member e =>
    refine yields_assignment.mono fun a' _ ha => ⟨ha.2.2, ?_⟩
    rw [Formula.components, ha.1, ha.2.1]
    exact old
  | such ds p =>
    refine Yields.bind_any fun ds' _ => ?_
    refine yields_assignment.mono fun a' _ ha => ⟨ha.2.2, ?_⟩
    rw [Formula.components, ha.1, ha.2.1]
    intro g hg
    rcases List.mem_append.1 hg with hg | hg
    · rcases List.mem_append.1 hg with hg | hg
      · obtain ⟨d, -, rfl⟩ := List.mem_map.1 hg
        exact .inr ⟨d, rfl⟩
      · exact old g (List.mem_append_left _ (List.mem_append_right _ hg))
    · exact old g (List.mem_append_right _ hg)

end Build

/-- Declarations are of any factory, have no extension and assign nothing. -/
theorem Formula.accepted_decl (d : Declaration) : (Formula.decl d).Accepted := ⟨trivial, nofun, nofun⟩

namespace Session

variable {s s' : Store} {held : Set Formula}

theorem Call.yields_fresh {x : Build (List Formula)} (h : Call held x) :
    Yields x s fun fs _ => ∀ g ∈ fs, Build.Fresh held g := by
  cases h with
  | factory l => exact Yields.bind_any fun _ _ => Yields.pure fun _ hg => by cases hg
  | declare name t =>
    refine Yields.bind_any fun d _ =>
      Yields.pure (List.forall_mem_singleton.2 ⟨Formula.accepted_decl d, ?_⟩)
    exact fun _ hg => by cases hg
  | expr f hparts _ =>
    exact (Build.yields_makeExpr hparts).bind fun _ _ he => Yields.pure (List.forall_mem_singleton.2 he)
  | pred f hparts _ =>
    exact (Build.yields_makePred hparts).bind fun _ _ hp => Yields.pure (List.forall_mem_singleton.2 hp)
  | assignment f hparts =>
    exact (Build.yields_makeAssignment hparts).bind fun _ _ ha => Yields.pure (List.forall_mem_singleton.2 ha)

/-- All that a new formula is made of meets the conditions, if what is held does. -/
theorem accepted_of_fresh (hclosed : ClosedSet held) (hheld : ∀ g ∈ held, g.Accepted) {f : Formula}
    (hf : Build.Fresh held f) : ∀ g ∈ f.nodes, g.Accepted := by
  have hnodes : ClosedSet {g | g = f ∨ g ∈ held ∨ ∃ d, g = .decl d} := by
    rintro g (rfl | hg | ⟨d, rfl⟩) h hh
    · exact .inr (hf.2 h hh)
    · exact .inr (.inl (hclosed g hg h hh))
    · cases hh
  intro g hg
  obtain rfl | hg | ⟨d, rfl⟩ := f.nodes_subset hnodes (.inl rfl) hg
  exacts [hf.1, hheld g hg, Formula.accepted_decl d]

/-- All that a session holds meets the conditions. -/
theorem Moves.accepted (h : Moves .empty ∅ s held) : ∀ g ∈ held, g.Accepted := by
  refine h.keep (P := fun _ held => ∀ g ∈ held, g.Accepted) (fun _ hg => by cases hg)
    fun s₁ held₁ s₂ held₂ hmoves hmove ih => ?_
  cases hmove with
  | check hf hr => exact ih
  | @call _ x hx =>
    rintro g (hg | hg)
    · exact ih g hg
    · rcases hrun : x.run s₁ with ⟨_ | fs, s'⟩ <;> rw [hrun] at hg
      · exact hg.elim
      · obtain ⟨f, hf, hg⟩ := hg
        exact accepted_of_fresh hmoves.sound.closed ih (hx.yields_fresh fs s' hrun f hf) g hg

/-- A formula is all of one factory. -/
theorem Moves.madeBy (h : Moves .empty ∅ s held) {g : Formula} {f : Factory} (hg : g ∈ held)
    (hf : g.OfFactory f) : g.MadeBy f := by
  have hclosed : ClosedSet {k | k ∈ held ∧ ∀ f', k.factory? = some f' → f'.id = f.id} := by
    rintro k ⟨hk, hid⟩ c hc
    refine ⟨h.sound.closed k hk c hc, fun f' hf' => ?_⟩
    cases hkf : k.factory? with
    | some f₁ => rw [(h.accepted k hk).factories c hc f₁ f' hkf hf', hid f₁ hkf]
    | none =>
      cases k with
      | decl d => cases hc
      | _ => cases hkf
  intro k hk f' hf'
  have hroot : ∀ f', g.factory? = some f' → f'.id = f.id := fun f' hf' => by
    rw [Option.some_inj.1 (hf'.symm.trans hf.1)]
  exact hf.2 k hk f' hf' ((g.nodes_subset hclosed ⟨hg, hroot⟩ hk).2 f' hf')

end Session
end SetLang
