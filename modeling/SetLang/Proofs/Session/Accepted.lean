import SetLang.Proofs.Session.Slots

/-! Checks of new nodes. Where the parts of a node are typed, a check of the node finds no more than
construction did, unless the node is an identifier. A type that construction left open is found by checks
of formulas around the node. -/

namespace SetLang

def Formula.IsIdentifier : Formula → Prop
  | expr (.bound ..) | expr (.free ..) => True
  | _ => False

variable {s s' s'' : Store} {held held' : Set Formula} {n g : Formula} {env inferred : Environment}

/-- Typings that keep what is filled type a node alike if it has its type, and so have its parts and the
declarations in scope. -/
theorem Typing.TypesNode.congr {τ τ' : Typing} {o : Occurrence} (h : τ.TypesNode env o)
    (hτ : ∀ x t, s.type? x = some t → τ.slot x = t.named)
    (hτ' : ∀ x t, s.type? x = some t → τ'.slot x = t.named) (hfree : τ'.free = τ.free)
    (htyped : o.node.isTyped s) (hparts : o.node.PartsTyped s)
    (hscope : ∀ (i : Nat) d, o.scope[i]? = some d → (Formula.decl d).isTyped s) : τ'.TypesNode env o := by
  have hslot : ∀ g : Formula, g.isTyped s → ∀ x, g.slot? = some x → τ.slot x = τ'.slot x := by
    intro g hg x hx
    obtain ⟨t, ht⟩ := Formula.exists_type? hg hx
    rw [hτ x t ht, hτ' x t ht]
  obtain ⟨hobeys, hidentifier⟩ := h
  refine ⟨hobeys.congr (hslot _ htyped) fun g hg => hslot g (hparts g hg), ?_⟩
  obtain ⟨scope, n⟩ := o
  cases n with
  | pred p | assignment a | decl d => trivial
  | expr e =>
    have hself := hslot _ htyped e.node.slot rfl
    cases e with
    | bound n i t =>
      obtain ⟨d, hd, heq⟩ := hidentifier
      exact ⟨d, hd, hself.symm.trans (heq.trans (hslot _ (hscope i d hd) _ rfl))⟩
    | free n x t => exact hself.symm.trans (hidentifier.trans (by rw [hfree]))
    | _ => trivial

namespace Store.Sound

variable {e : Expr} {τ : Typing}

theorem eq_or_isTyped (h : s.Sound held) (hn : n ∈ held) (hparts : n.PartsTyped s) (hg : g ∈ n.nodes) :
    g = n ∨ g ∈ held ∧ g.isTyped s := by
  have hclosed : ClosedSet {g | g = n ∨ g ∈ held ∧ g.isTyped s} := by
    rintro g (rfl | ⟨hg, htyped⟩) k hk
    · exact .inr ⟨h.closed g hn k hk, hparts k hk⟩
    · exact .inr ⟨h.closed g hg k hk, (h.typed g hg htyped).1 k hk⟩
  exact n.nodes_subset hclosed (.inl rfl) hg

/-- An expression of which only its own type is open may have each type that its rule leaves. -/
theorem types_update (h : s.Sound held) (he : .expr e ∈ held) (hid : ¬ (Formula.expr e).IsIdentifier)
    (hparts : (Formula.expr e).PartsTyped s) (hempty : s.type? e.node.slot = none) {t : GroundTy}
    (ht : e.Admits s t) (hτ : τ.Types s env (.expr e)) :
    Typing.Types { τ with slot := Function.update τ.slot e.node.slot t } s env (.expr e) := by
  have hresolved : ∀ x u, s.type? x = some u → Function.update τ.slot e.node.slot t x = u.named := by
    intro x u hx
    rw [Function.update_of_ne, hτ.resolved x u hx]
    rintro rfl
    rw [hempty] at hx
    cases hx
  refine ⟨hresolved, fun o ho => ?_⟩
  obtain heq | ⟨hn, htyped⟩ := h.eq_or_isTyped he hparts ⟨_, ho, rfl⟩
  · -- the node itself: its parts have their types, and its own type is admitted
    have hself : Typing.ofExpr ⟨Function.update τ.slot e.node.slot t, τ.free⟩ e = t :=
      Function.update_self ..
    have hoperands : e.operands.map (Typing.ofExpr ⟨Function.update τ.slot e.node.slot t, τ.free⟩) =
        e.operands.map s.typing.ofExpr :=
      Store.map_ofExpr_eq (fun a ha => hparts _ (e.operands_subset a ha)) hresolved
    rw [Typing.TypesNode, heq]
    refine ⟨⟨?_, fun u hu => hself.trans (ht.2 u hu)⟩, ?_⟩
    · rw [hoperands, hself]
      exact ht.1
    · cases e <;> first | trivial | exact absurd trivial hid
  · -- a node below has its type already, and so have its parts and the declarations in scope
    refine (hτ.node o ho).congr hτ.resolved hresolved rfl htyped (h.typed _ hn htyped).1 fun i d hd => ?_
    obtain ⟨o', ho', hdecl⟩ := Formula.exists_decl ho hd
    obtain heq | ⟨-, htyped⟩ := h.eq_or_isTyped he hparts ⟨o', ho', hdecl⟩
    · cases heq
    · exact htyped

/-- Where the parts of an expression are typed and its own type is open, one typing of it means one type
that its rule leaves. -/
theorem existsUnique_admits (h : s.Sound held) (he : .expr e ∈ held)
    (hid : ¬ (Formula.expr e).IsIdentifier) (hparts : (Formula.expr e).PartsTyped s)
    (hempty : s.type? e.node.slot = none) (hw : (Formula.expr e).WellTyped s env) :
    ∃! g, e.Admits s g := by
  obtain ⟨τ, hτ⟩ := hw.typed
  have hroot : ⟨[], .expr e⟩ ∈ (Formula.expr e).occurrences := e.mem_occurrences_self []
  obtain ⟨hrule, hexplicit⟩ := (hτ.node _ hroot).1
  have hoperands := Store.map_ofExpr_eq (fun a ha => hparts _ (e.operands_subset a ha)) hτ.resolved
  refine ⟨τ.ofExpr e, ⟨hoperands ▸ hrule, hexplicit⟩, fun g hg => ?_⟩
  -- the typing stays one with any other type that is admitted, but there is only one
  have hagree := (hw.unique τ _ hτ (h.types_update he hid hparts hempty hg hτ)).1 e.node.slot
    (List.mem_filterMap.2 ⟨_, hroot, rfl⟩)
  exact (Function.update_self e.node.slot g τ.slot).symm.trans hagree.symm

theorem isTyped_of_check (h : s.Sound held) (hn : n ∈ held)
    (hr : n.check? s env = some (.ok (inferred, s'))) : n.isTyped s' := by
  obtain ⟨hw, hpub⟩ := Formula.published_of_check (Session.fits_of_mem h hn) hr
  obtain ⟨τ, hτ⟩ := hw.typed
  obtain ⟨o, ho, rfl⟩ := n.mem_nodes_self
  exact (isTyped_of_published (hpub τ hτ) ho).1

end Store.Sound

namespace Formula.Exact

/-- A node without a slot for a type obeys its rule later only if it did when its parts were typed. -/
theorem isTyped_of_obeys (h : n.Exact s) (hslot : n.slot? = none) (hparts : n.PartsTyped s)
    (hlater : s.Later s') (hobeys : s'.typing.Obeys n) : n.isTyped s := by
  have hobeys : s.typing.Obeys n := hobeys.congr (fun x hx => by rw [hslot] at hx; cases hx)
    fun g hg x hx => (Store.Sound.typing_slot_eq hlater (hparts g hg) hx).symm
  cases n with
  | expr e | decl d => cases hslot
  | pred p | assignment a => exact h.2 ⟨hparts, hobeys⟩

/-- A check of a predicate or an assignment is accepted only if the node was typed when it was made. -/
theorem isTyped_of_check_of_slot (h : n.Exact s) (hslot : n.slot? = none) (hparts : n.PartsTyped s)
    (hlater : s.Later s') (hs : s'.Sound held) (hn : n ∈ held)
    (hr : n.check? s' env = some (.ok (inferred, s''))) : n.isTyped s := by
  obtain ⟨hlater', hs'⟩ := hs.check hn hr
  obtain ⟨-, hobeys⟩ := hs'.typed n hn (hs.isTyped_of_check hn hr)
  exact h.isTyped_of_obeys hslot hparts (hlater.trans hlater') hobeys

/-- A check of an expression whose type is open is not accepted if the type was open when it was made. -/
theorem isTyped_of_check (h : n.Exact s) (hid : ¬ n.IsIdentifier) (hparts : n.PartsTyped s)
    (hlater : s.Later s') (hs : s'.Sound held) (hn : n ∈ held) (hopen : ¬ n.isTyped s')
    (hr : n.check? s' env = some (.ok (inferred, s''))) : n.isTyped s := by
  cases n with
  | decl d => cases hr
  | pred p | assignment a => exact h.isTyped_of_check_of_slot rfl hparts hlater hs hn hr
  | expr e =>
    have hempty : s'.type? e.node.slot = none := Option.not_isSome_iff_eq_none.1 hopen
    obtain ⟨hw, -⟩ := Formula.published_of_check (Session.fits_of_mem hs hn) hr
    have hunique := hs.existsUnique_admits hn hid (hparts.mono hlater) hempty hw
    exact h.1.2 ⟨hparts, by simpa only [Expr.admits_iff hlater hparts] using hunique⟩

end Formula.Exact

namespace Expr

/-- The rule of an extension that is typed by patterns: for one choice of their variables, each child has
the type of its pattern, of which the last one serves all further children, and the result that of the
pattern of the result. -/
theorem admits_extended_iff {node : Node} {ext : Extension} {es : List Expr} {ps : List Pred}
    {t : Option Ty} {args : List TyTerm} {result : Option TyTerm} (h : ext.typing = .rule args result)
    (T : GroundTy) : (Expr.extended node ext es ps t).Admits s T ↔
      (∃ ρ : TypeVar → GroundTy,
        (∀ (i : Nat) e p, es[i]? = some e → (args[i]?).or args.getLast? = some p →
          s.typing.ofExpr e = TyTerm.under ρ p) ∧
        ∀ p, result = some p → T = TyTerm.under ρ p) ∧
      ∀ u, t = some u → T = u.named := by
  have hscheme : (Expr.extended node ext es ps t).scheme = ⟨args, result⟩ := by
    simp only [scheme, Extension.scheme, h]
  rw [Admits, hscheme]
  refine and_congr_left' (exists_congr fun ρ => and_congr ⟨fun hall i e p he hp => ?_, ?_⟩ ?_)
  · exact hall i _ p (by rw [operands, List.getElem?_map, he]; rfl) hp
  · intro hall i g p hg hp
    obtain ⟨e, he, rfl⟩ := Option.map_eq_some_iff.1 (List.getElem?_map .. ▸ hg)
    exact hall i e p he hp
  · exact ⟨fun hall p hp => hall T p rfl hp, fun hall g p hg hp => Option.some.inj hg ▸ hall p hp⟩

end Expr

namespace Session

theorem Move.exists_check (h : Move s held s' held') (hs : s.Sound held) (hn : n ∈ held)
    (hopen : ¬ n.isTyped s) (htyped : n.isTyped s') : held' = held ∧ ∃ g ∈ held, n ∈ g.nodes ∧
      ∃ env inferred, g.check? s env = some (.ok (inferred, s')) := by
  cases h with
  | call hx =>
    exact absurd (hs.isTyped_of_grown hx.makes.grown hn htyped) hopen
  | @check _ _ g env r hg hr =>
    have hfits := fits_of_mem hs hg
    obtain ⟨inferred, -, hok⟩ | ⟨e, -, -, rfl⟩ := Formula.checkInPlace?_spec hfits hr
    · obtain ⟨hw, hpub⟩ := Formula.published_of_check hfits hok
      obtain ⟨τ, hτ⟩ := hw.typed
      have hwithin := g.within hs.closed hg
      have hnode := (hs.cases_of_published (hpub τ hτ) hwithin hn htyped).resolve_left hopen
      exact ⟨rfl, g, hg, hnode, env, inferred, hok⟩
    · exact absurd htyped hopen

/-- On the way a check of the formula is accepted. -/
def Accepted (g : Formula) (s : Store) (held : Set Formula) (s' : Store) (held' : Set Formula) : Prop :=
  ∃ s₁ held₁ env inferred s₂, Moves s held s₁ held₁ ∧ g ∈ held₁ ∧
    g.check? s₁ env = some (.ok (inferred, s₂)) ∧ Moves s₂ held₁ s' held'

/-- A node whose own checks are refused while it has no type gets one by a check of another formula around
it. -/
theorem Moves.exists_accepted (h : Moves s held s' held') (hs : s.Sound held) (hn : n ∈ held)
    (hopen : ¬ n.isTyped s) (hown : ∀ s₁ held₁, Moves s held s₁ held₁ → ¬ n.isTyped s₁ →
      ∀ env inferred s₂, n.check? s₁ env ≠ some (.ok (inferred, s₂))) :
    n.isTyped s' → ∃ g ≠ n, n ∈ g.nodes ∧ Accepted g s held s' held' := by
  refine h.keep (P := fun s₁ held₁ => n.isTyped s₁ → ∃ g ≠ n, n ∈ g.nodes ∧ Accepted g s held s₁ held₁)
    (fun htyped => absurd htyped hopen) fun s₁ held₁ s₂ held₂ hmoves hmove ih htyped => ?_
  by_cases htyped₁ : n.isTyped s₁
  · obtain ⟨g, hne, hin, s₃, held₃, env, inferred, s₄, h₃, hg, hr, h₄⟩ := ih htyped₁
    exact ⟨g, hne, hin, s₃, held₃, env, inferred, s₄, h₃, hg, hr, .tail h₄ hmove⟩
  · obtain ⟨-, hs₁⟩ := hmoves.sound_of_sound hs
    obtain ⟨rfl, g, hg, hin, env, inferred, hr⟩ :=
      hmove.exists_check hs₁ (hmoves.subset hn) htyped₁ htyped
    refine ⟨g, ?_, hin, s₁, held₂, env, inferred, s₂, hmoves, hg, hr, .refl⟩
    rintro rfl
    exact hown _ _ hmoves htyped₁ _ _ _ hr

theorem isTyped_or_accepted (h : n.Exact s) (hs : s.Sound held) (hn : n ∈ held) (hparts : n.PartsTyped s)
    (hid : ¬ n.IsIdentifier) (hmoves : Moves s held s' held')
    (hr : n.check? s' env = some (.ok (inferred, s''))) :
    n.isTyped s ∨ (∃ e, n = .expr e) ∧ ∃ g ≠ n, n ∈ g.nodes ∧ Accepted g s held s' held' := by
  by_cases htyped : n.isTyped s
  · exact .inl htyped
  have hown : ∀ s₁ held₁, Moves s held s₁ held₁ → ¬ n.isTyped s₁ → ∀ env inferred s₂,
      n.check? s₁ env ≠ some (.ok (inferred, s₂)) := by
    intro s₁ held₁ hmoves hopen env inferred s₂ hr
    obtain ⟨hlater, hs₁⟩ := hmoves.sound_of_sound hs
    exact htyped (h.isTyped_of_check hid hparts hlater hs₁ (hmoves.subset hn) hopen hr)
  have htyped' : n.isTyped s' := by_contra fun hopen => hown _ _ hmoves hopen _ _ _ hr
  refine .inr ⟨?_, hmoves.exists_accepted hs hn htyped hown htyped'⟩
  obtain ⟨hlater, hs'⟩ := hmoves.sound_of_sound hs
  have hslot : n.slot? ≠ none := fun hslot =>
    htyped (h.isTyped_of_check_of_slot hslot hparts hlater hs' (hmoves.subset hn) hr)
  cases n with
  | expr e => exact ⟨e, rfl⟩
  | decl d => cases hr
  | pred p | assignment a => exact absurd rfl hslot

variable {x : Build (List Formula)} {fs : List Formula}

/-- A new node is typed exactly if its parts are typed and its rule holds, for an expression with one type
and no other, which it then has. So a node that is not an identifier and was made of typed parts is accepted
by a check only if it was typed when it was made, or if it is an expression and a formula around it was
accepted before. -/
theorem synthesis_exact (h : Moves .empty ∅ s held) (hx : Call held x) (hrun : x.run s = (.ok fs, s'))
    (hn : n ∈ fs) : n.Exact s' ∧
      (∀ node ext es ps t args result, n = .expr (.extended node ext es ps t) →
        ext.typing = .rule args result → ∀ T, (Expr.extended node ext es ps t).Admits s' T ↔
          (∃ ρ : TypeVar → GroundTy,
            (∀ (i : Nat) e p, es[i]? = some e → (args[i]?).or args.getLast? = some p →
              s'.typing.ofExpr e = TyTerm.under ρ p) ∧
            ∀ p, result = some p → T = TyTerm.under ρ p) ∧
          ∀ u, t = some u → T = u.named) ∧
      (n.PartsTyped s' → ¬ n.IsIdentifier → ∀ s'' held'' env inferred s₃,
        Moves s' (held ∪ results (x.run s).1) s'' held'' →
        n.check? s'' env = some (.ok (inferred, s₃)) → n.isTyped s' ∨
          (∃ e, n = .expr e) ∧
            ∃ g ≠ n, n ∈ g.nodes ∧ Accepted g s' (held ∪ results (x.run s).1) s'' held'') := by
  have hexact := hx.makes.value fs s' hrun n hn
  obtain ⟨hfs, rfl⟩ : (x.run s).1 = .ok fs ∧ (x.run s).2 = s' := by simp [hrun]
  have hs := Moves.sound (Relation.ReflTransGen.tail h (.call hx))
  have hheld : n ∈ held ∪ results (x.run s).1 := by
    rw [hfs]
    exact .inr ⟨n, hn, n.mem_nodes_self⟩
  exact ⟨hexact, fun _ _ _ _ _ _ _ _ hrule => Expr.admits_extended_iff hrule,
    fun hparts hid _ _ _ _ _ hmoves hr => isTyped_or_accepted hexact hs hheld hparts hid hmoves hr⟩

/-- The empty set, and its equation with an identifier that was given a type. -/
def bareEmpty : Expr := .atom ⟨bareFactory, 0⟩ .emptySet none

def givenSet : Expr := .free ⟨bareFactory, 1⟩ "x" (some (.power (.given "S")))

def emptyEquation : Pred := .comparison ⟨bareFactory, 0⟩ .eq givenSet bareEmpty

def uncheckedStore : Store := ⟨#[none, some (.power (.given "S"))], #[false], 0⟩

def checkedStore : Store := ⟨#[some (.power (.given "S")), some (.power (.given "S"))], #[true], 0⟩

theorem run_bareEmpty :
    (do return [Formula.expr (← bareFactory.makeExpr bareEmpty)] : Build (List Formula)).run .empty =
      (.ok [.expr bareEmpty], ⟨#[none], #[], 0⟩) := rfl

theorem partsTyped_bareEmpty : (Formula.expr bareEmpty).PartsTyped s := fun _ hg => by cases hg

theorem moves_emptyEquation (h : .expr bareEmpty ∈ held) :
    ∃ held', Moves ⟨#[none], #[], 0⟩ held checkedStore held' := by
  obtain ⟨held₁, hsub, hx, h₁⟩ : ∃ held₁, held ⊆ held₁ ∧ .expr givenSet ∈ held₁ ∧
      Move ⟨#[none], #[], 0⟩ held ⟨#[none, some (.power (.given "S"))], #[], 0⟩ held₁ :=
    Move.makeExpr bareFactory givenSet givenSet _ (fun _ hg => by cases hg) trivial rfl
  obtain ⟨held₂, -, hp, h₂⟩ := Move.makePred (s := ⟨#[none, some (.power (.given "S"))], #[], 0⟩)
    bareFactory emptyEquation emptyEquation uncheckedStore
    (by simpa [emptyEquation, Pred.children] using ⟨hx, hsub h⟩) trivial rfl
  have hcheck : (Formula.pred emptyEquation).check? uncheckedStore .empty =
    some (.ok (⟨[("S", .power (.given "S")), ("x", .power (.given "S"))]⟩, checkedStore)) := rfl
  have hmoves : Moves ⟨#[none], #[], 0⟩ held _ _ := (Moves.step .refl h₁).step h₂
  exact ⟨held₂, hmoves.step (.of_check hp hcheck)⟩

theorem check_bareEmpty : (Formula.expr bareEmpty).check? checkedStore .empty =
    some (.ok (⟨[("S", .power (.given "S"))]⟩, checkedStore)) := rfl

theorem mem_results_bareEmpty : .expr bareEmpty ∈ (∅ ∪ results
    ((do return [Formula.expr (← bareFactory.makeExpr bareEmpty)] : Build (List Formula)).run .empty).1 :
      Set Formula) := by
  rw [run_bareEmpty]
  exact .inr ⟨_, List.mem_singleton_self _, Formula.mem_nodes_self _⟩

theorem call_bareEmpty : Call ∅ (do return [.expr (← bareFactory.makeExpr bareEmpty)]) :=
  .expr bareFactory (fun _ hg => by cases hg) trivial

/-- The empty set has no type of its own, and a check of it is accepted once the equation was. -/
theorem synthesis_exact_bareEmpty : ∃ s held s' held', (Formula.expr bareEmpty).Exact s ∧
    ¬ (Formula.expr bareEmpty).isTyped s ∧
    (Formula.expr bareEmpty).check? s' .empty = some (.ok (⟨[("S", .power (.given "S"))]⟩, s')) ∧
    ∃ g ≠ Formula.expr bareEmpty, .expr bareEmpty ∈ g.nodes ∧ Accepted g s held s' held' := by
  obtain ⟨hexact, -, hlater⟩ :=
    synthesis_exact .refl call_bareEmpty run_bareEmpty (List.mem_singleton_self (Formula.expr bareEmpty))
  obtain ⟨held', hmoves⟩ := moves_emptyEquation mem_results_bareEmpty
  have hopen : ¬ (Formula.expr bareEmpty).isTyped ⟨#[none], #[], 0⟩ := by decide
  obtain htyped | ⟨-, haccepted⟩ := hlater partsTyped_bareEmpty id _ _ _ _ _ hmoves check_bareEmpty
  · exact absurd htyped hopen
  · exact ⟨_, _, _, _, hexact, hopen, check_bareEmpty, haccepted⟩

/-- A check can accept a node that was made of typed parts and got no type then. -/
theorem not_isTyped_of_check : ¬ ∀ s held x fs s' n, Moves .empty ∅ s held → Call held x →
    x.run s = (.ok fs, s') → n ∈ fs → n.PartsTyped s' → ¬ n.IsIdentifier →
    ∀ s'' held'' env inferred s₃, Moves s' (held ∪ results (x.run s).1) s'' held'' →
      n.check? s'' env = some (.ok (inferred, s₃)) → n.isTyped s' := by
  intro h
  obtain ⟨held', hmoves⟩ := moves_emptyEquation mem_results_bareEmpty
  have htyped := h _ _ _ _ _ _ .refl call_bareEmpty run_bareEmpty
    (List.mem_singleton_self (Formula.expr bareEmpty)) partsTyped_bareEmpty id _ _ _ _ _ hmoves
    check_bareEmpty
  cases htyped

end Session
end SetLang
