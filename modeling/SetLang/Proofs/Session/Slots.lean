import SetLang.Proofs.Session.Bindings
import SetLang.Proofs.Session.Exact

/-! Slots over whole runs, where calls and checks may fail. What is filled stays, and a check fills empty slots of its
formula only. So what is typed obeys its rule throughout. -/

namespace SetLang

namespace Formula

variable {s s' : Store} {env : Environment} {f : Formula}

structure OnlyFills (f : Formula) (s s' : Store) : Prop where
  types : ∀ x, s'.type? x ≠ s.type? x → s.type? x = none ∧ x ∈ f.typeSlots
  marks : ∀ x, s'.isMarked x ≠ s.isMarked x → s.isMarked x = false ∧ x ∈ f.markSlots

theorem onlyFills_of_published {τ : Typing} {inferred : Environment}
    (h : τ.Published s s' env inferred f) : f.OnlyFills s s' := by
  refine ⟨fun x hx => ?_, fun x hx => ?_⟩
  · refine ⟨by_contra fun hfull => hx (h.kept x (.inr hfull)), by_contra fun hout => ?_⟩
    exact hx (h.kept x (.inl hout))
  · have hiff := h.marks x
    cases hold : s.isMarked x with
    | true =>
      rw [hold] at hx
      exact absurd (hiff.2 (.inl hold)) hx
    | false =>
      rw [hold, ne_eq, Bool.not_eq_false] at hx
      exact ⟨rfl, (hiff.1 hx).resolve_left (by simp [hold])⟩

end Formula

namespace Session

variable {s s' : Store} {held held' : Set Formula} {f : Formula}

/-- Below a typed formula everything is typed, and the rule of every node holds of its type, the type
given to it and the types of its parts. -/
theorem typed_below (h : Moves .empty ∅ s held) (hf : f ∈ held) (ht : f.isTyped s) :
    ∀ g ∈ f.nodes, g.isTyped s ∧ s.typing.Obeys g := by
  intro g hg
  have hs := h.sound
  have hgtyped := isTyped_of_mem_nodes hs hf ht hg
  exact ⟨hgtyped, (hs.typed g (f.nodes_subset hs.closed hf hg) hgtyped).2⟩

/-- `x = TRUE` below a declaration of `x` -/
def boundTruth : Pred :=
  .comparison ⟨bareFactory, 0⟩ .eq (.bound ⟨bareFactory, 1⟩ 0 none) (.atom ⟨bareFactory, 2⟩ .truth none)

/-- `∃x·x = TRUE ∧ x = TRUE`, where both equations are the same node. -/
def someTruth : Pred :=
  .quantified ⟨bareFactory, 2⟩ .exist [⟨"x", 3⟩] (.junction ⟨bareFactory, 1⟩ .land [boundTruth, boundTruth])

def someTruthStore : Store := ⟨#[none, none, some .boolean, none], #[false, false, false], 0⟩

theorem reached_someTruth : ∃ held, Moves .empty ∅ someTruthStore held ∧ .pred someTruth ∈ held := by
  obtain ⟨held₁, -, hx, h₁⟩ := Moves.empty.declare "x" none
  obtain ⟨held₂, hsub₂, hbound, h₂⟩ := h₁.makeLeaf bareFactory (.bound ⟨bareFactory, 1⟩ 0 none) _
    ⟨#[none, none], #[], 0⟩ rfl trivial rfl
  obtain ⟨held₃, hsub₃, htruth, h₃⟩ := h₂.makeLeaf bareFactory (.atom ⟨bareFactory, 2⟩ .truth none) _
    ⟨#[none, none, some .boolean], #[], 0⟩ rfl trivial rfl
  obtain ⟨held₄, hsub₄, hequation, h₄⟩ := h₃.makePred bareFactory boundTruth boundTruth
    ⟨#[none, none, some .boolean], #[false], 0⟩
    (List.forall_mem_cons.2 ⟨hsub₃ hbound, List.forall_mem_singleton.2 htruth⟩) trivial rfl
  obtain ⟨held₅, hsub₅, hboth, h₅⟩ := h₄.makePred bareFactory
    (.junction ⟨bareFactory, 1⟩ .land [boundTruth, boundTruth]) _
    ⟨#[none, none, some .boolean], #[false, false], 0⟩
    (List.forall_mem_cons.2 ⟨hequation, List.forall_mem_singleton.2 hequation⟩) trivial rfl
  obtain ⟨held₆, -, hsome, h₆⟩ := h₅.makePred bareFactory (.quantified ⟨bareFactory, 2⟩ .exist [⟨"x", 0⟩] _) someTruth
    someTruthStore
    (List.forall_mem_cons.2 ⟨hsub₅ (hsub₄ (hsub₃ (hsub₂ hx))), List.forall_mem_singleton.2 hboth⟩) trivial rfl
  exact ⟨held₆, h₆, hsome⟩

theorem check_someTruth : ∃ inferred s', (Formula.pred someTruth).check? someTruthStore .empty =
    some (.ok (inferred, s')) ∧ (Formula.pred someTruth).isTyped s' := by
  have htyped : (((Formula.pred someTruth).check? someTruthStore .empty).bind (·.toOption)).any
      (fun r => (Formula.pred someTruth).isTyped r.2) = true := by decide +kernel
  obtain ⟨⟨inferred, s'⟩, hr, ht⟩ := (Option.any_eq_true ..).1 htyped
  obtain ⟨r, hr, hok⟩ := Option.bind_eq_some_iff.1 hr
  cases r with
  | error e => cases hok
  | ok r =>
    cases hok
    exact ⟨inferred, s', hr, ht⟩

/-- Construction leaves the predicate without types below the quantifier, and a check types all of it. -/
theorem typed_below_someTruth : ∃ s held inferred s', Moves .empty ∅ s held ∧ .pred someTruth ∈ held ∧
    ¬ (Formula.pred someTruth).isTyped s ∧
    (Formula.pred someTruth).check? s .empty = some (.ok (inferred, s')) ∧ Moves .empty ∅ s' held ∧
    (Formula.pred someTruth).isTyped s' ∧
    ∀ g ∈ (Formula.pred someTruth).nodes, g.isTyped s' ∧ s'.typing.Obeys g := by
  obtain ⟨held, hmoves, hsome⟩ := reached_someTruth
  obtain ⟨inferred, s', hcheck, ht⟩ := check_someTruth
  have hchecked := hmoves.step (.of_check hsome hcheck)
  exact ⟨_, held, inferred, s', hmoves, hsome, by decide, hcheck, hchecked, ht, typed_below hchecked hsome ht⟩

theorem Call.keepsSlots {x : Build (List Formula)} (h : Call held x) : Build.KeepsSlots x s :=
  h.makes.kept

/-- Slots are filled once. A check that fails reports an error and leaves the store as it was, one that
succeeds fills empty slots of its formula only, construction fills no slot twice, and what was filled stays
whatever comes after. -/
theorem slots_filled_once (h : Moves .empty ∅ s held) :
    (∀ f ∈ held, ∀ env r s', f.checkInPlace? s env = some (r, s') →
      (∀ e, r = .error e → e.Reported ∧ s' = s) ∧ ∀ inferred, r = .ok inferred → f.OnlyFills s s') ∧
    (∀ x, Call held x → (x.run s).1 ≠ .error .slotChange) ∧
    ∀ s' held', Moves s held s' held' → s.Later s' := by
  have hs := h.sound
  refine ⟨fun f hf env r s' hr => ?_, fun x hx hrun => hx.keepsSlots _ hrun rfl,
    fun _ _ hmoves => (hmoves.sound_of_sound hs).1⟩
  have hfits := fits_of_mem hs hf
  obtain ⟨inferred, rfl, hok⟩ | ⟨e, rfl, -, rfl⟩ := Formula.checkInPlace?_spec hfits hr
  · refine ⟨fun _ he => (by cases he), fun _ _ => ?_⟩
    obtain ⟨hw, _, _, heq, hpub⟩ | ⟨-, e, heq⟩ := Formula.check_spec hfits hok
    · cases heq
      obtain ⟨τ, hτ⟩ := hw.typed
      exact Formula.onlyFills_of_published (hpub τ hτ)
    · cases heq
  · refine ⟨fun _ he => ?_, fun _ hinferred => by cases hinferred⟩
    cases he
    exact ⟨⟨e, rfl⟩, rfl⟩

theorem reached_identifier : ∃ held, Moves .empty ∅ ⟨#[none], #[], 0⟩ held ∧
    .expr (.free ⟨bareFactory, 0⟩ "x" none) ∈ held := by
  obtain ⟨held, -, hx, h⟩ := Moves.empty.makeLeaf bareFactory
    (.free ⟨bareFactory, 0⟩ "x" none) (.free ⟨bareFactory, 0⟩ "x" none) ⟨#[none], #[], 0⟩
    rfl trivial rfl
  exact ⟨held, h, hx⟩

/-- The identifier is refused where nothing is known of it, and typed where its type is. -/
theorem slots_filled_identifier : ∃ s held f, Moves .empty ∅ s held ∧ f ∈ held ∧
    (∃ e s', f.checkInPlace? s .empty = some (.error e, s') ∧ s' = s) ∧
    ∃ inferred s', f.checkInPlace? s ⟨[("x", .boolean)]⟩ = some (.ok inferred, s') ∧
      f.OnlyFills s s' ∧ s' ≠ s := by
  obtain ⟨held, hmoves, hx⟩ := reached_identifier
  obtain ⟨hcheck, -, -⟩ := slots_filled_once hmoves
  refine ⟨_, held, _, hmoves, hx, ⟨_, _, rfl, ?_⟩, _, _, rfl, ?_, ?_⟩
  · exact ((hcheck _ hx .empty _ _ rfl).1 _ rfl).2
  · exact (hcheck _ hx ⟨[("x", .boolean)]⟩ _ _ rfl).2 _ rfl
  · intro heq
    cases congrArg Store.types heq

end Session
end SetLang
