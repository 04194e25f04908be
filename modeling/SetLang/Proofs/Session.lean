import Mathlib.Logic.Relation
import SetLang.Proofs.Language
import SetLang.Proofs.Session.Build
import SetLang.Proofs.Session.InPlace

/-! Sessions step by step. Formulas are made by the calls of factories over formulas that are held, and
by checks they get types. What is held fits the store all along. -/

namespace SetLang

namespace Factory

def makeExpr (f : Factory) : Expr → Build Expr
  | .binary _ op l r => f.binary op l r
  | .unary _ op a => f.unary op a
  | .assoc _ op es => f.assoc op es
  | .atom _ a t => f.atom a t
  | .set _ es t => f.set es t
  | .bool _ p => f.bool p
  | .quantified _ op ds p e => f.quantifiedExpr op ds p e
  | .bound _ i t => f.bound i t
  | .free _ x t => f.free x t
  | .extended _ ext es ps t => f.extendedExpr ext es ps t

def makePred (f : Factory) : Pred → Build Pred
  | .literal _ value => f.literal value
  | .not _ p => f.not p
  | .connective _ op p q => f.connective op p q
  | .junction _ op ps => f.junction op ps
  | .comparison _ op l r => f.comparison op l r
  | .partition _ es => f.partition es
  | .quantified _ op ds p => f.quantifiedPred op ds p
  | .extended _ ext es ps => f.extendedPred ext es ps

def makeAssignment (f : Factory) : Assignment → Build Assignment
  | ⟨_, targets, .values es⟩ => f.becomesEqual targets es
  | ⟨_, targets, .member e⟩ => Build.assignment f targets (.member e)
  | ⟨_, targets, .such ds p⟩ => f.becomesSuch targets ds p

end Factory

/-- An extension of a datatype is one of those that the datatype registers. -/
def Expr.Genuine : Expr → Prop
  | extended _ ext _ _ _ => ext.Genuine
  | _ => True

def Pred.Genuine : Pred → Prop
  | extended _ ext _ _ => ext.Genuine
  | _ => True

namespace Build

variable {s : Store} {held : Set Formula} {f : Factory}

theorem preserves_lift {I : Invariant Store Formula} {α : Type} (x : Except Misuse α) :
    Preserves I (lift x) s held fun a s' held' => s' = s ∧ held' = held ∧ x = .ok a := by
  unfold lift
  cases x with
  | ok a => exact Preserves.pure fun _ => ⟨rfl, rfl, rfl⟩
  | error m => exact Preserves.throw

/-- A node made like a given one over parts that are held. -/
theorem preserves_makeExpr (e : Expr) (hparts : ∀ g ∈ e.children, g ∈ held) (hext : e.Genuine) :
    Preserves Store.soundness (f.makeExpr e) s held fun e _ held' => .expr e ∈ held' := by
  have plain : ∀ make : Node → Expr, (∀ n, (make n).node = n) → (∀ n, (make n).Fitting) →
      (∀ n, n.factory = f → (make n).Formed) → (∀ n, (make n).children = e.children) →
      Preserves Store.soundness (Build.expr f make) s held fun e _ held' => .expr e ∈ held' :=
    fun make hnode hfits hformed hchildren =>
      preserves_expr make hnode hfits hformed fun n => hchildren n ▸ hparts
  cases e with
  | binary n op l r =>
    exact plain (.binary · op l r) (fun _ => rfl) (fun _ => trivial) (fun _ _ => trivial) fun _ => rfl
  | unary n op a =>
    exact plain (.unary · op a) (fun _ => rfl) (fun _ => trivial) (fun _ _ => trivial) fun _ => rfl
  | atom n a t =>
    exact plain (.atom · a t) (fun _ => rfl) (fun _ => trivial) (fun _ _ => trivial) fun _ => rfl
  | set n es t =>
    exact plain (.set · es t) (fun _ => rfl) (fun _ => trivial) (fun _ _ => trivial) fun _ => rfl
  | bool n p =>
    exact plain (.bool · p) (fun _ => rfl) (fun _ => trivial) (fun _ _ => trivial) fun _ => rfl
  | bound n i t =>
    exact plain (.bound · i t) (fun _ => rfl) (fun _ => trivial) (fun _ _ => trivial) fun _ => rfl
  | free n x t =>
    exact plain (.free · x t) (fun _ => rfl) (fun _ => trivial) (fun _ _ => trivial) fun _ => rfl
  | assoc n op es =>
    refine (preserves_require _ _).bind fun _ s' held' _ _ h => ?_
    obtain ⟨rfl, rfl, hlen⟩ := h
    have hlen : 2 ≤ es.length := of_decide_eq_true hlen
    exact plain (.assoc · op es) (fun _ => rfl) (fun _ => trivial) (fun _ _ => hlen) fun _ => rfl
  | extended n ext es ps t =>
    refine (preserves_lift _).bind fun _ s' held' _ _ h => ?_
    obtain ⟨rfl, rfl, haccept⟩ := h
    obtain ⟨hfound, hkind, hexprs, hpreds⟩ := Language.accept_eq_ok_iff.1 haccept
    exact plain (.extended · ext es ps t) (fun _ => rfl) (fun _ => ⟨hext, hexprs⟩)
      (fun _ hf => ⟨hf ▸ hfound, hkind, hpreds⟩) fun _ => rfl
  | quantified n op ds p e =>
    refine (preserves_require _ _).bind fun _ s' held' _ _ h => ?_
    obtain ⟨rfl, rfl, hne⟩ := h
    refine (preserves_copies ds).bind fun ds' s₁ held₁ hsub _ ⟨hds, hlen⟩ => ?_
    refine preserves_expr (.quantified · op ds' p e) (fun _ => rfl) (fun _ => trivial)
      (fun _ _ hnil => ?_) fun _ g hg => ?_
    · rw [hnil, List.length_nil, eq_comm, List.length_eq_zero_iff] at hlen
      simp [hlen] at hne
    · rcases List.mem_append.1 hg with hg | hg
      · obtain ⟨d, hd, rfl⟩ := List.mem_map.1 hg
        exact hds d hd
      · exact hsub (hparts g (List.mem_append_right _ hg))

theorem preserves_makePred (p : Pred) (hparts : ∀ g ∈ p.children, g ∈ held) (hext : p.Genuine) :
    Preserves Store.soundness (f.makePred p) s held fun p _ held' => .pred p ∈ held' := by
  have plain : ∀ make : Node → Pred, (∀ n, (make n).node = n) → (∀ n, (make n).Fitting) →
      (∀ n, n.factory = f → (make n).Formed) → (∀ n, (make n).children = p.children) →
      Preserves Store.soundness (Build.pred f make) s held fun p _ held' => .pred p ∈ held' :=
    fun make hnode hfits hformed hchildren =>
      preserves_pred make hnode hfits hformed fun n => hchildren n ▸ hparts
  cases p with
  | literal n b =>
    exact plain (.literal · b) (fun _ => rfl) (fun _ => trivial) (fun _ _ => trivial) fun _ => rfl
  | not n p =>
    exact plain (.not · p) (fun _ => rfl) (fun _ => trivial) (fun _ _ => trivial) fun _ => rfl
  | connective n op p q =>
    exact plain (.connective · op p q) (fun _ => rfl) (fun _ => trivial) (fun _ _ => trivial)
      fun _ => rfl
  | comparison n op l r =>
    exact plain (.comparison · op l r) (fun _ => rfl) (fun _ => trivial) (fun _ _ => trivial)
      fun _ => rfl
  | junction n op ps =>
    refine (preserves_require _ _).bind fun _ s' held' _ _ h => ?_
    obtain ⟨rfl, rfl, hlen⟩ := h
    have hlen : 2 ≤ ps.length := of_decide_eq_true hlen
    exact plain (.junction · op ps) (fun _ => rfl) (fun _ => trivial) (fun _ _ => hlen) fun _ => rfl
  | partition n es =>
    refine (preserves_require _ _).bind fun _ s' held' _ _ h => ?_
    obtain ⟨rfl, rfl, hne⟩ := h
    have hne : es ≠ [] := by simpa using hne
    exact plain (.partition · es) (fun _ => rfl) (fun _ => trivial) (fun _ _ => hne) fun _ => rfl
  | extended n ext es ps =>
    refine (preserves_lift _).bind fun _ s' held' _ _ h => ?_
    obtain ⟨rfl, rfl, haccept⟩ := h
    obtain ⟨hfound, hkind, hexprs, hpreds⟩ := Language.accept_eq_ok_iff.1 haccept
    exact plain (.extended · ext es ps) (fun _ => rfl) (fun _ => ⟨hext, hexprs⟩)
      (fun _ hf => ⟨hf ▸ hfound, hkind, hpreds⟩) fun _ => rfl
  | quantified n op ds p =>
    refine (preserves_require _ _).bind fun _ s' held' _ _ h => ?_
    obtain ⟨rfl, rfl, hne⟩ := h
    refine (preserves_copies ds).bind fun ds' s₁ held₁ hsub _ ⟨hds, hlen⟩ => ?_
    refine preserves_pred (.quantified · op ds' p) (fun _ => rfl) (fun _ => trivial)
      (fun _ _ hnil => ?_) fun _ g hg => ?_
    · rw [hnil, List.length_nil, eq_comm, List.length_eq_zero_iff] at hlen
      simp [hlen] at hne
    · rcases List.mem_append.1 hg with hg | hg
      · obtain ⟨d, hd, rfl⟩ := List.mem_map.1 hg
        exact hds d hd
      · exact hsub (hparts g (List.mem_append_right _ hg))

theorem preserves_makeAssignment (a : Assignment)
    (hparts : ∀ g ∈ (Formula.assignment a).components, g ∈ held) :
    Preserves Store.soundness (f.makeAssignment a) s held fun a _ held' =>
      .assignment a ∈ held' := by
  obtain ⟨n, targets, assigned⟩ := a
  have htargets : ∀ e ∈ targets, .expr e ∈ held := fun e he =>
    hparts _ (List.mem_append_right _ (List.mem_map_of_mem he))
  have hassigned : ∀ g ∈ assigned.components, g ∈ held := fun g hg =>
    hparts g (List.mem_append_left _ hg)
  cases assigned with
  | values es => exact preserves_assignment htargets hassigned
  | member e => exact preserves_assignment htargets hassigned
  | such ds p =>
    refine (preserves_copies ds).bind fun ds' s₁ held₁ hsub _ ⟨hds, _⟩ => ?_
    refine preserves_assignment (fun e he => hsub (htargets e he)) fun g hg => ?_
    rcases List.mem_append.1 hg with hg | hg
    · obtain ⟨d, hd, rfl⟩ := List.mem_map.1 hg
      exact hds d hd
    · exact hsub (hassigned g (List.mem_append_right _ hg))

end Build

namespace Session

variable {s s' : Store} {held held' : Set Formula}

/-- The calls by which formulas are made, over formulas that are held. -/
inductive Call (held : Set Formula) : Build (List Formula) → Prop
  | factory (l : Language) : Call held do
      let _ ← Build.factory l
      return []
  | declare (name : String) (t : Option Ty) : Call held do
      return [.decl (← Build.declare name t)]
  | expr (f : Factory) {e : Expr} : (∀ g ∈ e.children, g ∈ held) → e.Genuine → Call held do
      return [.expr (← f.makeExpr e)]
  | pred (f : Factory) {p : Pred} : (∀ g ∈ p.children, g ∈ held) → p.Genuine → Call held do
      return [.pred (← f.makePred p)]
  | assignment (f : Factory) {a : Assignment} :
    (∀ g ∈ (Formula.assignment a).components, g ∈ held) → Call held do
      return [.assignment (← f.makeAssignment a)]

def results {ε : Type} : Except ε (List Formula) → Set Formula
  | .ok fs => {g | ∃ f ∈ fs, g ∈ f.nodes}
  | .error _ => ∅

/-- One call of a session, or one check, whether it succeeds or fails. -/
inductive Move : Store → Set Formula → Store → Set Formula → Prop
  | call {s : Store} {held : Set Formula} {x : Build (List Formula)} : Call held x →
    Move s held (x.run s).2 (held ∪ results (x.run s).1)
  | check {s s' : Store} {held : Set Formula} {f : Formula} {env : Environment}
    {r : Except (Fault CheckError) Environment} : f ∈ held →
    f.checkInPlace? s env = some (r, s') → Move s held s' held

def Moves (s : Store) (held : Set Formula) (s' : Store) (held' : Set Formula) : Prop :=
  Relation.ReflTransGen (fun a b => Move a.1 a.2 b.1 b.2) (s, held) (s', held')

theorem closedSet_results {ε : Type} (r : Except ε (List Formula)) : ClosedSet (results r) := by
  cases r with
  | error e => exact fun f hf => hf.elim
  | ok fs =>
    rintro f ⟨h, hh, hf⟩ g hg
    exact ⟨h, hh, h.nodes_closed hf hg⟩

theorem closedSet_union (h : ClosedSet held) (k : ClosedSet held') : ClosedSet (held ∪ held') := by
  rintro f (hf | hf) g hg
  exacts [.inl (h f hf g hg), .inr (k f hf g hg)]

theorem results_subset {ε : Type} {r : Except ε (List Formula)} (h : ClosedSet held)
    (hr : ∀ fs, r = .ok fs → ∀ f ∈ fs, f ∈ held) : results r ⊆ held := by
  cases r with
  | error e => exact Set.empty_subset _
  | ok fs =>
    rintro g ⟨f, hf, hg⟩
    exact f.nodes_subset h (hr fs rfl f hf) hg

theorem Call.preserves {x : Build (List Formula)} (h : Call held x) :
    Preserves Store.soundness x s held fun fs _ held' => ∀ f ∈ fs, f ∈ held' := by
  cases h with
  | factory l =>
    refine Preserves.bind (K := fun _ _ _ => True) ?_ fun _ _ _ _ _ _ => Preserves.pure fun _ => ?_
    · intro (hsound : s.Sound held)
      have hgrown : s.Grown { s with factories := s.factories + 1 } :=
        ⟨Nat.le_refl _, Nat.le_refl _, fun _ _ => rfl, fun _ _ => rfl⟩
      exact ⟨held, Set.Subset.rfl, hgrown.later, hsound.grown hgrown,
        fun _ _ => trivial⟩
    · exact fun f hf => by cases hf
  | declare name t =>
    refine (Build.preserves_declare name t).bind fun d _ _ _ _ hd => Preserves.pure fun _ => ?_
    exact List.forall_mem_singleton.2 hd
  | expr f hparts hext =>
    refine (Build.preserves_makeExpr _ hparts hext).bind fun e _ _ _ _ he => Preserves.pure fun _ => ?_
    exact List.forall_mem_singleton.2 he
  | pred f hparts hext =>
    refine (Build.preserves_makePred _ hparts hext).bind fun p _ _ _ _ hp => Preserves.pure fun _ => ?_
    exact List.forall_mem_singleton.2 hp
  | assignment f hparts =>
    refine (Build.preserves_makeAssignment _ hparts).bind fun a _ _ _ _ ha =>
      Preserves.pure fun _ => ?_
    exact List.forall_mem_singleton.2 ha

theorem fits_of_mem (h : s.Sound held) {f : Formula} (hf : f ∈ held) : f.Fits s := fun o ho =>
  h.fits _ (f.within h.closed hf o ho)

theorem Move.of_check {f : Formula} {env inferred : Environment} (hf : f ∈ held)
    (hr : f.check? s env = some (.ok (inferred, s'))) : Move s held s' held :=
  .check hf (Formula.checkInPlace?_of_ok hr)

theorem Move.subset (h : Move s held s' held') : held ⊆ held' := by
  cases h with
  | call hx => exact Set.subset_union_left
  | check hf hr => exact Set.Subset.rfl

/-- A check that fails is no step at all. -/
theorem Move.sound (h : Move s held s' held') (hs : s.Sound held) :
    s.Later s' ∧ s'.Sound held' := by
  cases h with
  | check hf hr =>
    obtain ⟨inferred, -, hok⟩ | ⟨e, -, -, rfl⟩ := Formula.checkInPlace?_spec (fits_of_mem hs hf) hr
    · exact hs.check hf hok
    · exact ⟨.refl _, hs⟩
  | call hx =>
    obtain ⟨held', hsub, hlater, hsound, hresults⟩ := hx.preserves hs
    refine ⟨hlater, hsound.mono (Set.union_subset hsub (results_subset hsound.closed hresults)) ?_⟩
    exact closedSet_union hs.closed (closedSet_results _)

namespace Moves

theorem empty : Moves .empty ∅ .empty ∅ := Relation.ReflTransGen.refl

theorem step {s'' : Store} {held'' : Set Formula} (h : Moves s held s' held') (k : Move s' held' s'' held'') :
    Moves s held s'' held'' := Relation.ReflTransGen.tail h k

/-- What holds at first and is kept by each call and each check holds in the end. -/
theorem keep {P : Store → Set Formula → Prop} (h : Moves s held s' held') (first : P s held)
    (next : ∀ s₁ held₁ s₂ held₂, Moves s held s₁ held₁ → Move s₁ held₁ s₂ held₂ → P s₁ held₁ →
      P s₂ held₂) : P s' held' := by
  have hkeep : ∀ b, Relation.ReflTransGen (fun a b : Store × Set Formula => Move a.1 a.2 b.1 b.2)
      (s, held) b → P b.1 b.2 := by
    intro b hb
    induction hb with
    | refl => exact first
    | tail hmoves hmove ih => exact next _ _ _ _ hmoves hmove ih
  exact hkeep _ h

theorem subset (h : Moves s held s' held') : held ⊆ held' :=
  h.keep (P := fun _ held₁ => held ⊆ held₁) Set.Subset.rfl fun _ _ _ _ _ hmove hsub =>
    hsub.trans hmove.subset

theorem sound_of_sound (h : Moves s held s' held') (hs : s.Sound held) : s.Later s' ∧ s'.Sound held' :=
  h.keep (P := fun s₁ held₁ => s.Later s₁ ∧ s₁.Sound held₁) ⟨.refl s, hs⟩ fun _ _ _ _ _ hmove ⟨hlater, hs₁⟩ =>
    (hmove.sound hs₁).imp_left hlater.trans

/-- What a session holds fits its store, whatever has failed. -/
theorem sound (h : Moves .empty ∅ s held) : s.Sound held := (h.sound_of_sound .empty).2

end Moves
end Session
end SetLang
