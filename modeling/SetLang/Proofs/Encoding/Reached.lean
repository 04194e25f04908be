import SetLang.Proofs.Encoding.Axioms

/-! The states of an encoding in a session. The session makes and checks formulas, and the encoding
answers calls on what is held, in any order and whether they succeed or not. -/

namespace SetLang

variable {S S' : EncodingState} {s s' : Store} {held held' : Set Formula} {source : Factory}

/-- The calls that an encoding answers, over formulas that are held, with the formulas that they give. -/
inductive Encode.Call (held : Set Formula) : Encode (List Formula) → Prop
  | type (t : Ty) : Call held do
      let _ ← Encode.type t
      return []
  | freshGiven (base : String) : Call held do
      let _ ← Encode.freshGiven base
      return []
  | freshIdentifier (base : String) (t : Ty) : Call held do
      return [.expr (← Encode.freshIdentifier base t)]
  | expr {e : Expr} : .expr e ∈ held → Call held do
      return [.expr (← Encode.expr e)]
  | pred {p : Pred} : .pred p ∈ held → Call held do
      return [.pred (← Encode.pred p)]
  | representation (i : Instance) : Call held do
      return (← Encode.representation i).exprs.map .expr
  | replace (i : Instance) (e : Expr) (ext : Extension) {es : List Expr} :
    (∀ e ∈ es, .expr e ∈ held) → Call held do
      return [.expr (← (← Encode.representation i).replace e ext es)]
  | representationAxioms (i : Instance) : Call held do
      return (← (← Encode.representation i).axioms).map .pred
  | axioms : Call held do
      return (← Encode.axioms).map .pred
  | targetEnvironment : Call held do
      let _ ← Encode.targetEnvironment
      return []

def Encoding.formulas (t : Encoding) : Set Formula :=
  {g | ∃ r ∈ t.representations, ∃ e ∈ r.exprs, g ∈ (Formula.expr e).nodes}

namespace EncodingState

inductive Step : EncodingState → Set Formula → EncodingState → Set Formula → Prop
  | session {S : EncodingState} {s : Store} {held held' : Set Formula} :
    Session.Move S.store held s held' → Step S held ⟨s, S.encoding⟩ held'
  | encode {S : EncodingState} {held : Set Formula} {x : Encode (List Formula)} :
    Encode.Call held x → Step S held (x.run S).2
      (held ∪ (Session.results (x.run S).1 ∪ (x.run S).2.encoding.formulas))

/-- The states that an encoding of the formulas of a factory reaches, with what is held then. -/
inductive Reached (source : Factory) : EncodingState → Set Formula → Prop
  | start {s s' : Store} {held : Set Formula} {env : Environment} {encoding : Encoding} :
    source.Assembled → Session.Moves .empty ∅ s held →
    (Build.encoding source env).run s = (.ok encoding, s') → Reached source ⟨s', encoding⟩ held
  | step {S S' : EncodingState} {held held' : Set Formula} : Reached source S held →
    Step S held S' held' → Reached source S' held'

end EncodingState

open Encode in
/-- Every call keeps what an encoding keeps of its types, whether it succeeds or not. -/
theorem Encode.Call.preserves {I : Invariant EncodingState Formula} (hI : Encode.Kept I)
    {x : Encode (List Formula)} (h : Encode.Call held x) :
    Preserves I x S held fun fs _ held' => ∀ f ∈ fs, f ∈ held' := by
  cases h with
  | type t =>
    refine (hI.type t _ _).bind fun _ _ _ _ _ _ => Preserves.pure fun _ => ?_
    exact fun _ h => by cases h
  | freshGiven base =>
    refine (hI.freshGiven base).bind fun _ _ _ _ _ _ => Preserves.pure fun _ => ?_
    exact fun _ h => by cases h
  | targetEnvironment =>
    refine (preserves_targetEnvironment hI).bind fun _ _ _ _ _ _ => Preserves.pure fun _ => ?_
    exact fun _ h => by cases h
  | freshIdentifier base t =>
    refine (hI.freshIdentifier base t).bind fun _ _ _ _ _ h => Preserves.pure fun _ => ?_
    exact List.forall_mem_singleton.2 h
  | expr he =>
    refine (preserves_expr hI he).bind fun _ _ _ _ _ h => Preserves.pure fun _ => ?_
    exact List.forall_mem_singleton.2 h
  | pred hp =>
    refine (preserves_pred hI hp).bind fun _ _ _ _ _ h => Preserves.pure fun _ => ?_
    exact List.forall_mem_singleton.2 h
  | representation i =>
    refine (hI.representation i _ _).bind fun _ _ _ _ _ h => Preserves.pure fun _ => ?_
    exact List.forall_mem_map.2 h.2.2
  | replace i e ext hes =>
    refine (hI.representation i _ _).bind fun r _ _ hsub _ h => ?_
    refine (preserves_replace hI h.2 e ext fun e he => hsub (hes e he)).bind fun _ _ _ _ _ h => ?_
    exact Preserves.pure fun _ => List.forall_mem_singleton.2 h
  | representationAxioms i =>
    refine (hI.representation i _ _).bind fun r _ _ _ _ h => ?_
    refine (Representation.preserves_axioms hI h.2).bind fun _ _ _ _ _ h => Preserves.pure fun _ => ?_
    exact List.forall_mem_map.2 h
  | axioms =>
    refine (preserves_allAxioms hI).bind fun _ _ _ _ _ h => Preserves.pure fun _ => ?_
    exact List.forall_mem_map.2 h

theorem Encoding.closedSet_formulas (t : Encoding) : ClosedSet t.formulas := by
  rintro f ⟨r, hr, e, he, hf⟩ g hg
  exact ⟨r, hr, e, he, (Formula.expr e).nodes_closed hf hg⟩

namespace EncodingState

theorem Sound.formulas_subset (h : S.Sound held) : S.encoding.formulas ⊆ held := by
  rintro g ⟨r, hr, e, he, hg⟩
  exact (Formula.expr e).nodes_subset h.store.closed (h.holds r hr e he) hg

/-- What is kept with a store does not need more to be held than the results. -/
theorem Sound.results {fs : Set Formula} (h : S.Sound held') (hsub : held ⊆ held')
    (hheld : ClosedSet held) (hfs : ClosedSet fs) (hres : fs ⊆ held') :
    S.Sound (held ∪ (fs ∪ S.encoding.formulas)) := by
  have hclosed : ClosedSet (held ∪ (fs ∪ S.encoding.formulas)) :=
    Session.closedSet_union hheld (Session.closedSet_union hfs (Encoding.closedSet_formulas _))
  refine ⟨h.store.mono (Set.union_subset hsub (Set.union_subset hres h.formulas_subset)) hclosed,
    h.source, h.target, h.complete, fun r hr e he => ?_⟩
  exact .inr (.inr ⟨r, hr, e, he, _, e.mem_occurrences_self [], rfl⟩)

theorem Step.preserves {I : Invariant EncodingState Formula} (hI : Encode.Kept I)
    (h : Step S held S' held') (hS : I.Fits S held) : I.Later S S' ∧ I.Fits S' held' := by
  have hsound := hI.sound hS
  cases h with
  | session hstep =>
    obtain ⟨hlater, hs⟩ := hstep.sound hsound.store
    have hquiet : S.Quiet ⟨_, S.encoding⟩ := .of_store hlater
    exact ⟨hI.later hS hquiet, hI.quiet hS hquiet (hsound.build hs hstep.subset)⟩
  | @encode _ x hx =>
    obtain ⟨held', hsub, hlater, hfits, hresults⟩ := hx.preserves hI hS
    have hsound' := hI.sound hfits
    exact ⟨hlater, hI.quiet hfits (Quiet.refl _) (hsound'.results hsub hsound.store.closed
      (Session.closedSet_results _) (Session.results_subset hsound'.store.closed hresults))⟩

theorem sound_start {env : Environment} {encoding : Encoding} (hsource : source.Assembled)
    (hs : s.Sound held) (hrun : (Build.encoding source env).run s = (.ok encoding, s')) :
    EncodingState.Sound ⟨s', encoding⟩ held ∧ encoding.source = source := by
  cases hrun
  have hgenuine : ∀ e ∈ source.extensions, e.Genuine := hsource.registered.genuine
  refine ⟨⟨hs.grown ⟨Nat.le_refl _, Nat.le_refl _, fun _ _ => rfl, fun _ _ => rfl⟩, hgenuine,
    fun e he => hgenuine e (List.mem_of_mem_filter he), ?_, ?_⟩, rfl⟩
  all_goals exact fun r hr => by cases hr

/-- Whatever an encoding was asked for, what is held fits the store, and its representations are
complete. -/
theorem Reached.sound (h : Reached source S held) : S.Sound held ∧ S.encoding.source = source := by
  induction h with
  | start hsource hs hrun => exact sound_start hsource hs.sound hrun
  | step _ hstep ih =>
    obtain ⟨hlater, hsound⟩ := hstep.preserves Encode.imaging_soundness.kept ih.1
    exact ⟨hsound, hlater.source.trans ih.2⟩

theorem Reached.target (h : Reached source S held) :
    S.encoding.target.toLanguage = source.toLanguage.withoutDatatypes := by
  induction h with
  | start _ _ hrun =>
    cases hrun
    rfl
  | step hreached hstep ih =>
    obtain ⟨hlater, -⟩ := hstep.preserves Encode.imaging_soundness.kept hreached.sound.1
    exact (congrArg _ hlater.target).trans ih

end EncodingState
end SetLang
