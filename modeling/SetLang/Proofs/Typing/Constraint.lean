import SetLang.Proofs.Unifier.Patterns
import SetLang.Proofs.Unifier.Solving
import SetLang.Proofs.Typing.Scheme

/-! What a computation of the solver asks of the types that the variables stand for. `Poses` says
that it asks for a condition, no more and no less: the condition holds for every solution of the
solver afterwards, and each solution from before for which it holds can be extended to the new
variables. Its failures are type errors. -/

namespace SetLang

abbrev Solution := TypeVar → GroundTy

namespace Solve

open Unifier

variable {α β : Type} {u u' : Unifier} {θ θ' : Solution}

def Agree (u : Unifier) (θ θ' : Solution) : Prop := ∀ v < u.size, θ' v = θ v

theorem Agree.refl (u : Unifier) (θ : Solution) : Agree u θ θ := fun _ _ => rfl

theorem Agree.trans {θ'' : Solution} (h : Agree u θ θ') (k : Agree u' θ' θ'')
    (hs : u.size ≤ u'.size) : Agree u θ θ'' := fun v hv =>
  (k v (Nat.lt_of_lt_of_le hv hs)).trans (h v hv)

/-- The run asks for `C θ g`, where `g` is what the term of its result denotes, if it has one. -/
structure Poses (x : Solve α) (term : α → Option TyTerm) (u : Unifier)
    (C : Solution → GroundTy → Prop) : Prop where
  sound : Yields x u fun a u' => u'.WellFormed ∧ Extends u u' ∧
    (∀ t, term a = some t → u'.Allocated t) ∧
    ∀ θ g, u'.SolvedBy θ → (∀ t, term a = some t → g = TyTerm.under θ t) → C θ g
  complete : ∀ θ g, u.SolvedBy θ → C θ g → Succeeds x u fun a u' =>
    ∃ θ', Agree u θ θ' ∧ u'.SolvedBy θ' ∧ ∀ t, term a = some t → g = TyTerm.under θ' t
  fault : Faults x u Fault.Reported

theorem under_toTerm (θ : Solution) (t : Ty) : TyTerm.under θ (Ty.toTerm t) = t.named := by
  rw [TyTerm.under, Ty.toTerm, TypeTree.named, TypeTree.mapData_subst, TypeTree.subst_subst]
  conv_rhs => rw [TypeTree.named, ← TypeTree.subst_leaf (t.mapData Datatype.name)]
  exact TypeTree.subst_congr fun v => v.elim

theorem allocated_toTerm (u : Unifier) (t : Ty) : u.Allocated (Ty.toTerm t) := by
  intro v hv
  rw [Ty.toTerm, TypeTree.leaves_subst] at hv
  obtain ⟨x, -, -⟩ := List.mem_flatMap.1 hv
  exact x.elim

def noTerm (_ : α) : Option TyTerm := none

theorem Poses.congr {x : Solve α} {term : α → Option TyTerm} {C D : Solution → GroundTy → Prop}
    (h : Poses x term u C) (k : ∀ θ g, C θ g ↔ D θ g) : Poses x term u D := by
  have hC : C = D := funext fun θ => funext fun g => propext (k θ g)
  exact hC ▸ h

theorem poses_pure (w : u.WellFormed) {a : α} {term : α → Option TyTerm}
    (h : ∀ t, term a = some t → u.Allocated t) :
    Poses (pure a) term u fun θ g => ∀ t, term a = some t → g = TyTerm.under θ t :=
  ⟨Yields.pure ⟨w, .refl u, h, fun _ _ _ hg => hg⟩,
    fun θ _ hθ hg => Succeeds.pure ⟨θ, .refl u θ, hθ, hg⟩, fun _ he => by cases he⟩

theorem poses_fresh (w : u.WellFormed) : Poses fresh some u fun _ _ => True := by
  refine ⟨?_, fun θ g hθ _ => ?_, fun e he => by cases he⟩
  · rintro t u' hrun
    cases hrun
    exact ⟨w.addVar, extends_addVar u, fun t ht => by cases ht; simp, fun _ _ _ _ => trivial⟩
  · have hnew : Agree u θ (Function.update θ u.size g) := fun v hv =>
      Function.update_of_ne (Nat.ne_of_lt hv) ..
    refine ⟨_, _, run_fresh u, _, hnew, ?_, fun t ht => ?_⟩
    · exact (grows_addVar u).solvedBy_iff.2 (hθ.congr w hnew)
    · cases ht
      simp

theorem poses_unify (w : u.WellFormed) {a b : TyTerm} (ha : u.Allocated a) (hb : u.Allocated b) :
    Poses (unify a b) noTerm u fun θ _ => TyTerm.under θ a = TyTerm.under θ b := by
  have hstep := step_unify w ha hb
  refine ⟨fun _ u' hrun => ?_, fun θ g hθ heq => ?_, hstep.fault⟩
  · rw [hrun] at hstep
    exact ⟨hstep.wellFormed, hstep.later, fun _ h => (by cases h),
      fun θ _ hθ _ => hstep.entails rfl (a, b) (by simp) θ hθ⟩
  · exact (keeps_unify w ha hb hθ heq).mono fun _ _ ⟨_, _, hθ'⟩ =>
      ⟨θ, .refl u θ, hθ', fun _ h => (by cases h)⟩

/-- A run after another one, where both conditions speak of the variables known before. -/
theorem Poses.bind {x : Solve α} {f : α → Solve β} {term : β → Option TyTerm}
    {C : Solution → Prop} {D : Solution → GroundTy → Prop}
    (hx : Poses x noTerm u fun θ _ => C θ)
    (hf : ∀ a u', u'.WellFormed → Extends u u' → Poses (f a) term u' D)
    (hD : ∀ θ θ' g, Agree u θ θ' → (D θ' g ↔ D θ g)) :
    Poses (x >>= f) term u fun θ g => C θ ∧ D θ g := by
  refine ⟨?_, fun θ g hθ ⟨hC, hDg⟩ => ?_, hx.fault.bind fun a u' hrun => ?_⟩
  · refine hx.sound.bind fun a u' ⟨w', hext, _, hC⟩ => ?_
    refine (hf a u' w' hext).sound.mono fun b u'' ⟨w'', hext', hk, hD'⟩ => ?_
    refine ⟨w'', hext.trans hext', hk, fun θ g hθ hg => ⟨?_, hD' θ g hθ hg⟩⟩
    exact hC θ g (hθ.of_extends hext') fun _ h => by cases h
  · refine Succeeds.bind ((hx.complete θ g hθ hC).and_yields hx.sound) ?_
    rintro a u' ⟨⟨θ₁, hagree, hθ₁, -⟩, w', hext, -, -⟩
    refine ((hf a u' w' hext).complete θ₁ g hθ₁ ((hD θ θ₁ g hagree).2 hDg)).mono ?_
    rintro b u'' ⟨θ₂, hagree₂, hθ₂, hg⟩
    exact ⟨θ₂, hagree.trans hagree₂ hext.size, hθ₂, hg⟩
  · obtain ⟨w', hext, -, -⟩ := hx.sound a u' hrun
    exact (hf a u' w' hext).fault

theorem Poses.map {x : Solve α} {term : α → Option TyTerm} {C : Solution → GroundTy → Prop}
    {term' : β → Option TyTerm} (h : Poses x term u C) (f : α → β)
    (hf : ∀ a, term' (f a) = term a) : Poses (x >>= fun a => pure (f a)) term' u C := by
  refine ⟨?_, fun θ g hθ hC => ?_, h.fault.bind fun _ _ _ => Faults.pure⟩
  · refine h.sound.bind fun a u' ⟨w', hext, hk, hC⟩ => Yields.pure ⟨w', hext, ?_, ?_⟩
    · rwa [hf]
    · rwa [hf]
  · refine Succeeds.bind (h.complete θ g hθ hC) fun a u' ⟨θ', hagree, hθ', hg⟩ => ?_
    exact Succeeds.pure ⟨θ', hagree, hθ', by rwa [hf]⟩

/-- A new variable in the place of a result that is missing. -/
theorem Poses.orFresh {x : Solve (Option TyTerm)} {C : Solution → GroundTy → Prop}
    (h : Poses x (fun t => t) u C) :
    Poses (x >>= fun | some t => pure t | none => fresh) some u C := by
  refine ⟨?_, fun θ g hθ hC => ?_, h.fault.bind fun a u' _ => ?_⟩
  · refine h.sound.bind fun a u' ⟨w', hext, hk, hC⟩ => ?_
    cases a with
    | some t => exact Yields.pure ⟨w', hext, hk, hC⟩
    | none =>
      rintro t u'' hrun
      cases hrun
      refine ⟨w'.addVar, hext.trans (extends_addVar u'), fun t ht => by cases ht; simp, ?_⟩
      exact fun θ g hθ _ => hC θ g (hθ.of_extends (extends_addVar u')) fun t ht => by cases ht
  · refine Succeeds.bind ((h.complete θ g hθ hC).and_yields h.sound) ?_
    rintro a u' ⟨⟨θ', hagree, hθ', hg⟩, w', hext, -, -⟩
    cases a with
    | some t => exact Succeeds.pure ⟨θ', hagree, hθ', hg⟩
    | none =>
      obtain ⟨t, u'', hrun, θ'', hagree', hθ'', hg⟩ := (poses_fresh w').complete θ' g hθ' trivial
      exact ⟨t, u'', hrun, θ'', hagree.trans hagree' hext.size, hθ'', hg⟩
  · cases a with
    | some t => exact Faults.pure
    | none => exact fun e he => by cases he

/-- A result that is dropped may denote anything. -/
theorem Poses.discard {x : Solve α} {term : α → Option TyTerm} {C : Solution → GroundTy → Prop}
    (h : Poses x term u C) : Poses (x >>= fun _ => pure ()) noTerm u fun θ _ => ∃ g, C θ g := by
  refine ⟨?_, fun θ _ hθ ⟨g, hC⟩ => ?_, h.fault.bind fun _ _ _ => Faults.pure⟩
  · refine h.sound.bind fun a u' ⟨w', hext, _, hC⟩ => Yields.pure ⟨w', hext, ?_, ?_⟩
    · intro _ ht
      cases ht
    · intro θ _ hθ _
      cases ha : term a with
      | none => exact ⟨.boolean, hC θ .boolean hθ fun t ht => by simp [ha] at ht⟩
      | some t => exact ⟨TyTerm.under θ t, hC θ _ hθ fun t' ht => by rw [ha] at ht; cases ht; rfl⟩
  · refine Succeeds.bind (h.complete θ g hθ hC) fun a u' ⟨θ', hagree, hθ', _⟩ => ?_
    exact Succeeds.pure ⟨θ', hagree, hθ', fun _ ht => by cases ht⟩

theorem under_eq_of_agree {t : TyTerm} (ht : u.Allocated t) (h : Agree u θ θ') :
    TyTerm.under θ' t = TyTerm.under θ t := ht.under_congr h

theorem map_under_eq_of_agree {ts : List TyTerm} (ht : ∀ t ∈ ts, u.Allocated t)
    (h : Agree u θ θ') : ts.map (TyTerm.under θ') = ts.map (TyTerm.under θ) :=
  List.map_congr_left fun t hm => under_eq_of_agree (ht t hm) h

theorem Renaming.denotes_iff_of_agree {r : Renaming} (hr : r.Allocated u) (h : Agree u θ θ')
    (ρ : TypeVar → GroundTy) : r.Denotes θ' ρ ↔ r.Denotes θ ρ :=
  forall₃_congr fun v t ht => by rw [under_eq_of_agree (hr v t ht) h]

/-- Equations between known terms, solved one after another. -/
theorem poses_forM {γ : Type} {left right : γ → TyTerm} (w : u.WellFormed) (eqs : List γ)
    (h : ∀ e ∈ eqs, u.Allocated (left e) ∧ u.Allocated (right e)) :
    Poses (eqs.forM fun e => unify (left e) (right e)) noTerm u
      fun θ _ => ∀ e ∈ eqs, TyTerm.under θ (left e) = TyTerm.under θ (right e) := by
  induction eqs generalizing u with
  | nil => exact (poses_pure w fun _ h => by cases h).congr fun θ g => by simp [noTerm]
  | cons e eqs ih =>
    have he := h e (by simp)
    have hrest : ∀ e' ∈ eqs, u.Allocated (left e') ∧ u.Allocated (right e') := fun e' he' =>
      h e' (by simp [he'])
    refine (Poses.bind (poses_unify w he.1 he.2) (fun _ u' w' hext => ih w' fun e' he' =>
      ⟨(hrest e' he').1.mono hext.size, (hrest e' he').2.mono hext.size⟩) ?_).congr ?_
    · intro θ θ' _ hagree
      refine forall₂_congr fun e' he' => ?_
      rw [under_eq_of_agree (hrest e' he').1 hagree, under_eq_of_agree (hrest e' he').2 hagree]
    · intro θ g
      simp only [List.forall_mem_cons]

/-- A run that only renames variables of patterns to new ones, then a run that uses them. -/
theorem Poses.rename {x : Solve β} {b : β} {r r' : Renaming} {vars : List TypeVar} {f : β → Solve α}
    {term : α → Option TyTerm} {C : Solution → (TypeVar → GroundTy) → GroundTy → Prop}
    (w : u.WellFormed) (hrun : x.run u = (.ok b, u')) (hren : Renames u r vars u' r')
    (hf : Poses (f b) term u' fun θ g => ∃ ρ, r'.Denotes θ ρ ∧ C θ ρ g)
    (hC : ∀ θ θ' ρ g, Agree u θ θ' → (C θ' ρ g ↔ C θ ρ g)) :
    Poses (x >>= f) term u fun θ g => ∃ ρ, r.Denotes θ ρ ∧ C θ ρ g := by
  refine ⟨?_, ?_, ?_⟩
  · intro b u'' hb
    rw [run_bind_ok hrun] at hb
    obtain ⟨w'', hext, hk, hsound⟩ := hf.sound b u'' hb
    refine ⟨w'', hren.grows.extends.trans hext, hk, fun θ g hθ hg => ?_⟩
    obtain ⟨ρ, hρ, hCρ⟩ := hsound θ g hθ hg
    exact ⟨ρ, fun v t hv => hρ v t (hren.kept v t hv), hCρ⟩
  · rintro θ g hθ ⟨ρ, hρ, hCρ⟩
    obtain ⟨θ₁, hagree, hρ₁⟩ := hren.lift θ ρ hρ
    have hθ₁ : u'.SolvedBy θ₁ := hren.grows.solvedBy_iff.2 (hθ.congr w hagree)
    obtain ⟨b, u'', hb, θ₂, hagree₂, hθ₂, hg⟩ :=
      hf.complete θ₁ g hθ₁ ⟨ρ, hρ₁, (hC θ θ₁ ρ g hagree).2 hCρ⟩
    exact ⟨b, u'', by rw [run_bind_ok hrun, hb], θ₂,
      Agree.trans hagree hagree₂ hren.grows.size, hθ₂, hg⟩
  · intro e he
    rw [run_bind_ok hrun] at he
    exact hf.fault e he

/-- New variables, equations between known terms and patterns over these variables, and a pattern of
the result. -/
def posed (vars : List TypeVar) (eqs : List (TyTerm × TyTerm)) (result : TyTerm) :
    Solve TyTerm := do
  let r ← extend [] vars
  eqs.forM fun (a, pattern) => unify a (rename r pattern)
  return rename r result

/-- Equations between known terms and renamed patterns, then a renamed pattern. -/
theorem poses_renamed {r : Renaming} {vars : List TypeVar} (w : u.WellFormed) (hr : r.Allocated u)
    (hvars : ∀ v ∈ vars, (r.lookup v).isSome) (eqs : List (TyTerm × TyTerm)) (result : TyTerm)
    (heqs : ∀ e ∈ eqs, u.Allocated e.1 ∧ e.2.leaves ⊆ vars) (hresult : result.leaves ⊆ vars) :
    Poses (do
      eqs.forM fun e => unify e.1 (rename r e.2)
      return rename r result) some u fun θ g => ∃ ρ : TypeVar → GroundTy, r.Denotes θ ρ ∧
        (∀ e ∈ eqs, TyTerm.under θ e.1 = TyTerm.under ρ e.2) ∧ g = TyTerm.under ρ result := by
  have hall : ∀ {p : TyTerm}, p.leaves ⊆ vars → ∀ v ∈ p.leaves, (r.lookup v).isSome :=
    fun hp v hv => hvars v (hp hv)
  have hforM := poses_forM w eqs fun (e : TyTerm × TyTerm) he =>
    ⟨(heqs e he).1, hr.rename (hall (heqs e he).2)⟩
  have halloc := hr.rename (hall hresult)
  refine (Poses.bind hforM (fun _ u' w' hext => poses_pure w' fun t ht => ?_) ?_).congr ?_
  · cases ht
    exact halloc.mono hext.size
  · intro θ θ' g hagree
    simp only [Option.some.injEq, forall_eq']
    rw [under_eq_of_agree halloc hagree]
  · intro θ g
    simp only [Option.some.injEq, forall_eq']
    constructor
    · rintro ⟨he, hg⟩
      obtain ⟨ρ, hρ⟩ := r.exists_denotes θ
      refine ⟨ρ, hρ, fun e hmem => ?_, ?_⟩
      · rw [he e hmem, under_rename (hall (heqs e hmem).2) hρ]
      · rw [hg, under_rename (hall hresult) hρ]
    · rintro ⟨ρ, hρ, he, hg⟩
      refine ⟨fun e hmem => ?_, ?_⟩
      · rw [he e hmem, under_rename (hall (heqs e hmem).2) hρ]
      · rw [hg, under_rename (hall hresult) hρ]

theorem renaming_nil_allocated (u : Unifier) : Renaming.Allocated [] u := fun _ _ h => by cases h

theorem renaming_nil_denotes (θ ρ : TypeVar → GroundTy) : Renaming.Denotes [] θ ρ :=
  fun _ _ h => by cases h

theorem poses_posed (w : u.WellFormed) (vars : List TypeVar) (eqs : List (TyTerm × TyTerm))
    (result : TyTerm) (heqs : ∀ e ∈ eqs, u.Allocated e.1 ∧ e.2.leaves ⊆ vars)
    (hresult : result.leaves ⊆ vars) :
    Poses (posed vars eqs result) some u fun θ g => ∃ ρ : TypeVar → GroundTy,
      (∀ e ∈ eqs, TyTerm.under θ e.1 = TyTerm.under ρ e.2) ∧ g = TyTerm.under ρ result := by
  obtain ⟨r', u', hrun, hren⟩ := run_extend vars [] u (renaming_nil_allocated u)
  have hbody := poses_renamed (hren.grows.wellFormed w) hren.allocated hren.all eqs result
    (fun e he => ⟨(heqs e he).1.mono hren.grows.size, (heqs e he).2⟩) hresult
  refine (Poses.rename w hrun hren hbody ?_).congr ?_
  · intro θ θ' ρ g hagree
    refine and_congr_left fun _ => forall₂_congr fun e he => ?_
    rw [under_eq_of_agree (heqs e he).1 hagree]
  · intro θ g
    exact exists_congr fun ρ => and_iff_right (renaming_nil_denotes θ ρ)

end Solve
end SetLang
