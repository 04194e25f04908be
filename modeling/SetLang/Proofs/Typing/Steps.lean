import SetLang.Proofs.Environment
import SetLang.Proofs.Typing.Collected
import SetLang.Proofs.Typing.Nodes

/-! The steps of a check: running the solver, noting slots, and giving identifiers their terms. -/

namespace SetLang

open Solve Unifier Collected Check

variable {s : Store} {env : Environment} {c c' : Collected} {τ : Typing} {θ : Solution}
  {ctx : CheckContext} {p : Position} {α : Type}

namespace Collected

/-- A later solver with the same pending terms. -/
theorem Sound.setUnifier (h : c.Sound s env) {u : Unifier} (w : u.WellFormed)
    (hu : Extends c.unifier u) : Adds s env .none c { c with unifier := u } := by
  refine ⟨⟨w, h.room, fun slot p hp => ?_, h.slots, h.distinct, fun x p hp => ?_, h.names⟩,
    ⟨hu, fun _ _ hp => hp, fun _ _ hp => hp⟩, ?_, ?_, ?_, ?_⟩
  · exact (h.pending slot p hp).imp_left (·.mono hu.size)
  · exact (h.free x p hp).imp_left (·.mono hu.size)
  all_goals simp [Footprint.none]

theorem Models.setUnifier (h : c.Models s τ θ) (hc : c.Sound s env) {u : Unifier} {θ' : Solution}
    (hagree : Agree c.unifier θ θ') (hθ' : u.SolvedBy θ') :
    { c with unifier := u }.Models s τ θ' := by
  refine ⟨hθ', h.resolved, fun slot p hp => ?_, fun x p hp => ?_⟩
  · rw [under_eq_of_agree (hc.pending slot p hp).1 hagree]
    exact h.pending slot p hp
  · rw [under_eq_of_agree (hc.free x p hp).1 hagree]
    exact h.free x p hp

end Collected

section solveAt
variable {x : Solve α} {term : α → Option TyTerm} {C : Solution → GroundTy → Prop}

theorem run_solveAt (p : Position) (x : Solve α) (c : Collected) :
    (solveAt p x).run c = match x.run c.unifier with
      | (.ok a, u) => (.ok a, { c with unifier := u })
      | (.error e, u) => (.error (e.mapError fun e => ⟨e, p⟩), { c with unifier := u }) := by
  unfold solveAt
  rcases h : x.run c.unifier with ⟨r, u⟩
  rw [run_bind_ok (run_modifyGet _ c)]
  simp only [h]
  rw [run_bind_ok (run_modify _ _)]
  cases r <;> rfl

theorem yields_solveAt (hc : c.Sound s env) (hx : Poses x term c.unifier C) :
    Yields (solveAt p x) c fun a c' => Adds s env .none c c' ∧
      (∀ t, term a = some t → c'.unifier.Allocated t) ∧
      ∀ τ θ g, c'.Models s τ θ → (∀ t, term a = some t → g = TyTerm.under θ t) → C θ g := by
  intro a c' hrun
  rw [run_solveAt] at hrun
  rcases h : x.run c.unifier with ⟨r, u⟩
  rw [h] at hrun
  cases r with
  | error e => cases hrun
  | ok b =>
    cases hrun
    obtain ⟨w, hext, hk, hsound⟩ := hx.sound a u h
    exact ⟨hc.setUnifier w hext, hk, fun τ θ g hm hg => hsound θ g hm.solved hg⟩

theorem succeeds_solveAt (hc : c.Sound s env) (hx : Poses x term c.unifier C)
    (hm : c.Models s τ θ) {g : GroundTy} (hg : C θ g) :
    Succeeds (solveAt p x) c fun a c' => ∃ θ', Agree c.unifier θ θ' ∧ c'.Models s τ θ' ∧
      ∀ t, term a = some t → g = TyTerm.under θ' t := by
  obtain ⟨a, u, hrun, θ', hagree, hθ', hg⟩ := hx.complete θ g hm.solved hg
  exact ⟨a, _, by rw [run_solveAt, hrun], θ', hagree, hm.setUnifier hc hagree hθ', hg⟩

theorem faults_solveAt (hx : Poses x term c.unifier C) : Faults (solveAt p x) c Fault.Reported := by
  intro e he
  rw [run_solveAt] at he
  rcases h : x.run c.unifier with ⟨r, u⟩
  rw [h] at he
  cases r with
  | ok a => cases he
  | error e' =>
    obtain ⟨reason, rfl⟩ := hx.fault e' (by rw [h])
    cases he
    exact ⟨_, rfl⟩

end solveAt

/-- The step adds the footprint and asks for a condition on what terms denote; it returns `r`. -/
structure Equates (s : Store) (env : Environment) (F : Footprint) (c : Collected) (x : Check α) (r : α)
    (P : Typing → Solution → Prop) : Prop where
  sound : Yields x c fun a c' => a = r ∧ Adds s env F c c' ∧ ∀ τ θ, c'.Models s τ θ → P τ θ
  complete : ∀ τ θ, c.Models s τ θ → P τ θ →
    Succeeds x c fun _ c' => ∃ θ', Agree c.unifier θ θ' ∧ c'.Models s τ θ'
  fault : Faults x c Fault.Reported

namespace Equates

variable {β : Type} {F G : Footprint} {x : Check α} {f : α → Check β} {r : α} {r' : β}
  {P Q : Typing → Solution → Prop}

theorem pure (hc : c.Sound s env) : Equates s env .none c (pure r : Check α) r fun _ _ => True :=
  ⟨Yields.pure ⟨rfl, .nothing hc, fun _ _ _ => trivial⟩,
    fun _ θ hm _ => Succeeds.pure ⟨θ, .refl _ θ, hm⟩, Faults.pure⟩

theorem bind (h : Equates s env F c x r P)
    (k : ∀ c', Adds s env F c c' → Equates s env G c' (f r) r' Q)
    (hQ : ∀ τ θ θ', Agree c.unifier θ θ' → (Q τ θ' ↔ Q τ θ)) :
    Equates s env (F.union G) c (x >>= f) r' fun τ θ => P τ θ ∧ Q τ θ := by
  refine ⟨?_, fun τ θ hm ⟨hP, hQ'⟩ => ?_, h.fault.bind fun a c' hrun => ?_⟩
  · refine h.sound.bind ?_
    rintro a c' ⟨rfl, hadds, hP⟩
    refine (k c' hadds).sound.mono ?_
    rintro b c'' ⟨rfl, hadds', hQ'⟩
    exact ⟨rfl, hadds.trans hadds',
      fun τ θ hm => ⟨hP τ θ (hm.of_later hadds'.later), hQ' τ θ hm⟩⟩
  · refine Succeeds.bind ((h.complete τ θ hm hP).and_yields h.sound) ?_
    rintro a c' ⟨⟨θ₁, hagree, hm₁⟩, rfl, hadds, -⟩
    refine ((k c' hadds).complete τ θ₁ hm₁ ((hQ τ θ θ₁ hagree).2 hQ')).mono ?_
    rintro b c'' ⟨θ₂, hagree₂, hm₂⟩
    exact ⟨θ₂, hagree.trans hagree₂ hadds.later.unifier.size, hm₂⟩
  · obtain ⟨rfl, hadds, -⟩ := h.sound a c' hrun
    exact (k c' hadds).fault

theorem congr (h : Equates s env F c x r P) (k : ∀ τ θ, P τ θ ↔ Q τ θ) : Equates s env F c x r Q := by
  have hPQ : P = Q := funext fun τ => funext fun θ => propext (k τ θ)
  exact hPQ ▸ h

end Equates

theorem equates_solveAt {x : Solve Unit} {C : Solution → Prop} (hc : c.Sound s env)
    (hx : Poses x noTerm c.unifier fun θ _ => C θ) :
    Equates s env .none c (solveAt p x) () fun _ θ => C θ := by
  refine ⟨(yields_solveAt hc hx).mono fun _ c' ⟨hadds, _, h⟩ => ⟨rfl, hadds, fun τ θ hm => ?_⟩,
    fun τ θ hm hC => ?_, faults_solveAt hx⟩
  · exact h τ θ .boolean hm fun _ ht => by cases ht
  · exact (succeeds_solveAt hc hx (g := .boolean) hm hC).mono fun _ _ ⟨θ', hagree, hm', _⟩ =>
      ⟨θ', hagree, hm'⟩

theorem equates_collectGivens (hc : c.Sound s env) (t : Ty) :
    Equates s env (.ofGivens t.givens) c (collectGivens t) () fun _ _ => True := by
  refine ⟨?_, fun τ θ hm _ => ?_, fun _ he => by cases he⟩
  · rintro a c' hrun
    cases hrun
    refine ⟨rfl, ⟨⟨hc.wellFormed, hc.room, hc.pending, hc.slots, hc.distinct, hc.free, hc.names⟩,
      ⟨.refl _, fun _ _ h => h, fun _ _ h => h⟩, ?_, ?_, ?_, ?_⟩, fun _ _ _ => trivial⟩
    all_goals simp [Footprint.ofGivens, Footprint.none, Names.mem_insertAll]
  · exact ⟨(), _, rfl, θ, .refl _ θ, hm.solved, hm.resolved, hm.pending, hm.free⟩

theorem equates_equateKnown (hc : c.Sound s env) {term : TyTerm} (ht : c.unifier.Allocated term)
    (t : Ty) : Equates s env (.ofGivens t.givens) c (equateKnown p term t) ()
      fun _ θ => TyTerm.under θ term = t.named := by
  have h := (equates_collectGivens hc t).bind (f := fun _ => solveAt p (unify term (Ty.toTerm t)))
    (fun c' hadds => equates_solveAt hadds.sound (poses_unify hadds.sound.wellFormed
      (ht.mono hadds.later.unifier.size) (allocated_toTerm _ t))) fun τ θ θ' hagree => by
        rw [under_eq_of_agree ht hagree, under_eq_of_agree (allocated_toTerm _ t) hagree]
  rw [Footprint.union_none] at h
  refine h.congr fun τ θ => ?_
  rw [under_toTerm, true_and]

theorem pending?_note (c : Collected) {slot : Nat} (h : slot < c.pending.size) (q : Pending)
    (x : Nat) : (c.note slot q).pending? x = if slot = x then some q else c.pending? x := by
  unfold pending? note
  by_cases hx : slot = x
  · subst hx
    simp [h]
  · simp [hx]

/-- Noting an empty slot that was not met before. -/
theorem equates_note (hc : c.Sound s env) {slot : Nat} (hslot : slot < s.types.size)
    (hempty : s.type? slot = none) (hnew : c.pending? slot = none) {q : Pending}
    (hq : c.unifier.Allocated q.term) :
    Equates s env (.ofSlot s slot) c (modify (·.note slot q) : Check Unit) ()
      fun τ θ => TyTerm.under θ q.term = τ.slot slot := by
  have hpending := pending?_note c (hc.room.symm ▸ hslot) q
  refine ⟨?_, fun τ θ hm heq => ⟨(), _, rfl, θ, .refl _ θ, hm.solved, hm.resolved, ?_, hm.free⟩,
    fun _ he => by cases he⟩
  · rintro a c' hrun
    cases hrun
    refine ⟨rfl, ⟨⟨hc.wellFormed, ?_, ?_, ?_, ?_, hc.free, hc.names⟩,
      ⟨.refl _, ?_, fun _ _ h => h⟩, ?_, ?_, ?_, ?_⟩, fun τ θ hm => ?_⟩
    · simp [note, hc.room]
    · intro x r hr
      rw [hpending] at hr
      split_ifs at hr with hx
      · cases hr
        exact ⟨hq, hx ▸ hempty⟩
      · exact hc.pending x r hr
    · intro x
      rw [hpending]
      simp only [note, List.mem_cons, hc.slots]
      split_ifs with hx
      · simp [hx]
      · simp [Ne.symm hx]
    · refine List.nodup_cons.2 ⟨fun h => ?_, hc.distinct⟩
      rw [hc.slots, hnew] at h
      cases h
    · intro x r hr
      rw [hpending, if_neg (by rintro rfl; simp [hnew] at hr)]
      exact hr
    · intro x
      simp [note, Footprint.ofSlot, hempty, or_comm]
    · simp [note, Footprint.ofSlot, Footprint.none]
    · simp [note, Footprint.ofSlot, Footprint.none]
    · simp [note, Footprint.ofSlot, hempty]
    · exact hm.pending slot q (by rw [hpending, if_pos rfl])
  · intro x r hr
    rw [hpending] at hr
    split_ifs at hr with hx
    · cases hr
      exact hx ▸ heq
    · exact hm.pending x r hr

/-- A slot that was met before adds nothing. -/
theorem Adds.again {slot : Nat} (h : Adds s env .none c c') (hslot : slot ∈ c.slots)
    (hempty : s.type? slot = none) : Adds s env (.ofSlot s slot) c c' := by
  refine ⟨h.sound, h.later, fun x => ?_, h.names, h.marks, fun x => ?_⟩
  · rw [h.slots]
    simp only [Footprint.none, or_false, Footprint.ofSlot, hempty, true_and]
    exact ⟨.inl, fun h => h.elim id fun h => h ▸ hslot⟩
  · rw [h.givens]
    simp [Footprint.none, Footprint.ofSlot, hempty]

theorem equates_equateSlot (hc : c.Sound ctx.store env) {slot : Nat}
    (hslot : slot < ctx.store.types.size) {term : TyTerm} (ht : c.unifier.Allocated term) :
    Equates ctx.store env (.ofSlot ctx.store slot) c (equateSlot ctx p slot term) ()
      fun τ θ => TyTerm.under θ term = τ.slot slot := by
  unfold equateSlot
  cases hstored : ctx.store.type? slot with
  | some t =>
    have h := equates_equateKnown (p := p) hc ht t
    have hF : Footprint.ofGivens t.givens = Footprint.ofSlot ctx.store slot := by
      simp [Footprint.ofSlot, Footprint.ofGivens, hstored, Footprint.none]
    rw [hF] at h
    refine ⟨h.sound.mono fun _ _ hg => ⟨hg.1, hg.2.1, fun τ θ hm => ?_⟩,
      fun τ θ hm heq => h.complete τ θ hm ?_, h.fault⟩
    · rw [hm.resolved slot t hstored]
      exact hg.2.2 τ θ hm
    · rw [heq, hm.resolved slot t hstored]
  | none =>
    -- the state is read first, and stays as it is
    have hget : ∀ (f : Collected → Check Unit), (get >>= f).run c = (f c).run c := fun _ => rfl
    cases hpending : c.pending? slot with
    | some q =>
      have h := equates_solveAt (p := p) hc
        (poses_unify hc.wellFormed ht (hc.pending slot q hpending).1)
      have hmem : slot ∈ c.slots := (hc.slots slot).2 (by simp [hpending])
      refine ⟨?_, fun τ θ hm heq => ?_, ?_⟩
      · intro a c' hrun
        rw [hget, hpending] at hrun
        obtain ⟨hr, hadds, heq⟩ := h.sound a c' hrun
        refine ⟨hr, hadds.again hmem hstored, fun τ θ hm => ?_⟩
        rw [heq τ θ hm, hm.pending slot q (hadds.later.pending slot q hpending)]
      · unfold Succeeds
        rw [hget, hpending]
        exact h.complete τ θ hm (heq.trans (hm.pending slot q hpending).symm)
      · unfold Faults
        rw [hget, hpending]
        exact h.fault
    | none =>
      have h := equates_note hc hslot hstored hpending (q := ⟨term, p⟩) ht
      refine ⟨?_, fun τ θ hm heq => ?_, ?_⟩
      · intro a c' hrun
        rw [hget, hpending] at hrun
        exact h.sound a c' hrun
      · unfold Succeeds
        rw [hget, hpending]
        exact h.complete τ θ hm heq
      · unfold Faults
        rw [hget, hpending]
        exact h.fault

/-- A term with the same denotation in all typings that are still possible. -/
structure Collected.Denotes (c : Collected) (s : Store) (t : TyTerm) (g : Typing → GroundTy) :
    Prop where
  allocated : c.unifier.Allocated t
  eq : ∀ τ θ, c.Models s τ θ → TyTerm.under θ t = g τ

theorem Collected.Denotes.mono {t : TyTerm} {g : Typing → GroundTy} (h : c.Denotes s t g)
    (k : Later c c') : c'.Denotes s t g :=
  ⟨h.allocated.mono k.unifier.size, fun τ θ hm => h.eq τ θ (hm.of_later k)⟩

/-- A step that gives a term to a node, then a step that asks for more of what the term denotes. -/
theorem checks_of_solveAt {x : Solve TyTerm} {k : TyTerm → Check TyTerm} {F : Footprint}
    {C : Solution → GroundTy → Prop} {P : Typing → GroundTy → Prop} {o : Occurrence}
    {g : Typing → GroundTy} (hc : c.Sound s env) (hx : Poses x some c.unifier C)
    (hk : ∀ t c', Adds s env .none c c' → c'.unifier.Allocated t →
      Equates s env F c' (k t) t fun τ θ => P τ (TyTerm.under θ t))
    (hF : F = .ofNode s env o.node) (hP : ∀ τ a, P τ a → a = g τ)
    (hnode : ∀ τ θ, c.Models s τ θ → (τ.TypesNode env o ↔ C θ (g τ) ∧ P τ (g τ))) :
    Checks s env [o] c (solveAt p x >>= k) fun t c' => c'.Denotes s t g := by
  refine ⟨?_, fun τ ⟨θ, hm⟩ ho => ?_, ?_⟩
  · refine (yields_solveAt hc hx).bind fun t c' ⟨hadds, ht, hC⟩ => ?_
    have hkt := hk t c' hadds (ht t rfl)
    refine hkt.sound.mono ?_
    rintro t' c'' ⟨rfl, hadds', hP'⟩
    have hden : ∀ τ θ, c''.Models s τ θ → TyTerm.under θ t' = g τ := fun τ θ hm =>
      hP τ _ (hP' τ θ hm)
    refine ⟨⟨?_, fun τ ⟨θ, hm⟩ o' ho' => ?_⟩, (ht t' rfl).mono hadds'.later.unifier.size, hden⟩
    · rw [Footprint.ofNodes_one, ← hF, ← Footprint.none_union F]
      exact hadds.trans hadds'
    · obtain rfl := List.mem_singleton.1 ho'
      have hm' := hm.of_later hadds'.later
      refine (hnode τ θ (hm'.of_later hadds.later)).2 ⟨?_, ?_⟩
      · exact hC τ θ (g τ) hm' fun t ht => by cases ht; exact (hden τ θ hm).symm
      · rw [← hden τ θ hm]
        exact hP' τ θ hm
  · obtain ⟨hCg, hPg⟩ := (hnode τ θ hm).1 (ho o (by simp))
    refine Succeeds.bind ((succeeds_solveAt hc hx hm hCg).and_yields (yields_solveAt hc hx)) ?_
    rintro t c' ⟨⟨θ', -, hm', hg⟩, hadds, ht, -⟩
    have hkt := hk t c' hadds (ht t rfl)
    refine (hkt.complete τ θ' hm' ?_).mono fun _ _ ⟨θ'', _, hm''⟩ => ⟨θ'', hm''⟩
    rw [← hg t rfl]
    exact hPg
  · refine (faults_solveAt hx).bind fun t c' hrun => ?_
    obtain ⟨hadds, ht, -⟩ := yields_solveAt hc hx t c' hrun
    exact (hk t c' hadds (ht t rfl)).fault

def Footprint.ofExpr (s : Store) (e : Expr) : Footprint :=
  (ofGivens ((e.explicit?.map TypeTree.givens).getD [])).union (ofSlot s e.node.slot)

theorem equates_finishNode (hc : c.Sound ctx.store env) {e : Expr}
    (hslot : e.node.slot < ctx.store.types.size) {term : TyTerm} (ht : c.unifier.Allocated term) :
    Equates ctx.store env (.ofExpr ctx.store e) c (finishNode ctx p e term) term fun τ θ =>
      (∀ t, e.explicit? = some t → TyTerm.under θ term = t.named) ∧
        TyTerm.under θ term = τ.ofExpr e := by
  have hrest : ∀ c', Adds ctx.store env (.ofGivens ((e.explicit?.map TypeTree.givens).getD [])) c c' →
      Equates ctx.store env (.ofSlot ctx.store e.node.slot) c' (do
        equateSlot ctx p e.node.slot term
        return term) term fun τ θ => TyTerm.under θ term = τ.ofExpr e := by
    intro c' hadds
    have h := (equates_equateSlot (p := p) hadds.sound hslot
      (ht.mono hadds.later.unifier.size)).bind (f := fun _ => pure term)
      (fun c'' hadds' => Equates.pure hadds'.sound) fun _ _ _ _ => Iff.rfl
    rw [Footprint.union_none] at h
    exact h.congr fun τ θ => and_iff_left trivial
  have hagree : ∀ (τ : Typing) (θ θ' : Solution), Agree c.unifier θ θ' →
      (TyTerm.under θ' term = τ.ofExpr e ↔ TyTerm.under θ term = τ.ofExpr e) :=
    fun τ θ θ' h => by rw [under_eq_of_agree ht h]
  unfold finishNode Footprint.ofExpr
  cases he : e.explicit? with
  | some t =>
    rw [he] at hrest
    refine ((equates_equateKnown hc ht t).bind (fun c' hadds => hrest c' hadds) hagree).congr
      fun τ θ => and_congr_left fun _ => by simp
  | none =>
    rw [he] at hrest
    have hF : Footprint.ofGivens ((Option.map TypeTree.givens (none : Option Ty)).getD []) =
        Footprint.none := by
      simp [Footprint.ofGivens, Footprint.none]
    rw [hF] at hrest ⊢
    have h := (Equates.pure (r := ()) hc).bind (f := fun _ => _) hrest hagree
    exact h.congr fun τ θ => and_congr_left fun _ => by simp

/-- A step that gives an identifier the term of what it stands for. -/
structure Reads (s : Store) (env : Environment) (F : Footprint) (c : Collected) (x : Check TyTerm)
    (g : Typing → GroundTy) : Prop where
  sound : Yields x c fun t c' => Adds s env F c c' ∧ c'.Denotes s t g
  complete : ∀ τ, c.Admits s τ → Succeeds x c fun _ c' => c'.Admits s τ
  fault : Faults x c Fault.Reported

theorem reads_pure (hc : c.Sound s env) {t : TyTerm} {g : Typing → GroundTy} (h : c.Denotes s t g) :
    Reads s env .none c (pure t) g :=
  ⟨Yields.pure ⟨.nothing hc, h⟩, fun _ hτ => Succeeds.pure hτ, Faults.pure⟩

theorem checks_identifier {scope : List Declaration} {e : Expr} {F : Footprint} {x : Check TyTerm}
    {g : Typing → GroundTy} (hslot : e.node.slot < ctx.store.types.size)
    (hx : Reads ctx.store ctx.env F c x g)
    (hF : F.union (.ofExpr ctx.store e) = .ofNode ctx.store ctx.env (.expr e))
    (hnode : ∀ τ : Typing, τ.TypesNode ctx.env ⟨scope, .expr e⟩ ↔
      (∀ t, e.explicit? = some t → τ.ofExpr e = t.named) ∧ τ.ofExpr e = g τ) :
    Checks ctx.store ctx.env [⟨scope, .expr e⟩] c (x >>= finishNode ctx p e) fun t c' =>
      c'.Denotes ctx.store t (·.ofExpr e) := by
  refine ⟨?_, fun τ hτ ho => ?_, ?_⟩
  · refine hx.sound.bind fun t c' ⟨hadds, hden⟩ => ?_
    refine (equates_finishNode hadds.sound hslot hden.allocated).sound.mono ?_
    rintro t' c'' ⟨rfl, hadds', hP⟩
    refine ⟨⟨?_, fun τ ⟨θ, hm⟩ o ho => ?_⟩, hden.allocated.mono hadds'.later.unifier.size,
      fun τ θ hm => (hP τ θ hm).2⟩
    · rw [Footprint.ofNodes_one, ← hF]
      exact hadds.trans hadds'
    · obtain rfl := List.mem_singleton.1 ho
      obtain ⟨hexplicit, heq⟩ := hP τ θ hm
      refine (hnode τ).2 ⟨fun t ht => heq.symm.trans (hexplicit t ht), ?_⟩
      exact heq.symm.trans (hden.eq τ θ (hm.of_later hadds'.later))
  · obtain ⟨hexplicit, heq⟩ := (hnode τ).1 (ho _ (by simp))
    refine Succeeds.bind ((hx.complete τ hτ).and_yields hx.sound) ?_
    rintro t c' ⟨⟨θ, hm⟩, hadds, hden⟩
    have hterm : TyTerm.under θ t = τ.ofExpr e := (hden.eq τ θ hm).trans heq.symm
    refine ((equates_finishNode hadds.sound hslot hden.allocated).complete τ θ hm ⟨?_, hterm⟩).mono
      fun _ _ ⟨θ', _, hm'⟩ => ⟨θ', hm'⟩
    exact fun t ht => hterm.trans (hexplicit t ht)
  · refine hx.fault.bind fun t c' hrun => ?_
    obtain ⟨hadds, hden⟩ := hx.sound t c' hrun
    exact (equates_finishNode hadds.sound hslot hden.allocated).fault

theorem lookup_placeFree {x y : String} {q : Pending} {free : List (String × Pending)}
    (h : free.lookup x = none) :
    (placeFree x q free).lookup y = if y = x then some q else free.lookup y := by
  induction free with
  | nil => rw [placeFree, lookup_cons_if]
  | cons z free ih =>
    obtain ⟨z, r⟩ := z
    rw [lookup_cons_if] at h
    by_cases hxz : x = z
    · simp [hxz] at h
    rw [if_neg hxz] at h
    by_cases hlt : x < z
    · rw [placeFree, if_pos hlt, lookup_cons_if]
    · rw [placeFree, if_neg hlt, lookup_cons_if, ih h, lookup_cons_if]
      by_cases hyx : y = x
      · rw [if_pos hyx, if_neg (hyx ▸ hxz), if_pos hyx]
      · rw [if_neg hyx, if_neg hyx]

theorem placeFree_perm (x : String) (q : Pending) (free : List (String × Pending)) :
    (placeFree x q free).Perm ((x, q) :: free) := by
  induction free with
  | nil => exact .refl _
  | cons z free ih =>
    unfold placeFree
    split_ifs with h
    · exact .refl _
    · exact (ih.cons z).trans (.swap ..)

def Footprint.ofFree (env : Environment) (x : String) : Footprint :=
  { none with names := fun y => env.get? x = Option.none ∧ y = x }

/-- A name that was met before adds nothing. -/
theorem Adds.againFree {x : String} (h : Adds s env .none c c') (hx : (c.free.lookup x).isSome) :
    Adds s env (.ofFree env x) c c' := by
  refine ⟨h.sound, h.later, h.slots, fun y => ?_, h.marks, h.givens⟩
  rw [h.names]
  simp only [Footprint.none, or_false, Footprint.ofFree]
  exact ⟨.inl, fun h => h.elim id fun h => h.2 ▸ hx⟩

/-- A new free name gets a new variable. -/
theorem adds_placeFree (hc : c.Sound s env) {x : String} (hx : env.get? x = none)
    (hnew : c.free.lookup x = none) {q : Pending} (hq : c.unifier.Allocated q.term) :
    Adds s env (.ofFree env x) c { c with free := placeFree x q c.free } := by
  have hlookup := fun y => lookup_placeFree (y := y) (q := q) hnew
  refine ⟨⟨hc.wellFormed, hc.room, hc.pending, hc.slots, hc.distinct, fun y r hr => ?_, ?_⟩,
    ⟨.refl _, fun _ _ h => h, fun y r hr => ?_⟩, ?_, fun y => ?_, ?_, ?_⟩
  · rw [hlookup] at hr
    split_ifs at hr with hy
    · cases hr
      exact ⟨hq, hy ▸ hx⟩
    · exact hc.free y r hr
  · have hperm := (placeFree_perm x q c.free).map Prod.fst
    refine hperm.nodup_iff.2 (List.nodup_cons.2 ⟨fun hmem => ?_, hc.names⟩)
    obtain ⟨⟨z, r⟩, hz, rfl⟩ := List.mem_map.1 hmem
    simpa using List.lookup_eq_none_iff.1 hnew (z, r) hz
  · rw [hlookup, if_neg (by rintro rfl; simp [hnew] at hr)]
    exact hr
  · simp [Footprint.ofFree, Footprint.none]
  · rw [hlookup]
    by_cases hy : y = x
    · simp [Footprint.ofFree, hy, hx]
    · simp [Footprint.ofFree, hy]
  · simp [Footprint.ofFree, Footprint.none]
  · simp [Footprint.ofFree, Footprint.none]

theorem Reads.of_run {F : Footprint} {x y : Check TyTerm} {g : Typing → GroundTy}
    (h : Reads s env F c x g) (k : y.run c = x.run c) : Reads s env F c y g := by
  refine ⟨?_, fun τ hτ => ?_, ?_⟩
  · unfold Yields
    rw [k]
    exact h.sound
  · unfold Succeeds
    rw [k]
    exact h.complete τ hτ
  · unfold Faults
    rw [k]
    exact h.fault

theorem reads_fresh (hc : c.Sound s env) {x : String} (hx : env.get? x = none)
    (hnew : c.free.lookup x = none) :
    Reads s env (.ofFree env x) c (do
      let term ← solveAt p Solve.fresh
      modify fun c => { c with free := placeFree x ⟨term, p⟩ c.free }
      return term) fun τ => τ.free x := by
  have hfresh := poses_fresh hc.wellFormed
  have hsound := yields_solveAt (p := p) hc hfresh
  -- the solver does not touch the free names
  have hkept : Yields (solveAt p Solve.fresh) c fun _ c' => c'.free = c.free := by
    rintro t c' hrun
    rw [run_solveAt] at hrun
    cases hrun
    rfl
  refine ⟨?_, fun τ ⟨θ, hm⟩ => ?_, ?_⟩
  · refine (hsound.and hkept).bind ?_
    rintro t c' ⟨⟨hadds, ht, -⟩, hfree⟩ t' c'' hrun
    have hnew' : c'.free.lookup x = none := by rw [hfree, hnew]
    have hplace := adds_placeFree (q := ⟨t, p⟩) hadds.sound hx hnew' (ht t rfl)
    cases hrun
    refine ⟨?_, ht t rfl, fun τ θ hm => hm.free x ⟨t, p⟩ ?_⟩
    · have h := hadds.trans hplace
      rwa [Footprint.none_union] at h
    · rw [lookup_placeFree hnew', if_pos rfl]
  · refine Succeeds.bind ((succeeds_solveAt hc hfresh hm (g := τ.free x) trivial).and_yields
      hkept) ?_
    rintro t c' ⟨⟨θ', -, hm', ht⟩, hfree⟩
    have hnew' : c'.free.lookup x = none := by rw [hfree, hnew]
    refine ⟨t, _, rfl, θ', hm'.solved, hm'.resolved, hm'.pending, fun y r hr => ?_⟩
    rw [lookup_placeFree hnew'] at hr
    split_ifs at hr with hy
    · cases hr
      rw [hy]
      exact (ht t rfl).symm
    · exact hm'.free y r hr
  · exact (faults_solveAt hfresh).bind fun t c' _ e he => by cases he

theorem reads_freeTerm (hc : c.Sound ctx.store ctx.env) (x : String) :
    Reads ctx.store ctx.env (.ofFree ctx.env x) c (freeTerm ctx p x)
      fun τ => ((ctx.env.get? x).map TypeTree.named).getD (τ.free x) := by
  unfold freeTerm
  cases hx : ctx.env.get? x with
  | some t =>
    have hF : Footprint.ofFree ctx.env x = .none := by simp [Footprint.ofFree, Footprint.none, hx]
    rw [hF]
    exact reads_pure hc ⟨allocated_toTerm _ t, fun τ θ _ => under_toTerm θ t⟩
  | none =>
    have hget : ∀ (f : Collected → Check TyTerm), (get >>= f).run c = (f c).run c := fun _ => rfl
    cases hlookup : c.free.lookup x with
    | some q =>
      have hden : c.Denotes ctx.store q.term fun τ => τ.free x :=
        ⟨(hc.free x q hlookup).1, fun τ θ hm => hm.free x q hlookup⟩
      have h := reads_pure hc hden
      refine Reads.of_run (x := pure q.term) ?_ (by rw [hget, hlookup])
      exact ⟨h.sound.mono fun _ _ hg => ⟨hg.1.againFree (by simp [hlookup]), hg.2⟩,
        h.complete, h.fault⟩
    | none => exact (reads_fresh hc hx hlookup).of_run (by rw [hget, hlookup])

def Collected.DenotesAll (c : Collected) (s : Store) (g : α → Typing → GroundTy) :
    List TyTerm → List α → Prop :=
  List.Forall₂ fun t a => c.Denotes s t (g a)

namespace Collected.DenotesAll

variable {g : α → Typing → GroundTy} {ts : List TyTerm} {as : List α}

theorem mono (h : c.DenotesAll s g ts as) (k : Later c c') : c'.DenotesAll s g ts as :=
  h.imp fun _ _ h => h.mono k

theorem allocated (h : c.DenotesAll s g ts as) : ∀ t ∈ ts, c.unifier.Allocated t := by
  induction h with
  | nil => simp
  | cons hd _ ih => simpa using ⟨hd.allocated, ih⟩

theorem map_eq (h : c.DenotesAll s g ts as) (hm : c.Models s τ θ) :
    ts.map (TyTerm.under θ) = as.map fun a => g a τ := by
  induction h with
  | nil => rfl
  | cons hd _ ih => rw [List.map_cons, List.map_cons, hd.eq τ θ hm, ih]

theorem getElem? (h : c.DenotesAll s g ts as) {i : Nat} {a : α} (ha : as[i]? = some a) :
    ∃ t, ts[i]? = some t ∧ c.Denotes s t (g a) := by
  induction h generalizing i with
  | nil => simp at ha
  | cons hd _ ih =>
    cases i with
    | zero =>
      cases ha
      exact ⟨_, rfl, hd⟩
    | succ i => simpa using ih (by simpa using ha)

end Collected.DenotesAll

/-- The rule of an expression, after its children. -/
theorem checks_applyRule {scope : List Declaration} {e : Expr} {terms : List TyTerm}
    (declTerms : List TyTerm) (hc : c.Sound ctx.store ctx.env)
    (hfits : (Formula.expr e).NodeFits ctx.store)
    (hterms : c.DenotesAll ctx.store (fun e τ => τ.ofExpr e) terms e.operands)
    (hdecls : declTerms.length = e.ruleDecls.length)
    (hid : ∀ τ : Typing, τ.TypesIdentifier ctx.env scope e) (hname : e.freeName? = none) :
    Checks ctx.store ctx.env [⟨scope, .expr e⟩] c (applyRule ctx p e (declTerms ++ terms))
      fun t c' => c'.Denotes ctx.store t (·.ofExpr e) := by
  refine checks_of_solveAt (P := fun τ a => (∀ t, e.explicit? = some t → a = t.named) ∧
    a = τ.ofExpr e) hc (e.poses_rule hc.wellFormed hterms.allocated hfits.2 hterms.length_eq hdecls)
    (fun t c' hadds ht => equates_finishNode hadds.sound hfits.1 ht) ?_ (fun τ a h => h.2) ?_
  · simp [Footprint.ofExpr, Footprint.ofNode, hname, Footprint.union, Footprint.none]
  · intro τ θ hm
    rw [hterms.map_eq hm]
    simp [Typing.TypesNode, Typing.Obeys, hid τ]

theorem checks_declTerm {scope : List Declaration} {d : Declaration}
    (hc : c.Sound ctx.store ctx.env) (hslot : d.slot < ctx.store.types.size) :
    Checks ctx.store ctx.env [⟨scope, .decl d⟩] c (declTerm ctx p d) fun t c' =>
      c'.Denotes ctx.store t (·.ofDecl d) := by
  have hk : ∀ t c', Adds ctx.store ctx.env .none c c' → c'.unifier.Allocated t →
      Equates ctx.store ctx.env (.ofSlot ctx.store d.slot) c' (do
        equateSlot ctx p d.slot t
        return t) t fun τ θ => TyTerm.under θ t = τ.ofDecl d := by
    intro t c' hadds ht
    have h := (equates_equateSlot (p := p) hadds.sound hslot ht).bind (f := fun _ => pure t)
      (fun c'' hadds' => Equates.pure hadds'.sound) fun _ _ _ _ => Iff.rfl
    rw [Footprint.union_none] at h
    exact h.congr fun τ θ => and_iff_left trivial
  unfold declTerm Declaration.type?
  cases hstored : ctx.store.type? d.slot with
  | some t =>
    have h := hk (Ty.toTerm t) c (.nothing hc) (allocated_toTerm _ t)
    simp only [pure_bind]
    refine ⟨?_, fun τ ⟨θ, hm⟩ _ => ?_, h.fault⟩
    · refine h.sound.mono ?_
      rintro _ c' ⟨rfl, hadds, heq⟩
      refine ⟨⟨?_, fun τ _ o ho => ?_⟩, allocated_toTerm _ t, heq⟩
      · rw [Footprint.ofNodes_one]
        exact hadds
      · obtain rfl := List.mem_singleton.1 ho
        trivial
    · refine (h.complete τ θ hm ?_).mono fun _ _ ⟨θ', _, hm'⟩ => ⟨θ', hm'⟩
      rw [under_toTerm, Typing.ofDecl, hm.resolved d.slot t hstored]
  | none =>
    refine checks_of_solveAt (P := fun τ a => a = τ.ofDecl d) hc (poses_fresh hc.wellFormed) hk rfl
      (fun _ _ h => h) fun τ θ _ => ?_
    simp [Typing.TypesNode, Typing.Obeys]

theorem checks_declTerms (scope ds : List Declaration) (i : Nat)
    (hc : c.Sound ctx.store ctx.env) (hslots : ∀ d ∈ ds, d.slot < ctx.store.types.size) :
    Checks ctx.store ctx.env (ds.map fun d => ⟨scope, .decl d⟩) c (declTerms ctx p i ds)
      fun ts c' => c'.DenotesAll ctx.store (fun d τ => τ.ofDecl d) ts ds := by
  induction ds generalizing c i with
  | nil => exact Checks.pure hc .nil
  | cons d ds ih =>
    refine Checks.bind (checks_declTerm hc (hslots d (by simp))) fun t c' hg ht => ?_
    refine Checks.map ((ih (i + 1) hg.adds.sound fun d hd => hslots d (by simp [hd])).mono ?_)
    exact fun ts c'' hg' hts => .cons (ht.mono hg'.adds.later) hts

theorem equates_markLater (hc : c.Sound ctx.store env) (m : Nat) :
    Equates ctx.store env (.ofMark ctx.store m) c (markLater ctx m) () fun _ _ => True := by
  unfold markLater
  cases hm : ctx.store.isMarked m with
  | true =>
    have hF : Footprint.ofMark ctx.store m = .none := by
      simp [Footprint.ofMark, Footprint.none, hm]
    rw [hF]
    exact Equates.pure hc
  | false =>
    refine ⟨?_, fun τ θ h _ => ⟨(), _, rfl, θ, .refl _ θ, h.solved, h.resolved, h.pending, h.free⟩,
      fun _ he => by cases he⟩
    rintro a c' hrun
    cases hrun
    refine ⟨rfl, ⟨⟨hc.wellFormed, hc.room, hc.pending, hc.slots, hc.distinct, hc.free, hc.names⟩,
      ⟨.refl _, fun _ _ h => h, fun _ _ h => h⟩, ?_, ?_, fun x => ?_, ?_⟩, fun _ _ _ => trivial⟩
    · simp [Footprint.ofMark, Footprint.none]
    · simp [Footprint.ofMark, Footprint.none]
    · simp [Footprint.ofMark, hm, or_comm]
    · simp [Footprint.ofMark, Footprint.none]

/-- The rule of a node that has a mark instead of a type. -/
theorem checks_marked {o : Occurrence} {x : Solve Unit} {C : Solution → Prop} {m : Nat}
    (hc : c.Sound ctx.store ctx.env) (hx : Poses x noTerm c.unifier fun θ _ => C θ)
    (hF : Footprint.ofNode ctx.store ctx.env o.node = .ofMark ctx.store m)
    (hnode : ∀ τ θ, c.Models ctx.store τ θ → (τ.TypesNode ctx.env o ↔ C θ)) :
    Checks ctx.store ctx.env [o] c (do
      solveAt p x
      markLater ctx m) fun _ _ => True := by
  have h := (equates_solveAt (p := p) hc hx).bind (f := fun _ => markLater ctx m)
    (fun c' hadds => equates_markLater hadds.sound m) fun _ _ _ _ => Iff.rfl
  rw [Footprint.none_union, ← hF] at h
  refine ⟨h.sound.mono fun _ c' ⟨_, hadds, hC⟩ => ⟨⟨?_, fun τ ⟨θ, hm⟩ o' ho => ?_⟩, trivial⟩,
    fun τ ⟨θ, hm⟩ ho => ?_, h.fault⟩
  · rw [Footprint.ofNodes_one]
    exact hadds
  · obtain rfl := List.mem_singleton.1 ho
    exact (hnode τ θ (hm.of_later hadds.later)).2 (hC τ θ hm).1
  · exact (h.complete τ θ hm ⟨(hnode τ θ hm).1 (ho o (by simp)), trivial⟩).mono
      fun _ _ ⟨θ', _, hm'⟩ => ⟨θ', hm'⟩

/-- The rule of a predicate, after its children. -/
theorem checks_finishPred {scope : List Declaration} {q : Pred} {terms : List TyTerm}
    (hc : c.Sound ctx.store ctx.env) (hfits : (Formula.pred q).NodeFits ctx.store)
    (hterms : c.DenotesAll ctx.store (fun e τ => τ.ofExpr e) terms q.operands) :
    Checks ctx.store ctx.env [⟨scope, .pred q⟩] c (finishPred ctx p q terms) fun _ _ => True :=
  checks_marked hc (q.poses_rule hc.wellFormed hterms.allocated hfits.2 hterms.length_eq) rfl
    fun τ θ hm => by
      rw [hterms.map_eq hm]
      simp [Typing.TypesNode, Typing.Obeys]

end SetLang
