import SetLang.Proofs.Store
import SetLang.Proofs.Typing.Finish
import SetLang.Proofs.Typing.Walk

/-! Checking is sound, complete and principal. A check succeeds exactly if one typing and no other
types the formula and the given types in it are declared, and then it publishes this typing. -/

namespace SetLang

open Solve Unifier Collected Check

variable {s s' : Store} {env inferred : Environment} {c : Collected} {f : Formula} {τ τ' : Typing}

namespace Footprint

theorem slots_ofNode {n : Formula} {x : Nat} :
    (ofNode s env n).slots x ↔ s.type? x = Option.none ∧ n.slot? = some x := by
  cases n <;> simp +contextual [ofNode, ofGivens, ofSlot, ofMark, union, none, Formula.slot?,
    eq_comm (a := x)]

theorem names_ofNode {n : Formula} {x : String} :
    (ofNode s env n).names x ↔ env.get? x = Option.none ∧ n.freeName? = some x := by
  cases n <;> simp [ofNode, ofGivens, ofSlot, ofMark, union, none, Formula.freeName?]

theorem marks_ofNode {n : Formula} {x : Nat} :
    (ofNode s env n).marks x ↔ s.isMarked x = false ∧ n.mark? = some x := by
  cases n <;> simp +contextual [ofNode, ofGivens, ofSlot, ofMark, union, none, Formula.mark?,
    eq_comm (a := x)]

theorem slots_ofNodes {x : Nat} : (ofNodes s env f.occurrences).slots x ↔
    s.type? x = Option.none ∧ x ∈ f.typeSlots := by
  simp only [ofNodes, slots_ofNode, Formula.typeSlots, List.mem_filterMap]
  grind

theorem names_ofNodes {x : String} : (ofNodes s env f.occurrences).names x ↔
    env.get? x = Option.none ∧ x ∈ f.freeNames := by
  simp only [ofNodes, names_ofNode, Formula.freeNames, List.mem_filterMap]
  grind

theorem marks_ofNodes {x : Nat} : (ofNodes s env f.occurrences).marks x ↔
    s.isMarked x = false ∧ x ∈ f.markSlots := by
  simp only [ofNodes, marks_ofNode, Formula.markSlots, List.mem_filterMap]
  grind

/-- The given types that nodes contribute occur in the types of these nodes. -/
theorem givens_ofNode (hτ : τ.Types s env f) {o : Occurrence} (ho : o ∈ f.occurrences) {x : String}
    (hx : (ofNode s env o.node).givens x) : ∃ slot ∈ f.typeSlots, x ∈ (τ.slot slot).givens := by
  have hmem : ∀ slot, o.node.slot? = some slot → slot ∈ f.typeSlots := fun slot h =>
    List.mem_filterMap.2 ⟨o, ho, h⟩
  have hslot : ∀ slot, o.node.slot? = some slot → (ofSlot s slot).givens x →
      ∃ slot ∈ f.typeSlots, x ∈ (τ.slot slot).givens := by
    rintro slot h ⟨t, ht, hx⟩
    refine ⟨slot, hmem slot h, ?_⟩
    rwa [hτ.resolved slot t ht, TypeTree.named, TypeTree.givens_mapData]
  have hnode := hτ.node o ho
  obtain ⟨scope, n⟩ := o
  cases n with
  | expr e =>
    rcases hx with hx | hx | hx
    · cases he : e.explicit? with
      | none => simp [he, ofGivens] at hx
      | some t =>
        refine ⟨e.node.slot, hmem _ rfl, ?_⟩
        have ht : τ.ofExpr e = t.named := hnode.1.2 t he
        rw [Typing.ofExpr] at ht
        rw [ht, TypeTree.named, TypeTree.givens_mapData]
        simpa [he, ofGivens] using hx
    · exact hslot _ rfl hx
    · exact hx.elim
  | decl d => exact hslot _ rfl hx
  | pred p => exact hx.elim
  | assignment a => exact hx.elim

theorem givens_of_type? {n : Formula} {slot : Nat} {t : Ty} {x : String} (hn : n.slot? = some slot)
    (ht : s.type? slot = some t) (hx : x ∈ t.givens) : (ofNode s env n).givens x := by
  cases n with
  | expr e =>
    cases hn
    exact .inr (.inl ⟨t, ht, hx⟩)
  | decl d =>
    cases hn
    exact ⟨t, ht, hx⟩
  | pred p => cases hn
  | assignment a => cases hn

end Footprint

namespace Collected

theorem pending?_start (x : Nat) : (start s).pending? x = none := by
  unfold pending? start
  rw [Array.getElem?_replicate]
  split_ifs <;> rfl

theorem sound_start : (start s).Sound s env := by
  refine ⟨wellFormed_empty, by simp [start], fun slot q h => ?_, fun slot => ?_, List.nodup_nil,
    fun x q h => (by cases h), List.nodup_nil⟩
  · rw [pending?_start] at h
    cases h
  · rw [pending?_start]
    simp [start]

theorem admits_start (h : ∀ slot t, s.type? slot = some t → τ.slot slot = t.named) :
    (start s).Admits s τ := by
  refine ⟨fun _ => .boolean, fun v t hv => ?_, h, fun slot q hq => ?_, fun x q hq => by cases hq⟩
  · simp [start, value?, var?, empty] at hv
  · rw [pending?_start] at hq
    cases hq

end Collected

/-- A check of a formula; a declaration is not checked on its own. -/
def Formula.check? (s : Store) (env : Environment) :
    Formula → Option (Except (Fault CheckError) (Environment × Store))
  | expr e => some (s.checkExpr env e)
  | pred p => some (s.checkPred env p)
  | assignment a => some (s.checkAssignment env a)
  | decl _ => none

/-- There is one typing of the formula, and the given types in it are declared. -/
structure Formula.WellTyped (s : Store) (env : Environment) (f : Formula) : Prop where
  typed : ∃ τ : Typing, τ.Types s env f
  unique : ∀ τ τ' : Typing, τ.Types s env f → τ'.Types s env f → τ.Agrees env f τ'
  declared : ∀ τ : Typing, τ.Types s env f → τ.GivensDeclared env f

/-- The typing was published: all nodes are typed, nothing else has changed in the store, and the
inferred names are the free ones and the given sets that the environment lacks. -/
structure Typing.Published (τ : Typing) (s s' : Store) (env inferred : Environment) (f : Formula) :
    Prop where
  types : ∀ slot ∈ f.typeSlots, (s'.type? slot).map TypeTree.named = some (τ.slot slot)
  kept : ∀ slot, slot ∉ f.typeSlots ∨ s.type? slot ≠ none → s'.type? slot = s.type? slot
  marks : ∀ slot, s'.isMarked slot ↔ s.isMarked slot ∨ slot ∈ f.markSlots
  inferred : ∀ x g, (inferred.get? x).map TypeTree.named = some g ↔ env.get? x = none ∧
    (x ∈ f.freeNames ∧ g = τ.free x ∨ τ.Mentions env f x ∧ g = .power (.given x))

abbrev Collected.Covers (c : Collected) (s : Store) (env : Environment) (f : Formula) : Prop :=
  Gathers s env f.occurrences (start s) c

namespace Collected.Covers

theorem mem_slots (h : c.Covers s env f) {x : Nat} :
    x ∈ c.slots ↔ s.type? x = none ∧ x ∈ f.typeSlots := by
  rw [h.adds.slots, Footprint.slots_ofNodes]
  simp [start]

theorem isSome_free (h : c.Covers s env f) {x : String} :
    (c.free.lookup x).isSome ↔ env.get? x = none ∧ x ∈ f.freeNames := by
  rw [h.adds.names, Footprint.names_ofNodes]
  simp [start]

theorem mem_marks (h : c.Covers s env f) {x : Nat} :
    x ∈ c.marks ↔ s.isMarked x = false ∧ x ∈ f.markSlots := by
  rw [h.adds.marks, Footprint.marks_ofNodes]
  simp [start]

theorem types_of_admits (h : c.Covers s env f) (hτ : c.Admits s τ) : τ.Types s env f :=
  ⟨hτ.choose_spec.resolved, h.typed τ hτ⟩

theorem occurs_iff (h : c.Covers s env f) (hτ : τ.Types s env f) {x : String} :
    c.Occurs τ x ↔ τ.Mentions env f x := by
  have hgivens : x ∈ c.givens ↔ (Footprint.ofNodes s env f.occurrences).givens x := by
    rw [h.adds.givens]
    simp [start]
  constructor
  · rintro (hx | ⟨slot, hslot, hx⟩ | ⟨y, hy, hx⟩)
    · obtain ⟨o, ho, hx⟩ := hgivens.1 hx
      exact .inl (Footprint.givens_ofNode hτ ho hx)
    · exact .inl ⟨slot, (h.mem_slots.1 hslot).2, hx⟩
    · obtain ⟨henv, hmem⟩ := h.isSome_free.1 hy
      exact .inr ⟨y, hmem, henv, hx⟩
  · rintro (⟨slot, hslot, hx⟩ | ⟨y, hy, henv, hx⟩)
    · cases ht : s.type? slot with
      | none => exact .inr (.inl ⟨slot, h.mem_slots.2 ⟨ht, hslot⟩, hx⟩)
      | some t =>
        obtain ⟨o, ho, hn⟩ := List.mem_filterMap.1 hslot
        rw [hτ.resolved slot t ht, TypeTree.named, TypeTree.givens_mapData] at hx
        exact .inl (hgivens.2 ⟨o, ho, Footprint.givens_of_type? hn ht hx⟩)
    · exact .inr (.inr ⟨y, h.isSome_free.2 ⟨henv, hy⟩, hx⟩)

theorem declared_iff (h : c.Covers s env f) (hτ : τ.Types s env f) :
    (∀ x, c.Occurs τ x → c.Declared env τ x) ↔ τ.GivensDeclared env f := by
  unfold Declared Typing.GivensDeclared
  simp only [h.occurs_iff hτ, h.isSome_free, and_imp]

theorem agrees_of_settled (h : c.Covers s env f) (hc : c.Settled s) (hτ : c.Admits s τ)
    (hτ' : c.Admits s τ') : τ.Agrees env f τ' := by
  obtain ⟨hslots, hfree⟩ := hc τ τ' hτ hτ'
  refine ⟨fun slot hslot => ?_, fun x hx henv => hfree x (h.isSome_free.2 ⟨henv, hx⟩)⟩
  cases ht : s.type? slot with
  | none => exact hslots slot (h.mem_slots.2 ⟨ht, hslot⟩)
  | some t =>
    rw [(h.types_of_admits hτ).resolved slot t ht, (h.types_of_admits hτ').resolved slot t ht]

theorem settled_of_agrees (h : c.Covers s env f)
    (hall : ∀ τ τ' : Typing, τ.Types s env f → τ'.Types s env f → τ.Agrees env f τ') :
    c.Settled s := by
  intro τ τ' hτ hτ'
  obtain ⟨hslots, hfree⟩ := hall τ τ' (h.types_of_admits hτ) (h.types_of_admits hτ')
  refine ⟨fun slot hslot => hslots slot (h.mem_slots.1 hslot).2, fun x hx => ?_⟩
  obtain ⟨henv, hmem⟩ := h.isSome_free.1 hx
  exact hfree x hmem henv

end Collected.Covers

namespace Formula.Fits

theorem lt_types (h : f.Fits s) {slot : Nat} (hslot : slot ∈ f.typeSlots) :
    slot < s.types.size := by
  obtain ⟨o, ho, hn⟩ := List.mem_filterMap.1 hslot
  have hfit := h o ho
  obtain ⟨scope, n⟩ := o
  cases n with
  | expr e =>
    cases hn
    exact hfit.1
  | decl d =>
    cases hn
    exact hfit
  | pred p => cases hn
  | assignment a => cases hn

theorem lt_marks (h : f.Fits s) {slot : Nat} (hslot : slot ∈ f.markSlots) :
    slot < s.marks.size := by
  obtain ⟨o, ho, hn⟩ := List.mem_filterMap.1 hslot
  have hfit := h o ho
  obtain ⟨scope, n⟩ := o
  cases n with
  | expr e => cases hn
  | decl d => cases hn
  | pred p =>
    cases hn
    exact hfit.1
  | assignment a =>
    cases hn
    exact hfit.1

end Formula.Fits

/-- A check publishes the typing that it has found. -/
theorem Collected.Covers.published (h : c.Covers s env f) (hfits : f.Fits s) (hτ : c.Admits s τ)
    {r : CheckResult} (hr : c.Finished env τ r) :
    ∃ s', r.publish s = .ok s' ∧ τ.Published s s' env r.inferred f := by
  -- the slots that get a type are the empty ones of the formula, each of them once
  have hkeys : ∀ {x}, x ∈ r.types.map Prod.fst ↔ s.type? x = none ∧ x ∈ f.typeSlots := by
    intro x
    rw [hr.slots, List.mem_reverse, h.mem_slots]
  have hroom : ∀ e ∈ r.types, e.1 < s.types.size := fun e he =>
    hfits.lt_types (hkeys.1 (List.mem_map_of_mem he)).2
  have hdistinct : (r.types.map Prod.fst).Nodup := by
    rw [hr.slots]
    exact List.nodup_reverse.2 h.adds.sound.distinct
  have htype : ∀ x, (r.marks.foldl Store.mark (s.fill r.types)).type? x =
      (r.types.lookup x).or (s.type? x) := fun x => by
    rw [Store.type?_foldl_mark, Store.type?_fill hroom hdistinct]
  refine ⟨_, CheckResult.publish_eq hroom hdistinct fun e he =>
    (hkeys.1 (List.mem_map_of_mem he)).1, fun slot hslot => ?_, fun slot hslot => ?_,
    fun slot => ?_, fun x g => ?_⟩
  · rw [htype]
    cases hstored : s.type? slot with
    | some t =>
      have hnone : r.types.lookup slot = none :=
        lookup_eq_none_iff_not_mem.2 fun hmem => by simp [(hkeys.1 hmem).1] at hstored
      rw [hnone, Option.none_or, (h.types_of_admits hτ).resolved slot t hstored]
      rfl
    | none =>
      obtain ⟨t, ht⟩ := Option.isSome_iff_exists.1 (isSome_lookup_iff.2 (hkeys.2 ⟨hstored, hslot⟩))
      rw [ht, Option.some_or, Option.map_some,
        hr.types (slot, t) ((lookup_eq_some_iff_mem hdistinct).1 ht)]
  · rw [htype, lookup_eq_none_iff_not_mem.2, Option.none_or]
    intro hmem
    obtain ⟨hempty, hin⟩ := hkeys.1 hmem
    exact hslot.elim (fun hout => hout hin) fun hfull => hfull hempty
  · rw [Store.isMarked_foldl_mark, Store.isMarked_fill, Bool.or_eq_true, decide_eq_true_eq,
      hr.marks, h.mem_marks]
    · cases s.isMarked slot <;> simp
    · intro m hm
      rw [Store.marks_fill]
      rw [hr.marks] at hm
      exact hfits.lt_marks (h.mem_marks.1 hm).2
  · rw [hr.inferred, h.isSome_free, h.occurs_iff (h.types_of_admits hτ)]
    refine and_congr_right fun henv => or_congr_left ?_
    rw [and_iff_right henv]

section
variable {α : Type} {collect : CheckContext → Check α} {R : α → Collected → Prop}

theorem Check.answer_ok {a : α} (h : (collect ⟨env, s, []⟩).run (start s) = (.ok a, c)) :
    Check.answer env s collect = c.finish env := by
  unfold answer
  rw [h]

theorem Check.answer_error {e : Fault CheckError}
    (h : (collect ⟨env, s, []⟩).run (start s) = (.error e, c)) :
    Check.answer env s collect = .error e := by
  unfold answer
  rw [h]

/-- Either the formula is well typed and its typing is the answer, or the answer is an error. -/
theorem Check.answer_spec (hfits : f.Fits s)
    (h : Checks s env f.occurrences (start s) (collect ⟨env, s, []⟩) R) :
    (f.WellTyped s env ∧ ∃ r s', Check.answer env s collect = .ok r ∧ r.publish s = .ok s' ∧
        ∀ τ : Typing, τ.Types s env f → τ.Published s s' env r.inferred f) ∨
      ¬ f.WellTyped s env ∧ ∃ e, Check.answer env s collect = .error (.error e) := by
  -- a typing carries the run through, so that a run that fails refutes every typing
  have hcomplete : ∀ τ : Typing, τ.Types s env f → Succeeds (collect ⟨env, s, []⟩) (start s)
      fun _ c => c.Admits s τ := fun τ hτ =>
    h.complete τ (admits_start hτ.resolved) hτ.node
  rcases hrun : (collect ⟨env, s, []⟩).run (start s) with ⟨r, c⟩
  cases r with
  | error e =>
    obtain ⟨reason, rfl⟩ := h.fault e (by rw [hrun])
    refine .inr ⟨fun hw => ?_, reason, Check.answer_error hrun⟩
    obtain ⟨τ, hτ⟩ := hw.typed
    obtain ⟨a, c', hok, -⟩ := hcomplete τ hτ
    rw [hrun] at hok
    cases hok
  | ok a =>
    obtain ⟨hg : c.Covers s env f, -⟩ := h.sound a c hrun
    have hc := hg.adds.sound
    have hadmits : ∀ τ : Typing, τ.Types s env f → c.Admits s τ := fun τ hτ => by
      obtain ⟨a', c', hok, hτ'⟩ := hcomplete τ hτ
      rw [hrun] at hok
      cases hok
      exact hτ'
    rw [Check.answer_ok hrun]
    obtain ⟨r, hr, hfinished⟩ | ⟨e, he, hnot⟩ := finish_spec hc
    · -- the end of the check found nothing open, so any type will do for the free variables of the solver
      have hτ₀ : c.Admits s (c.reading s _) :=
        ⟨_, models_reading hc (hc.wellFormed.solvedBy_under_resolution fun _ => .boolean)⟩
      obtain ⟨s', hs', -⟩ := hg.published hfits hτ₀ (hfinished _ hτ₀)
      refine .inl ⟨⟨⟨_, hg.types_of_admits hτ₀⟩, fun τ τ' hτ hτ' => ?_, fun τ hτ => ?_⟩, r, s', hr, hs',
        fun τ hτ => ?_⟩
      · exact hg.agrees_of_settled (Finished.settled hc hfinished) (hadmits τ hτ) (hadmits τ' hτ')
      · exact (hg.declared_iff hτ).1 (hfinished τ (hadmits τ hτ)).declared
      · obtain ⟨s'', hs'', hpub⟩ := hg.published hfits (hadmits τ hτ) (hfinished τ (hadmits τ hτ))
        rw [hs'] at hs''
        cases hs''
        exact hpub
    · refine .inr ⟨fun hw => hnot ⟨hg.settled_of_agrees hw.unique, fun τ hτ => ?_⟩, e, he⟩
      have hτ' := hg.types_of_admits hτ
      exact (hg.declared_iff hτ').2 (hw.declared τ hτ')

theorem Store.check_spec (hfits : f.Fits s)
    (h : Checks s env f.occurrences (start s) (collect ⟨env, s, []⟩) R) :
    (f.WellTyped s env ∧ ∃ inferred s', s.check env collect = .ok (inferred, s') ∧
        ∀ τ : Typing, τ.Types s env f → τ.Published s s' env inferred f) ∨
      ¬ f.WellTyped s env ∧ ∃ e, s.check env collect = .error (.error e) := by
  unfold Store.check
  obtain ⟨hw, r, s', hr, hs', hpub⟩ | ⟨hw, e, he⟩ := Check.answer_spec hfits h
  · refine .inl ⟨hw, r.inferred, s', ?_, hpub⟩
    simp only [hr, hs', Bind.bind, Except.bind]
    rfl
  · exact .inr ⟨hw, e, by rw [he]; rfl⟩

end

/-- Every check of a formula goes over its nodes. -/
theorem Formula.check_spec {r : Except (Fault CheckError) (Environment × Store)}
    (hfits : f.Fits s) (hr : f.check? s env = some r) :
    (f.WellTyped s env ∧ ∃ inferred s', r = .ok (inferred, s') ∧
        ∀ τ : Typing, τ.Types s env f → τ.Published s s' env inferred f) ∨
      ¬ f.WellTyped s env ∧ ∃ e, r = .error (.error e) := by
  cases f with
  | expr e =>
    cases hr
    exact Store.check_spec hfits (e.walked ⟨env, s, []⟩ .root [] _ sound_start .nil hfits)
  | pred p =>
    cases hr
    exact Store.check_spec hfits (p.walked ⟨env, s, []⟩ .root [] _ sound_start .nil hfits)
  | assignment a =>
    cases hr
    exact Store.check_spec hfits (a.checks_check ⟨env, s, []⟩ sound_start .nil hfits)
  | decl d => cases hr

/-- A check succeeds if and only if the formula is well typed: there is one typing of it, in which the
given types are declared. It publishes this typing, and it reports an error otherwise. -/
theorem Formula.check_principal {r : Except (Fault CheckError) (Environment × Store)}
    (hfits : f.Fits s) (hr : f.check? s env = some r) :
    ((∃ x, r = .ok x) ↔ f.WellTyped s env) ∧
      (∀ inferred s', r = .ok (inferred, s') → ∀ τ : Typing, τ.Types s env f →
        τ.Published s s' env inferred f) ∧
      ∀ e, r = .error e → e.Reported := by
  obtain ⟨hw, inferred, s', rfl, hpub⟩ | ⟨hw, e, rfl⟩ := check_spec hfits hr
  · refine ⟨⟨fun _ => hw, fun _ => ⟨_, rfl⟩⟩, fun _ _ h => ?_, fun e he => by cases he⟩
    cases h
    exact hpub
  · refine ⟨⟨fun ⟨x, hx⟩ => (by cases hx), fun h => absurd h hw⟩, fun _ _ h => (by cases h), ?_⟩
    intro e' he'
    cases he'
    exact ⟨e, rfl⟩

theorem Formula.sizes_check? {inferred : Environment}
    (hr : f.check? s env = some (.ok (inferred, s'))) : s.SameSize s' := by
  cases f with
  | expr e => exact Store.sizes_check (Option.some.inj hr)
  | pred p => exact Store.sizes_check (Option.some.inj hr)
  | assignment a => exact Store.sizes_check (Option.some.inj hr)
  | decl d => cases hr

def bareFactory : Factory := ⟨⟨.v2, [], [], ⟨[], [], [], []⟩⟩, 0⟩

def truthEquation : Pred :=
  .comparison ⟨bareFactory, 0⟩ .eq (.free ⟨bareFactory, 0⟩ "x" none)
    (.atom ⟨bareFactory, 1⟩ .truth none)

def truthStore : Store := ⟨#[none, some .boolean], #[false], 1⟩

theorem check_truthEquation : ∃ inferred s',
    (Formula.pred truthEquation).check? truthStore .empty = some (.ok (inferred, s')) ∧
      (Formula.pred truthEquation).WellTyped truthStore .empty ∧
      ∀ τ : Typing, τ.Types truthStore .empty (.pred truthEquation) →
        τ.Published truthStore s' .empty inferred (.pred truthEquation) := by
  have hfits : (Formula.pred truthEquation).Fits truthStore := by
    simp [Formula.Fits, Formula.occurrences, truthEquation, Pred.occurrences, Expr.occurrences,
      Formula.NodeFits, truthStore, Expr.node, Pred.node, Expr.Fitting, Pred.Fitting]
  obtain ⟨hiff, hpublished, -⟩ := Formula.check_principal hfits rfl
  exact ⟨_, _, rfl, hiff.1 ⟨_, rfl⟩, hpublished _ _ rfl⟩

end SetLang
