import SetLang.Proofs.Formula
import SetLang.Proofs.Typing.Nodes
import SetLang.Proofs.Unifier.MostGeneral
import SetLang.Typing.Synthesis

/-! Types at construction. A new expression whose parts are typed gets a type exactly if its rule
leaves one type and no other; a new predicate or assignment is typed exactly if its rule holds. -/

namespace SetLang

open Solve Unifier

/-- The types in a store. What has no type is read as a truth value. -/
def Store.typing (s : Store) : Typing where
  slot x := ((s.type? x).getD .boolean).named
  free _ := .boolean

inductive Solve.Answers (C : GroundTy → Prop) : Except Misuse (Option Ty) → Prop where
  | one (t : Ty) : (∀ g, C g ↔ g = t.named) → Answers C (.ok (some t))
  | none : (¬ ∃ g, ∀ g', C g' ↔ g' = g) → Answers C (.ok none)

namespace Solve

theorem answer?_solve {x : Solve TyTerm} {C : GroundTy → Prop}
    (h : Poses x some Unifier.empty fun _ g => C g) : Answers C (answer? (x >>= solve)) := by
  have hsolved : Unifier.empty.SolvedBy fun _ => (.boolean : GroundTy) := by
    intro v t hv
    simp [value?, var?, Unifier.empty] at hv
  unfold answer?
  rw [run_bind]
  rcases hrun : x.run Unifier.empty with ⟨r, u⟩
  cases r with
  | error e =>
    obtain ⟨reason, rfl⟩ := h.fault e (by rw [hrun])
    refine .none ?_
    rintro ⟨g, hg⟩
    obtain ⟨t, u', hok, -⟩ := h.complete _ g hsolved ((hg g).2 rfl)
    rw [hrun] at hok
    cases hok
  | ok t =>
    obtain ⟨w, -, halloc, hC⟩ := h.sound t u hrun
    have hgives : ∀ g, C g → ∃ θ : Solution, u.SolvedBy θ ∧ g = TyTerm.under θ t := by
      intro g hg
      obtain ⟨t', u', hok, θ, -, hθ, hg⟩ := h.complete _ g hsolved hg
      rw [hrun] at hok
      cases hok
      exact ⟨θ, hθ, hg t rfl⟩
    have hdenotes : ∀ θ : Solution, u.SolvedBy θ → C (TyTerm.under θ t) := fun θ hθ =>
      hC θ _ hθ fun t' ht => by cases ht; rfl
    dsimp only
    obtain ⟨ty, hty, hknown⟩ | ⟨e, he, θ, θ', hθ, hθ', hne⟩ :=
      solve_known_or_open w (halloc t rfl)
    · rw [hty]
      refine .one ty fun g => ⟨fun hg => ?_, fun hg => ?_⟩
      · obtain ⟨θ, hθ, rfl⟩ := hgives g hg
        exact hknown θ hθ
      · have hθ := w.solvedBy_under_resolution fun _ => (.boolean : GroundTy)
        rw [hg, ← hknown _ hθ]
        exact hdenotes _ hθ
    · rw [he]
      refine .none ?_
      rintro ⟨g, hg⟩
      refine hne ?_
      rw [(hg _).1 (hdenotes θ hθ), (hg _).1 (hdenotes θ' hθ')]

/-- A result that is solved against a type, if there is one. -/
theorem Poses.restrict {x : Solve TyTerm} {u : Unifier} {C : Solution → GroundTy → Prop}
    (h : Poses x some u C) (explicit : Option Ty) : Poses (do
      let result ← x
      if let some t := explicit then unify result (Ty.toTerm t)
      return result) some u fun θ g => C θ g ∧ ∀ t, explicit = some t → g = t.named := by
  cases explicit with
  | none => simpa using h.congr fun θ g => by simp
  | some t =>
    refine ⟨?_, fun θ g hθ ⟨hC, hg⟩ => ?_, h.fault.bind fun r u' hrun => ?_⟩
    · refine h.sound.bind fun r u' ⟨w, hext, halloc, hC⟩ => ?_
      refine (poses_unify w (halloc r rfl) (allocated_toTerm u' t)).sound.bind ?_
      rintro ⟨⟩ u'' ⟨w', hext', -, hunify⟩
      refine Yields.pure ⟨w', hext.trans hext', fun r' hr => ?_, fun θ g hθ hg => ?_⟩
      · cases hr
        exact (halloc r rfl).mono hext'.size
      · refine ⟨hC θ g (hθ.of_extends hext') hg, fun t' ht => ?_⟩
        cases ht
        rw [hg r rfl, hunify θ .boolean hθ fun _ h => (by cases h), under_toTerm]
    · refine Succeeds.bind ((h.complete θ g hθ hC).and_yields h.sound) ?_
      rintro r u' ⟨⟨θ', hagree, hθ', hr⟩, w, hext, halloc, -⟩
      have heq : TyTerm.under θ' r = TyTerm.under θ' (Ty.toTerm t) := by
        rw [← hr r rfl, hg t rfl, under_toTerm]
      refine Succeeds.bind ((poses_unify w (halloc r rfl) (allocated_toTerm u' t)).complete
        θ' .boolean hθ' heq) ?_
      rintro ⟨⟩ u'' ⟨θ'', hagree', hθ'', -⟩
      refine Succeeds.pure ⟨θ'', hagree.trans hagree' hext.size, hθ'', fun r' hr' => ?_⟩
      cases hr'
      rw [under_eq_of_agree (halloc r rfl) hagree', hr r rfl]
    · obtain ⟨w, -, halloc, -⟩ := h.sound r u' hrun
      exact (poses_unify w (halloc r rfl) (allocated_toTerm u' t)).fault.bind fun _ _ _ =>
        Faults.pure

/-- A run without a term has an answer exactly if what it asks for holds. -/
theorem answer?_isSome {x : Solve Unit} {C : Prop}
    (h : Poses x noTerm Unifier.empty fun _ _ => C) :
    ∃ a, x.answer? = .ok a ∧ (a.isSome ↔ C) := by
  have hsolved : Unifier.empty.SolvedBy fun _ => (.boolean : GroundTy) := by
    intro v t hv
    simp [value?, var?, Unifier.empty] at hv
  unfold answer?
  rcases hrun : x.run Unifier.empty with ⟨r, u⟩
  cases r with
  | error e =>
    obtain ⟨reason, rfl⟩ := h.fault e (by rw [hrun])
    refine ⟨none, rfl, iff_of_false (by simp) fun hC => ?_⟩
    obtain ⟨t, u', hok, -⟩ := h.complete _ .boolean hsolved hC
    rw [hrun] at hok
    cases hok
  | ok a =>
    obtain ⟨w, -, -, hC⟩ := h.sound a u hrun
    refine ⟨some a, rfl, iff_of_true rfl ?_⟩
    exact hC _ .boolean (w.solvedBy_under_resolution fun _ => .boolean) fun t ht => by cases ht

end Solve

namespace Store

variable {s : Store}

def term (s : Store) (slot : Nat) : TyTerm := Ty.toTerm ((s.type? slot).getD .boolean)

theorem under_term (θ : Solution) (slot : Nat) :
    TyTerm.under θ (s.term slot) = s.typing.slot slot := under_toTerm θ _

theorem map_under_term (θ : Solution) (slots : List Nat) :
    (slots.map s.term).map (TyTerm.under θ) = slots.map s.typing.slot := by
  simp [under_term]

theorem allocated_term {u : Unifier} {slots : List Nat} :
    ∀ t ∈ slots.map s.term, u.Allocated t := by
  intro t ht
  obtain ⟨x, -, rfl⟩ := List.mem_map.1 ht
  exact allocated_toTerm u _

end Store

def Formula.PartsTyped (s : Store) (f : Formula) : Prop := ∀ g ∈ f.components, g.isTyped s

structure Gives (x : Option (List TyTerm)) (C : Prop) (terms : List TyTerm) : Prop where
  some : C → x = some terms
  none : ¬ C → x = none

namespace Gives

variable {s : Store} {x : Option (List TyTerm)} {C D : Prop} {ts : List TyTerm}

theorem congr (h : Gives x C ts) (k : C ↔ D) : Gives x D ts :=
  ⟨fun hD => h.some (k.2 hD), fun hD => h.none fun hC => hD (k.1 hC)⟩

theorem nil : Gives (.some []) True [] := ⟨fun _ => rfl, fun h => absurd trivial h⟩

theorem mapM {α : Type} {f : α → Option Ty} (as : List α) :
    Gives (as.mapM fun a => (f a).map Ty.toTerm) (∀ a ∈ as, (f a).isSome)
      (as.map fun a => Ty.toTerm ((f a).getD .boolean)) := by
  induction as with
  | nil => exact ⟨fun _ => rfl, fun h => absurd (by simp) h⟩
  | cons a as ih =>
    rw [List.mapM_cons]
    refine ⟨fun h => ?_, fun h => ?_⟩
    · obtain ⟨t, ht⟩ := Option.isSome_iff_exists.1 (h a (by simp))
      simp [ht, ih.some fun b hb => h b (by simp [hb])]
    · cases ha : f a with
      | none => rfl
      | some t =>
        have hrest : ¬ ∀ b ∈ as, (f b).isSome := fun hall => h (by simpa [ha] using hall)
        simp [ih.none hrest]

theorem terms (es : List Expr) :
    Gives (s.terms? es) (∀ e ∈ es, e.isTyped s) ((es.map (·.node.slot)).map s.term) := by
  rw [List.map_map]
  exact mapM es

theorem declTerms (ds : List Declaration) :
    Gives (s.declTerms? ds) (∀ d ∈ ds, (d.type? s).isSome) ((ds.map (·.slot)).map s.term) := by
  rw [List.map_map]
  exact mapM ds

theorem given (ps : List Pred) (h : Gives x C ts) :
    Gives (s.given? ps x) ((∀ p ∈ ps, p.isTyped s) ∧ C) ts := by
  unfold Store.given?
  by_cases hp : ∀ p ∈ ps, p.isTyped s
  · rw [if_pos (List.all_eq_true.2 hp)]
    exact h.congr (and_iff_right hp).symm
  · rw [if_neg fun hall => hp (List.all_eq_true.1 hall)]
    exact ⟨fun hC => absurd hC.1 hp, fun _ => rfl⟩

theorem append {y : Option (List TyTerm)} {us : List TyTerm} (h : Gives x C ts)
    (k : Gives y D us) : Gives ((· ++ ·) <$> x <*> y) (C ∧ D) (ts ++ us) := by
  refine ⟨fun ⟨hC, hD⟩ => by rw [h.some hC, k.some hD]; rfl, fun hCD => ?_⟩
  by_cases hC : C
  · rw [h.some hC, k.none fun hD => hCD ⟨hC, hD⟩]
    rfl
  · rw [h.none hC]
    rfl

theorem forget (h : Gives x C ts) : Gives (x.map fun _ => []) C [] :=
  ⟨fun hC => by rw [h.some hC]; rfl, fun hC => by rw [h.none hC]; rfl⟩

end Gives

namespace Expr

variable {s : Store} {e : Expr}

/-- What the rule of a node and the type given to it leave, where its parts have the types in the
store. -/
def Admits (s : Store) (e : Expr) (g : GroundTy) : Prop :=
  e.scheme.Holds (e.operands.map s.typing.ofExpr) (some g) ∧ ∀ t, e.explicit? = some t → g = t.named

theorem partsTyped_iff : (Formula.expr e).PartsTyped s ↔ ∀ g ∈ e.children, g.isTyped s := Iff.rfl

theorem gives_partTerms (s : Store) (e : Expr) :
    ∃ declTerms, declTerms.length = e.ruleDecls.length ∧
      Gives (e.partTerms? s) ((Formula.expr e).PartsTyped s)
        (declTerms ++ (e.operands.map (·.node.slot)).map s.term) := by
  simp only [partsTyped_iff]
  cases e with
  | binary n op l r =>
    exact ⟨[], rfl, (Gives.terms [l, r]).congr (by simp [children, Formula.isTyped])⟩
  | unary n op a =>
    exact ⟨[], rfl, (Gives.terms [a]).congr (by simp [children, Formula.isTyped])⟩
  | assoc n op es | set n es t =>
    exact ⟨[], rfl, (Gives.terms es).congr (by simp [children, Formula.isTyped])⟩
  | atom n a t | bound n i t | free n x t =>
    exact ⟨[], rfl, Gives.nil.congr (by simp [children])⟩
  | bool n p =>
    exact ⟨[], rfl, (Gives.nil.given [p]).congr (by simp [children, Formula.isTyped])⟩
  | quantified n op ds p e =>
    refine ⟨(ds.map Declaration.slot).map s.term, by simp [ruleDecls],
      (((Gives.declTerms ds).append (Gives.terms [e])).given [p]).congr ?_⟩
    simp only [children, List.forall_mem_append, List.forall_mem_map, List.forall_mem_cons,
      Formula.isTyped]
    tauto
  | extended n ext es ps t =>
    refine ⟨[], rfl, ((Gives.terms es).given ps).congr ?_⟩
    simp only [children, List.forall_mem_append, List.forall_mem_map, Formula.isTyped]
    tauto

/-- A new expression gets the one type that its rule and the type given to it leave. -/
theorem synthesized_spec (he : e.Fitting) :
    Answers (fun g => (Formula.expr e).PartsTyped s ∧ e.Admits s g) (e.synthesized? s) := by
  obtain ⟨declTerms, hdecls, hparts⟩ := e.gives_partTerms s
  unfold synthesized?
  by_cases htyped : (Formula.expr e).PartsTyped s
  · rw [hparts.some htyped]
    have hlen : ((e.operands.map (·.node.slot)).map s.term).length = e.operands.length := by simp
    have hrule := e.poses_rule wellFormed_empty Store.allocated_term he hlen hdecls
    have hsolve := answer?_solve <| (hrule.restrict e.explicit?).congr (D := fun _ g => e.Admits s g)
      fun θ g => by
        rw [Store.map_under_term, List.map_map]
        rfl
    have heq : e.synthesize (declTerms ++ (e.operands.map (·.node.slot)).map s.term) = (do
        let result ← e.rule (declTerms ++ (e.operands.map (·.node.slot)).map s.term)
        if let some t := e.explicit? then unify result (Ty.toTerm t)
        return result) >>= solve := by
      unfold synthesize
      rw [bind_assoc]
      refine bind_congr fun result => ?_
      cases e.explicit? <;> simp
    simpa only [heq, htyped, true_and] using hsolve
  · rw [hparts.none htyped]
    exact .none fun ⟨g, hg⟩ => htyped ((hg g).2 rfl).1

end Expr

namespace Pred

variable {s : Store} {p : Pred}

theorem partsTyped_iff : (Formula.pred p).PartsTyped s ↔ ∀ g ∈ p.children, g.isTyped s := Iff.rfl

theorem gives_partTerms (s : Store) (p : Pred) :
    Gives (p.partTerms? s) ((Formula.pred p).PartsTyped s) ((p.operands.map (·.node.slot)).map s.term) := by
  rw [partsTyped_iff]
  cases p with
  | literal n b => exact Gives.nil.congr (by simp [children])
  | not n p => exact (Gives.nil.given [p]).congr (by simp [children, Formula.isTyped])
  | connective n op p q =>
    exact (Gives.nil.given [p, q]).congr (by simp [children, Formula.isTyped])
  | junction n op ps =>
    exact (Gives.nil.given ps).congr (by simp [children, Formula.isTyped])
  | comparison n op l r =>
    exact (Gives.terms [l, r]).congr (by simp [children, Formula.isTyped])
  | partition n es => exact (Gives.terms es).congr (by simp [children, Formula.isTyped])
  | quantified n op ds p =>
    refine ((Gives.declTerms ds).forget.given [p]).congr ?_
    simp only [children, List.forall_mem_append, List.forall_mem_map, List.forall_mem_singleton,
      Formula.isTyped]
    tauto
  | extended n ext es ps =>
    refine ((Gives.terms es).given ps).congr ?_
    simp only [children, List.forall_mem_append, List.forall_mem_map, Formula.isTyped]
    tauto

/-- A new predicate is typed exactly if its parts are and its rule holds. -/
theorem synthesized_spec (hp : p.Fitting) : ∃ b, p.synthesized s = .ok b ∧
    (b = true ↔ (Formula.pred p).PartsTyped s ∧ s.typing.Obeys (.pred p)) := by
  unfold synthesized
  by_cases htyped : (Formula.pred p).PartsTyped s
  · rw [(p.gives_partTerms s).some htyped]
    have hlen : ((p.operands.map (·.node.slot)).map s.term).length = p.operands.length := by simp
    obtain ⟨a, ha, hiff⟩ := answer?_isSome <|
      (p.poses_rule wellFormed_empty Store.allocated_term hp hlen).congr fun θ g => by
        rw [Store.map_under_term, List.map_map]
    refine ⟨a.isSome, ?_, hiff.trans (and_iff_right htyped).symm⟩
    dsimp only
    rw [ha]
    rfl
  · rw [(p.gives_partTerms s).none htyped]
    exact ⟨false, rfl, by simp [htyped]⟩

end Pred

namespace Assignment

variable {s : Store} {a : Assignment}

theorem gives_partTerms (s : Store) (a : Assigned) :
    Gives (a.partTerms? s) (∀ g ∈ a.components, g.isTyped s) (a.slots.map s.term) := by
  cases a with
  | values es =>
    exact (Gives.terms es).congr (by simp [Assigned.components, Formula.isTyped])
  | member e =>
    exact (Gives.terms [e]).congr (by simp [Assigned.components, Formula.isTyped])
  | such ds p =>
    refine ((Gives.declTerms ds).given [p]).congr ?_
    simp only [Assigned.components, List.forall_mem_append, List.forall_mem_map,
      List.forall_mem_singleton, Formula.isTyped]
    tauto

/-- A new assignment is typed exactly if its parts are and what is assigned has the types of the
targets. -/
theorem synthesized_spec (ha : a.targets.length = a.assigned.slots.length) :
    ∃ b, a.synthesized s = .ok b ∧
      (b = true ↔ (Formula.assignment a).PartsTyped s ∧ s.typing.Obeys (.assignment a)) := by
  have htargets := Gives.terms (s := s) a.targets
  have hassigned := gives_partTerms s a.assigned
  have hiff : (Formula.assignment a).PartsTyped s ↔
      (∀ g ∈ a.assigned.components, g.isTyped s) ∧ ∀ e ∈ a.targets, e.isTyped s := by
    simp [Formula.PartsTyped, Formula.components, or_imp, forall_and, Formula.isTyped]
  rw [hiff]
  unfold synthesized
  by_cases hts : ∀ e ∈ a.targets, e.isTyped s
  · by_cases has : ∀ g ∈ a.assigned.components, g.isTyped s
    · rw [htargets.some hts, hassigned.some has]
      have hlen : ((a.targets.map (·.node.slot)).map s.term).length = a.assigned.slots.length := by
        simpa using ha
      have hslots : (a.assigned.slots.map s.term).length = a.assigned.slots.length := by simp
      have hposes := a.assigned.poses_rule wellFormed_empty Store.allocated_term
        Store.allocated_term hslots hlen
      obtain ⟨r, hr, hsome⟩ := answer?_isSome <|
        hposes.congr (D := fun _ _ => s.typing.TypesAssigned a.targets a.assigned) fun θ g => by
          rw [Typing.typesAssigned_iff ha]
          refine forall_zip_iff ?_ (Store.map_under_term θ _) a.assigned.Relates
          rw [Store.map_under_term, List.map_map]
          rfl
      refine ⟨r.isSome, ?_, hsome.trans (and_iff_right ⟨has, hts⟩).symm⟩
      dsimp only
      rw [hr]
      rfl
    · rw [htargets.some hts, hassigned.none has]
      exact ⟨false, rfl, by simp [has]⟩
  · rw [htargets.none hts]
    exact ⟨false, rfl, by simp [hts]⟩

end Assignment
end SetLang
