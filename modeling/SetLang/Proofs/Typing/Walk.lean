import SetLang.Proofs.Typing.Extensions
import SetLang.Proofs.Typing.Steps

/-! The walk of a check over a formula goes over exactly its nodes. By induction over the formula, each
part is a sequence of the parts of its children and of its own rule. -/

namespace SetLang

open Solve Unifier Collected Check

variable {c c' : Collected} {ctx : CheckContext} {p : Position} {scope : List Declaration}

/-- The terms in scope denote the types of the declarations. -/
def CheckContext.Scoped (ctx : CheckContext) (c : Collected) (scope : List Declaration) : Prop :=
  c.DenotesAll ctx.store (fun d τ => τ.ofDecl d) ctx.scope scope

theorem CheckContext.Scoped.mono (h : ctx.Scoped c scope) (k : Later c c') : ctx.Scoped c' scope :=
  DenotesAll.mono h k

theorem CheckContext.Scoped.push {terms : List TyTerm} {ds : List Declaration}
    (h : ctx.Scoped c scope)
    (k : c.DenotesAll ctx.store (fun d τ => τ.ofDecl d) terms ds) :
    (ctx.push terms).Scoped c (ds.reverse ++ scope) :=
  List.rel_append (List.forall₂_reverse_iff.2 k) h

theorem checks_bound {n : Node} {i : Nat} {t : Option Ty} (hc : c.Sound ctx.store ctx.env)
    (hslot : n.slot < ctx.store.types.size) (hscope : ctx.Scoped c scope) :
    Checks ctx.store ctx.env [⟨scope, .expr (.bound n i t)⟩] c
      (boundTerm ctx p i >>= finishNode ctx p (.bound n i t)) fun term c' =>
        c'.Denotes ctx.store term (·.ofExpr (.bound n i t)) := by
  unfold boundTerm
  cases hd : scope[i]? with
  | none =>
    have hterm : ctx.scope[i]? = none := by
      rw [List.getElem?_eq_none_iff] at hd ⊢
      rw [hscope.length_eq]
      exact hd
    have hrun : ((throw (.error ⟨.unboundIdentifier i, p⟩) : Check TyTerm) >>=
        finishNode ctx p (.bound n i t)).run c = (.error (.error ⟨.unboundIdentifier i, p⟩), c) := rfl
    rw [hterm]
    refine ⟨fun a c' h => ?_, fun τ _ ho => ?_, fun e he => ?_⟩
    · rw [hrun] at h
      cases h
    · obtain ⟨d, hd', -⟩ := (ho ⟨scope, .expr (.bound n i t)⟩ (by simp)).2
      exact absurd hd' (by simp [hd])
    · rw [hrun] at he
      cases he
      exact ⟨_, rfl⟩
  | some d =>
    obtain ⟨term, hterm, hden⟩ := DenotesAll.getElem? hscope hd
    rw [hterm]
    refine checks_identifier (F := .none) hslot (reads_pure hc hden) ?_ fun τ => ?_
    · simp [Footprint.ofExpr, Footprint.ofNode, Expr.freeName?, Footprint.union, Footprint.none]
    · simp [Typing.TypesNode, Typing.Obeys, Typing.TypesIdentifier, hd, Expr.scheme, Scheme.any,
        Scheme.Holds, Expr.operands, Scheme.Matches, Typing.ofExpr, Expr.node]

theorem checks_free {n : Node} {x : String} {t : Option Ty} (hc : c.Sound ctx.store ctx.env)
    (hslot : n.slot < ctx.store.types.size) :
    Checks ctx.store ctx.env [⟨scope, .expr (.free n x t)⟩] c
      (freeTerm ctx p x >>= finishNode ctx p (.free n x t)) fun term c' =>
        c'.Denotes ctx.store term (·.ofExpr (.free n x t)) := by
  refine checks_identifier hslot (reads_freeTerm hc x) ?_ fun τ => ?_
  · ext y
    · simp [Footprint.ofFree, Footprint.ofExpr, Footprint.ofNode, Footprint.union, Footprint.none]
    · simp only [Footprint.ofFree, Footprint.ofExpr, Footprint.ofNode, Footprint.union,
        Footprint.none, Footprint.ofGivens, Footprint.ofSlot, Expr.freeName?, or_false, false_or,
        Option.some.injEq]
      exact ⟨fun h => ⟨h.2 ▸ h.1, h.2.symm⟩, fun h => ⟨h.2 ▸ h.1, h.2.symm⟩⟩
    · simp [Footprint.ofFree, Footprint.ofExpr, Footprint.ofNode, Footprint.union, Footprint.none]
    · simp [Footprint.ofFree, Footprint.ofExpr, Footprint.ofNode, Footprint.union, Footprint.none]
  · simp [Typing.TypesNode, Typing.Obeys, Typing.TypesIdentifier, Expr.scheme, Scheme.any,
      Scheme.Holds, Expr.operands, Scheme.Matches, Typing.ofExpr, Expr.node]

def Expr.Walked (e : Expr) : Prop :=
  ∀ (ctx : CheckContext) (p : Position) (scope : List Declaration) (c : Collected),
    c.Sound ctx.store ctx.env → ctx.Scoped c scope →
    (∀ o ∈ e.occurrences scope, o.node.NodeFits ctx.store) →
    Checks ctx.store ctx.env (e.occurrences scope) c (e.check ctx p) fun t c' =>
      c'.Denotes ctx.store t (·.ofExpr e)

def Pred.Walked (q : Pred) : Prop :=
  ∀ (ctx : CheckContext) (p : Position) (scope : List Declaration) (c : Collected),
    c.Sound ctx.store ctx.env → ctx.Scoped c scope →
    (∀ o ∈ q.occurrences scope, o.node.NodeFits ctx.store) →
    Checks ctx.store ctx.env (q.occurrences scope) c (q.check ctx p) fun _ _ => True

theorem checks_exprs {es : List Expr} (ih : ∀ e ∈ es, e.Walked) (i : Nat)
    (hc : c.Sound ctx.store ctx.env) (hscope : ctx.Scoped c scope)
    (hfits : ∀ o ∈ Expr.allOccurrences scope es, o.node.NodeFits ctx.store) :
    Checks ctx.store ctx.env (Expr.allOccurrences scope es) c (Expr.checkAll ctx p i es)
      fun ts c' => c'.DenotesAll ctx.store (fun e τ => τ.ofExpr e) ts es := by
  induction es generalizing c i with
  | nil => exact Checks.pure hc .nil
  | cons e es ihs =>
    simp only [Expr.allOccurrences, List.forall_mem_append] at hfits
    refine Checks.bind (ih e (by simp) ctx _ scope c hc hscope hfits.1) fun t c' hg ht => ?_
    refine Checks.map ((ihs (fun e he => ih e (by simp [he])) (i + 1) hg.adds.sound
      (hscope.mono hg.adds.later) hfits.2).mono ?_)
    exact fun ts c'' hg' hts => .cons (ht.mono hg'.adds.later) hts

theorem checks_preds {qs : List Pred} (ih : ∀ q ∈ qs, q.Walked) (i : Nat)
    (hc : c.Sound ctx.store ctx.env) (hscope : ctx.Scoped c scope)
    (hfits : ∀ o ∈ Pred.allOccurrences scope qs, o.node.NodeFits ctx.store) :
    Checks ctx.store ctx.env (Pred.allOccurrences scope qs) c (Pred.checkAll ctx p i qs)
      fun _ _ => True := by
  induction qs generalizing c i with
  | nil => exact Checks.pure hc trivial
  | cons q qs ihs =>
    simp only [Pred.allOccurrences, List.forall_mem_append] at hfits
    refine Checks.bind (ih q (by simp) ctx _ scope c hc hscope hfits.1) fun _ c' hg _ => ?_
    exact ihs (fun q hq => ih q (by simp [hq])) (i + 1) hg.adds.sound (hscope.mono hg.adds.later)
      hfits.2

/-- Two children and then their node. -/
theorem mem_children_iff {o o' : Occurrence} {os os' : List Occurrence} :
    o' ∈ os ++ o :: os' ↔ o' ∈ o :: (os ++ os') := by
  simp only [List.mem_append, List.mem_cons]
  tauto

section
variable {n : Node} {l r a e : Expr} {q q' : Pred} {es : List Expr} {qs : List Pred}

theorem walked_binary (op : BinaryOp) (hl : l.Walked) (hr : r.Walked) :
    (Expr.binary n op l r).Walked := by
  intro ctx p scope c hc hscope hfits
  simp only [Expr.occurrences, List.forall_mem_cons, List.forall_mem_append] at hfits ⊢
  obtain ⟨hnode, hfl, hfr⟩ := hfits
  rw [Expr.check]
  refine (Checks.bind (hl ctx _ scope c hc hscope hfl) fun a c₁ hg₁ ha =>
    Checks.last (hr ctx _ scope c₁ hg₁.adds.sound (hscope.mono hg₁.adds.later) hfr)
      fun b c₂ hg₂ hb => ?_).congr fun o => mem_children_iff
  exact checks_applyRule [] hg₂.adds.sound hnode
    (.cons (ha.mono hg₂.adds.later) (.cons hb .nil)) List.length_nil (fun _ => trivial) rfl

theorem walked_unary (op : UnaryOp) (ha : a.Walked) : (Expr.unary n op a).Walked := by
  intro ctx p scope c hc hscope hfits
  simp only [Expr.occurrences, List.forall_mem_cons] at hfits ⊢
  obtain ⟨hnode, hfa⟩ := hfits
  rw [Expr.check]
  refine Checks.last (ha ctx _ scope c hc hscope hfa) fun a' c₁ hg₁ ha' => ?_
  exact checks_applyRule [] hg₁.adds.sound hnode (.cons ha' .nil) List.length_nil
    (fun _ => trivial) rfl

theorem walked_assoc (op : AssocOp) (hes : ∀ e ∈ es, e.Walked) : (Expr.assoc n op es).Walked := by
  intro ctx p scope c hc hscope hfits
  simp only [Expr.occurrences, List.forall_mem_cons] at hfits ⊢
  obtain ⟨hnode, hfes⟩ := hfits
  rw [Expr.check]
  refine Checks.last (checks_exprs hes 0 hc hscope hfes) fun ts c₁ hg₁ hts => ?_
  exact checks_applyRule [] hg₁.adds.sound hnode hts List.length_nil
    (fun _ => trivial) rfl

theorem walked_atom (op : Atom) (t : Option Ty) : (Expr.atom n op t).Walked := by
  intro ctx p scope c hc hscope hfits
  simp only [Expr.occurrences, List.forall_mem_singleton] at hfits ⊢
  rw [Expr.check]
  exact checks_applyRule [] hc hfits .nil List.length_nil (fun _ => trivial) rfl

theorem walked_set (t : Option Ty) (hes : ∀ e ∈ es, e.Walked) : (Expr.set n es t).Walked := by
  intro ctx p scope c hc hscope hfits
  simp only [Expr.occurrences, List.forall_mem_cons] at hfits ⊢
  obtain ⟨hnode, hfes⟩ := hfits
  rw [Expr.check]
  refine Checks.last (checks_exprs hes 0 hc hscope hfes) fun ts c₁ hg₁ hts => ?_
  exact checks_applyRule [] hg₁.adds.sound hnode hts List.length_nil
    (fun _ => trivial) rfl

theorem walked_bool (hq : q.Walked) : (Expr.bool n q).Walked := by
  intro ctx p scope c hc hscope hfits
  simp only [Expr.occurrences, List.forall_mem_cons] at hfits ⊢
  obtain ⟨hnode, hfq⟩ := hfits
  rw [Expr.check]
  refine Checks.last (hq ctx _ scope c hc hscope hfq) fun _ c₁ hg₁ _ => ?_
  exact checks_applyRule [] hg₁.adds.sound hnode .nil List.length_nil
    (fun _ => trivial) rfl

theorem walked_quantified (op : SetBinder) (ds : List Declaration) (hq : q.Walked) (he : e.Walked) :
    (Expr.quantified n op ds q e).Walked := by
  intro ctx p scope c hc hscope hfits
  simp only [Expr.occurrences, List.forall_mem_cons, List.forall_mem_append, List.cons_append,
    List.forall_mem_map] at hfits ⊢
  obtain ⟨hnode, hfds, hfq, hfe⟩ := hfits
  rw [Expr.check]
  suffices h : Checks ctx.store ctx.env (ds.map (fun d => ⟨scope, .decl d⟩) ++
      (q.occurrences (ds.reverse ++ scope) ++
        ⟨scope, .expr (.quantified n op ds q e)⟩ :: e.occurrences (ds.reverse ++ scope))) c
      (do
        let terms ← declTerms ctx p 0 ds
        let inner := ctx.push terms
        q.check inner (p.child ds.length)
        let body ← e.check inner (p.child (ds.length + 1))
        applyRule ctx p (.quantified n op ds q e) (terms ++ [body]))
      fun t c' => c'.Denotes ctx.store t (·.ofExpr (.quantified n op ds q e)) from
    h.congr fun o => by simp only [List.mem_append, List.mem_cons]; tauto
  refine Checks.bind (checks_declTerms scope ds 0 hc hfds) fun ts c₁ hg₁ hts => ?_
  have hinner := (hscope.mono hg₁.adds.later).push hts
  refine Checks.bind (hq (ctx.push ts) _ _ c₁ hg₁.adds.sound hinner hfq) fun _ c₂ hg₂ _ => ?_
  refine Checks.last (he (ctx.push ts) _ _ c₂ hg₂.adds.sound (hinner.mono hg₂.adds.later) hfe)
    fun body c₃ hg₃ hbody => ?_
  exact checks_applyRule ts hg₃.adds.sound hnode (.cons hbody .nil) hts.length_eq (fun _ => trivial) rfl

theorem walked_bound (i : Nat) (t : Option Ty) : (Expr.bound n i t).Walked := by
  intro ctx p scope c hc hscope hfits
  rw [Expr.check]
  exact checks_bound hc (hfits ⟨scope, .expr (.bound n i t)⟩ (by simp [Expr.occurrences])).1 hscope

theorem walked_free (x : String) (t : Option Ty) : (Expr.free n x t).Walked := by
  intro ctx p scope c hc hscope hfits
  rw [Expr.check]
  exact checks_free hc (hfits ⟨scope, .expr (.free n x t)⟩ (by simp [Expr.occurrences])).1

theorem walked_extended (ext : Extension) (t : Option Ty) (hes : ∀ e ∈ es, e.Walked)
    (hqs : ∀ q ∈ qs, q.Walked) : (Expr.extended n ext es qs t).Walked := by
  intro ctx p scope c hc hscope hfits
  simp only [Expr.occurrences, List.forall_mem_cons, List.forall_mem_append] at hfits ⊢
  obtain ⟨hnode, hfes, hfqs⟩ := hfits
  rw [Expr.check]
  refine (Checks.bind (checks_exprs hes 0 hc hscope hfes) fun ts c₁ hg₁ hts =>
    Checks.last (checks_preds hqs _ hg₁.adds.sound (hscope.mono hg₁.adds.later) hfqs)
      fun _ c₂ hg₂ _ => ?_).congr fun o => mem_children_iff
  exact checks_applyRule [] hg₂.adds.sound hnode
    (hts.mono hg₂.adds.later) List.length_nil (fun _ => trivial) rfl

theorem walked_literal (value : Bool) : (Pred.literal n value).Walked := by
  intro ctx p scope c hc hscope hfits
  simp only [Pred.occurrences, List.forall_mem_singleton] at hfits ⊢
  rw [Pred.check]
  exact checks_finishPred hc hfits .nil

theorem walked_not (hq : q.Walked) : (Pred.not n q).Walked := by
  intro ctx p scope c hc hscope hfits
  simp only [Pred.occurrences, List.forall_mem_cons] at hfits ⊢
  rw [Pred.check]
  exact Checks.last (hq ctx _ scope c hc hscope hfits.2) fun _ c₁ hg₁ _ =>
    checks_finishPred hg₁.adds.sound hfits.1 .nil

theorem walked_connective (op : Connective) (hq : q.Walked) (hq' : q'.Walked) :
    (Pred.connective n op q q').Walked := by
  intro ctx p scope c hc hscope hfits
  simp only [Pred.occurrences, List.forall_mem_cons, List.forall_mem_append] at hfits ⊢
  obtain ⟨hnode, hfq, hfq'⟩ := hfits
  rw [Pred.check]
  exact (Checks.bind (hq ctx _ scope c hc hscope hfq) fun _ c₁ hg₁ _ =>
    Checks.last (hq' ctx _ scope c₁ hg₁.adds.sound (hscope.mono hg₁.adds.later) hfq')
      fun _ c₂ hg₂ _ => checks_finishPred hg₂.adds.sound hnode .nil).congr fun o => mem_children_iff

theorem walked_junction (op : Junction) (hqs : ∀ q ∈ qs, q.Walked) :
    (Pred.junction n op qs).Walked := by
  intro ctx p scope c hc hscope hfits
  simp only [Pred.occurrences, List.forall_mem_cons] at hfits ⊢
  rw [Pred.check]
  exact Checks.last (checks_preds hqs 0 hc hscope hfits.2) fun _ c₁ hg₁ _ =>
    checks_finishPred hg₁.adds.sound hfits.1 .nil

theorem walked_comparison (op : Comparison) (hl : l.Walked) (hr : r.Walked) :
    (Pred.comparison n op l r).Walked := by
  intro ctx p scope c hc hscope hfits
  simp only [Pred.occurrences, List.forall_mem_cons, List.forall_mem_append] at hfits ⊢
  obtain ⟨hnode, hfl, hfr⟩ := hfits
  rw [Pred.check]
  exact (Checks.bind (hl ctx _ scope c hc hscope hfl) fun a c₁ hg₁ ha =>
    Checks.last (hr ctx _ scope c₁ hg₁.adds.sound (hscope.mono hg₁.adds.later) hfr)
      fun b c₂ hg₂ hb => checks_finishPred hg₂.adds.sound hnode
        (.cons (ha.mono hg₂.adds.later) (.cons hb .nil))).congr fun o => mem_children_iff

theorem walked_partition (hes : ∀ e ∈ es, e.Walked) : (Pred.partition n es).Walked := by
  intro ctx p scope c hc hscope hfits
  simp only [Pred.occurrences, List.forall_mem_cons] at hfits ⊢
  rw [Pred.check]
  exact Checks.last (checks_exprs hes 0 hc hscope hfits.2) fun ts c₁ hg₁ hts =>
    checks_finishPred hg₁.adds.sound hfits.1 hts

theorem walked_quantifier (op : Quantifier) (ds : List Declaration) (hq : q.Walked) :
    (Pred.quantified n op ds q).Walked := by
  intro ctx p scope c hc hscope hfits
  simp only [Pred.occurrences, List.forall_mem_cons, List.forall_mem_append, List.cons_append,
    List.forall_mem_map] at hfits ⊢
  obtain ⟨hnode, hfds, hfq⟩ := hfits
  rw [Pred.check]
  exact (Checks.bind (checks_declTerms scope ds 0 hc hfds) fun ts c₁ hg₁ hts =>
    Checks.last (hq (ctx.push ts) _ _ c₁ hg₁.adds.sound
      ((hscope.mono hg₁.adds.later).push hts) hfq) fun _ c₂ hg₂ _ =>
        checks_finishPred hg₂.adds.sound hnode .nil).congr fun o => mem_children_iff

theorem walked_extendedPred (ext : Extension) (hes : ∀ e ∈ es, e.Walked)
    (hqs : ∀ q ∈ qs, q.Walked) : (Pred.extended n ext es qs).Walked := by
  intro ctx p scope c hc hscope hfits
  simp only [Pred.occurrences, List.forall_mem_cons, List.forall_mem_append] at hfits ⊢
  obtain ⟨hnode, hfes, hfqs⟩ := hfits
  rw [Pred.check]
  exact (Checks.bind (checks_exprs hes 0 hc hscope hfes) fun ts c₁ hg₁ hts =>
    Checks.last (checks_preds hqs _ hg₁.adds.sound (hscope.mono hg₁.adds.later) hfqs)
      fun _ c₂ hg₂ _ => checks_finishPred hg₂.adds.sound hnode
        (hts.mono hg₂.adds.later)).congr fun o => mem_children_iff

end

mutual

theorem Expr.walked : ∀ e : Expr, e.Walked
  | .binary _ op l r => walked_binary op l.walked r.walked
  | .unary _ op a => walked_unary op a.walked
  | .assoc _ op es => walked_assoc op (Expr.allWalked es)
  | .atom _ op t => walked_atom op t
  | .set _ es t => walked_set t (Expr.allWalked es)
  | .bool _ q => walked_bool q.walked
  | .quantified _ op ds q e => walked_quantified op ds q.walked e.walked
  | .bound _ i t => walked_bound i t
  | .free _ x t => walked_free x t
  | .extended _ ext es qs t => walked_extended ext t (Expr.allWalked es) (Pred.allWalked qs)

theorem Expr.allWalked : ∀ es : List Expr, ∀ e ∈ es, e.Walked
  | [] => by simp
  | e :: es => List.forall_mem_cons.2 ⟨e.walked, Expr.allWalked es⟩

theorem Pred.walked : ∀ q : Pred, q.Walked
  | .literal _ value => walked_literal value
  | .not _ q => walked_not q.walked
  | .connective _ op q q' => walked_connective op q.walked q'.walked
  | .junction _ op qs => walked_junction op (Pred.allWalked qs)
  | .comparison _ op l r => walked_comparison op l.walked r.walked
  | .partition _ es => walked_partition (Expr.allWalked es)
  | .quantified _ op ds q => walked_quantifier op ds q.walked
  | .extended _ ext es qs => walked_extendedPred ext (Expr.allWalked es) (Pred.allWalked qs)

theorem Pred.allWalked : ∀ qs : List Pred, ∀ q ∈ qs, q.Walked
  | [] => by simp
  | q :: qs => List.forall_mem_cons.2 ⟨q.walked, Pred.allWalked qs⟩

end

namespace Assigned

theorem checks_check {a : Assigned} {ctx : CheckContext} (n : Nat)
    (hc : c.Sound ctx.store ctx.env) (hscope : ctx.Scoped c [])
    (hfits : ∀ o ∈ a.occurrences, o.node.NodeFits ctx.store) :
    Checks ctx.store ctx.env a.occurrences c (a.check ctx p n) fun ts c' =>
      c'.DenotesAll ctx.store (fun slot τ => τ.slot slot) ts a.slots := by
  cases a with
  | values es =>
    refine (checks_exprs (Expr.allWalked es) n hc hscope hfits).mono fun ts c' _ hts => ?_
    exact List.forall₂_map_right_iff.2 hts
  | member e =>
    refine Checks.map ((e.walked ctx _ [] c hc hscope hfits).mono fun t c' _ ht => ?_)
    exact .cons ht .nil
  | such ds q =>
    simp only [occurrences, List.forall_mem_append, List.forall_mem_map] at hfits
    refine Checks.bind (checks_declTerms [] ds n hc hfits.1) fun ts c₁ hg₁ hts => ?_
    have hinner := (hscope.mono hg₁.adds.later).push hts
    rw [List.append_nil] at hinner
    refine Checks.map ((q.walked (ctx.push ts) _ _ c₁ hg₁.adds.sound hinner hfits.2).mono
      fun _ c₂ hg₂ _ => ?_)
    exact List.forall₂_map_right_iff.2 (hts.mono hg₂.adds.later)

end Assigned

theorem Assignment.checks_check (a : Assignment) (ctx : CheckContext)
    (hc : c.Sound ctx.store ctx.env) (hscope : ctx.Scoped c [])
    (hfits : ∀ o ∈ (Formula.assignment a).occurrences, o.node.NodeFits ctx.store) :
    Checks ctx.store ctx.env (Formula.assignment a).occurrences c (a.check ctx) fun _ _ => True := by
  simp only [Formula.occurrences, List.forall_mem_cons, List.forall_mem_append] at hfits ⊢
  obtain ⟨⟨-, hlen⟩, hfa, hft⟩ := hfits
  have hlen : a.targets.length = a.assigned.slots.length := by
    revert hlen
    cases a.assigned <;> simp [Assigned.slots]
  unfold Assignment.check
  refine (Checks.bind (Assigned.checks_check _ hc hscope hfa) fun ts c₁ hg₁ hts =>
    Checks.last (checks_exprs (Expr.allWalked a.targets) 0 hg₁.adds.sound
      (hscope.mono hg₁.adds.later) hft) fun us c₂ hg₂ hus => ?_).congr fun o => mem_children_iff
  have hts := hts.mono hg₂.adds.later
  refine checks_marked hg₂.adds.sound (a.assigned.poses_rule hg₂.adds.sound.wellFormed hus.allocated
    hts.allocated hts.length_eq (hus.length_eq.trans hlen)) rfl fun τ θ hm => ?_
  exact (and_iff_left trivial).trans <| (Typing.typesAssigned_iff hlen).trans
    (forall_zip_iff (hus.map_eq hm).symm (hts.map_eq hm).symm a.assigned.Relates)

end SetLang
