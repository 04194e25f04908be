import SetLang.Proofs.Path
import SetLang.Proofs.Typing.Conflict
import SetLang.Proofs.Typing.Principal

/-! Where a check reports its errors. The walk counts the children of every node by itself, and what it
leaves pending is reported only in the end. Still each error stands at a part of the formula, and this
part is what the error speaks of. -/

namespace SetLang

open Check Collected Solve

variable {f g k : Formula} {s : Store} {env : Environment} {c : Collected} {ctx : CheckContext}
  {p : Position} {α : Type}

structure CheckError.Located (s : Store) (f : Formula) (e : CheckError) : Prop where
  stands : ∃ g, f.at? e.position.indexes = some g
  unbound : ∀ i, e.error = .unboundIdentifier i →
    (∃ n t, f.at? e.position.indexes = some (.expr (.bound n i t))) ∧
      f.declaredAlong e.position.indexes ≤ i
  unsolved : ∀ t, e.error = .unsolved t → ∃ g slot, f.at? e.position.indexes = some g ∧
    g.slot? = some slot ∧ s.type? slot = none

theorem CheckError.located_of_conflict {e : TypeError} (he : e.IsConflict)
    (hg : f.at? p.indexes = some g) : Located s f ⟨e, p⟩ := by
  refine ⟨⟨g, hg⟩, fun i hi => ?_, fun t ht => ?_⟩
  · cases hi
    exact he.elim
  · cases ht
    exact he.elim

/-- What is pending was first met where its owner stands. -/
structure Collected.Placed (s : Store) (f : Formula) (c : Collected) : Prop where
  pending : ∀ slot q, c.pending? slot = some q → s.type? slot = none ∧
    ∃ g, f.at? q.position.indexes = some g ∧ g.slot? = some slot
  free : ∀ i ∈ c.free, ∃ n t, f.at? i.2.position.indexes = some (.expr (.free n i.1 t))

theorem Collected.placed_start : (start s).Placed s f := by
  refine ⟨fun slot q hq => ?_, fun i hi => by cases hi⟩
  rw [pending?_start] at hq
  cases hq

/-- What is noted for an empty slot stands where the slot is. -/
theorem Collected.Placed.note (h : c.Placed s f) {slot : Nat} {q : Pending}
    (hempty : s.type? slot = none) (hg : f.at? q.position.indexes = some g)
    (hslot : g.slot? = some slot) : (c.note slot q).Placed s f := by
  refine ⟨fun x r hr => ?_, h.free⟩
  unfold pending? Collected.note at hr
  rw [Array.getElem?_setIfInBounds] at hr
  split_ifs at hr with hx hroom
  · cases hr
    exact ⟨hx ▸ hempty, g, hg, hx ▸ hslot⟩
  · cases hr
  · exact h.pending x r hr

theorem Collected.Placed.placeFree (h : c.Placed s f) {n : Node} {x : String} {t : Option Ty}
    {q : Pending} (hg : f.at? q.position.indexes = some (.expr (.free n x t))) :
    { c with free := placeFree x q c.free }.Placed s f := by
  refine ⟨h.pending, fun i hi => ?_⟩
  rcases List.mem_cons.1 ((placeFree_perm x q c.free).mem_iff.1 hi) with rfl | hi
  · exact ⟨n, t, hg⟩
  · exact h.free i hi

/-- The part of a check notes owners where they stand, and reports errors where they are. -/
abbrev Check.Locates (s : Store) (f : Formula) (x : Check α) (K : α → Prop) : Prop :=
  Guards (Placed s f) (fun fault => ∀ e, fault = .error e → e.Located s f) x K

/-- A position of the walk: what stands there, and how many identifiers are in scope. -/
structure CheckContext.Stands (ctx : CheckContext) (f : Formula) (p : Position) (g : Formula) :
    Prop where
  here : f.at? p.indexes = some g
  scope : ctx.scope.length = f.declaredAlong p.indexes

namespace CheckContext.Stands

theorem push (h : ctx.Stands f p g) {i : Nat} (hk : g.parts[i]? = some k) {ts : List TyTerm}
    (hts : ts.length = g.declared.length) : (ctx.push ts).Stands f (p.child i) k := by
  refine ⟨Formula.at?_child h.here hk, ?_⟩
  rw [Formula.declaredAlong_child h.here, ← h.scope, ← hts, CheckContext.push]
  simp [Nat.add_comm]

theorem child (h : ctx.Stands f p g) {i : Nat} (hk : g.parts[i]? = some k)
    (hd : g.declared = []) : ctx.Stands f (p.child i) k :=
  have hlen : ([] : List TyTerm).length = g.declared.length := by rw [hd]; rfl
  h.push hk hlen

end CheckContext.Stands

namespace Check

theorem locates_solveAt {x : Solve α} (hx : Conflicts x) (hg : f.at? p.indexes = some g) :
    Locates s f (solveAt p x) fun _ => True := by
  refine ⟨fun c hc a c' hrun => ?_, fun c hc fault hfault e he => ?_⟩
  · rw [run_solveAt] at hrun
    rcases h : x.run c.unifier with ⟨_ | _, u⟩ <;> rw [h] at hrun <;> cases hrun
    exact ⟨⟨hc.pending, hc.free⟩, trivial⟩
  · rw [run_solveAt] at hfault
    rcases h : x.run c.unifier with ⟨reason | _, u⟩ <;> rw [h] at hfault <;> cases hfault
    cases reason with
    | misuse m => cases he
    | error e' =>
      cases he
      exact CheckError.located_of_conflict
        (hx.faults c.unifier trivial (.error e') (by rw [h]) e' rfl) hg

theorem locates_collectGivens (t : Ty) : Locates s f (collectGivens t) fun _ => True :=
  Guards.modify fun _ h => ⟨h.pending, h.free⟩

theorem locates_equateKnown (term : TyTerm) (t : Ty) (hg : f.at? p.indexes = some g) :
    Locates s f (equateKnown p term t) fun _ => True :=
  (locates_collectGivens t).bind fun _ _ => locates_solveAt (.unify _ _) hg

theorem locates_equateSlot (term : TyTerm) {slot : Nat} (hg : f.at? p.indexes = some g)
    (hslot : g.slot? = some slot) :
    Locates ctx.store f (equateSlot ctx p slot term) fun _ => True := by
  unfold equateSlot
  cases hstored : ctx.store.type? slot with
  | some t => exact locates_equateKnown term t hg
  | none =>
    refine Guards.get_bind fun c _ => ?_
    cases c.pending? slot with
    | some earlier => exact locates_solveAt (.unify _ _) hg
    | none => exact Guards.modify fun c hc => hc.note hstored hg hslot

theorem locates_markLater (slot : Nat) : Locates s f (markLater ctx slot) fun _ => True := by
  unfold markLater
  split_ifs
  · exact Guards.pure trivial
  · exact Guards.modify fun _ h => ⟨h.pending, h.free⟩

theorem locates_declTerm {d : Declaration} (hd : f.at? p.indexes = some (.decl d)) :
    Locates ctx.store f (declTerm ctx p d) fun _ => True := by
  have hrest : ∀ own, Locates ctx.store f (do
      equateSlot ctx p d.slot own
      return own) fun _ => True := fun own =>
    (locates_equateSlot own hd rfl).bind fun _ _ => Guards.pure trivial
  unfold declTerm
  cases d.type? ctx.store with
  | some t => exact (Guards.pure trivial).bind fun own (_ : True) => hrest own
  | none => exact (locates_solveAt .fresh hd).bind fun own _ => hrest own

theorem locates_declTerms {ds : List Declaration} {i : Nat}
    (h : ∀ j d, ds[j]? = some d → f.at? (p.child (i + j)).indexes = some (.decl d)) :
    Locates ctx.store f (declTerms ctx p i ds) fun ts => ts.length = ds.length := by
  induction ds generalizing i with
  | nil => exact Guards.pure rfl
  | cons d ds ih =>
    refine (locates_declTerm (h 0 d rfl)).bind fun own _ => ?_
    refine (ih fun j d hd => ?_).bind fun ts hts => Guards.pure (congrArg Nat.succ hts)
    rw [Nat.add_assoc, Nat.add_comm 1 j]
    exact h (j + 1) d hd

theorem locates_finishNode {e : Expr} (term : TyTerm) (he : f.at? p.indexes = some (.expr e)) :
    Locates ctx.store f (finishNode ctx p e term) fun _ => True := by
  have hrest : Locates ctx.store f (do
      equateSlot ctx p e.node.slot term
      return term) fun _ => True :=
    (locates_equateSlot term he rfl).bind fun _ _ => Guards.pure trivial
  unfold finishNode
  cases e.explicit? with
  | some t => exact (locates_equateKnown term t he).bind fun _ _ => hrest
  | none => exact (Guards.pure (a := ()) (K := fun _ => True) trivial).bind fun _ _ => hrest

theorem locates_applyRule {e : Expr} (terms : List TyTerm) (h : ctx.Stands f p (.expr e)) :
    Locates ctx.store f (applyRule ctx p e terms) fun _ => True :=
  (locates_solveAt (e.conflicts_rule terms) h.here).bind fun t _ => locates_finishNode t h.here

theorem locates_finishPred {q : Pred} (terms : List TyTerm) (h : ctx.Stands f p (.pred q)) :
    Locates ctx.store f (finishPred ctx p q terms) fun _ => True :=
  (locates_solveAt (q.conflicts_rule terms) h.here).bind fun _ _ => locates_markLater _

/-- An index without a declaration is one that the path has no declaration for. -/
theorem locates_boundTerm {n : Node} {i : Nat} {t : Option Ty}
    (h : ctx.Stands f p (.expr (.bound n i t))) :
    Locates ctx.store f (boundTerm ctx p i) fun _ => True := by
  unfold boundTerm
  split
  · exact Guards.pure trivial
  · rename_i hnone
    refine Guards.throw fun e he => ?_
    cases he
    refine ⟨⟨_, h.here⟩, fun j hj => ?_, fun _ ht => by cases ht⟩
    cases hj
    exact ⟨⟨n, t, h.here⟩, h.scope ▸ List.getElem?_eq_none_iff.1 hnone⟩

theorem locates_freeTerm {n : Node} {x : String} {t : Option Ty}
    (he : f.at? p.indexes = some (.expr (.free n x t))) :
    Locates ctx.store f (freeTerm ctx p x) fun _ => True := by
  unfold freeTerm
  cases ctx.env.get? x with
  | some t => exact Guards.pure trivial
  | none =>
    refine Guards.get_bind fun c _ => ?_
    cases c.free.lookup x with
    | some pending => exact Guards.pure trivial
    | none =>
      refine (locates_solveAt .fresh he).bind fun term _ => ?_
      exact (Guards.modify fun c hc => hc.placeFree he).bind fun _ _ => Guards.pure trivial

end Check

def Expr.Locates (f : Formula) (e : Expr) : Prop :=
  ∀ (ctx : CheckContext) (p : Position), ctx.Stands f p (.expr e) →
    Check.Locates ctx.store f (e.check ctx p) fun _ => True

def Pred.Locates (f : Formula) (q : Pred) : Prop :=
  ∀ (ctx : CheckContext) (p : Position), ctx.Stands f p (.pred q) →
    Check.Locates ctx.store f (q.check ctx p) fun _ => True

section
variable {es : List Expr} {qs : List Pred} {i : Nat}

theorem locates_exprs (hes : ∀ e ∈ es, e.Locates f)
    (h : ∀ j e, es[j]? = some e → ctx.Stands f (p.child (i + j)) (.expr e)) :
    Check.Locates ctx.store f (Expr.checkAll ctx p i es) fun _ => True := by
  induction es generalizing i with
  | nil => exact Guards.pure trivial
  | cons e es ih =>
    rw [List.forall_mem_cons] at hes
    refine (hes.1 ctx _ (h 0 e rfl)).bind fun t _ => ?_
    refine (ih hes.2 fun j e he => ?_).bind fun _ _ => Guards.pure trivial
    rw [Nat.add_assoc, Nat.add_comm 1 j]
    exact h (j + 1) e he

theorem locates_preds (hqs : ∀ q ∈ qs, q.Locates f)
    (h : ∀ j q, qs[j]? = some q → ctx.Stands f (p.child (i + j)) (.pred q)) :
    Check.Locates ctx.store f (Pred.checkAll ctx p i qs) fun _ => True := by
  induction qs generalizing i with
  | nil => exact Guards.pure trivial
  | cons q qs ih =>
    rw [List.forall_mem_cons] at hqs
    refine (hqs.1 ctx _ (h 0 q rfl)).bind fun _ _ => ?_
    refine ih hqs.2 fun j q hq => ?_
    rw [Nat.add_assoc, Nat.add_comm 1 j]
    exact h (j + 1) q hq

/-- The expressions of a node that has nothing but expressions first. -/
theorem CheckContext.Stands.exprs {fs : List Formula} (h : ctx.Stands f p g)
    (hparts : g.parts = es.map .expr ++ fs) (hd : g.declared = []) (j : Nat) (e : Expr)
    (he : es[j]? = some e) : ctx.Stands f (p.child (0 + j)) (.expr e) := by
  refine h.child ?_ hd
  rw [hparts, Nat.zero_add, List.getElem?_append_left, List.getElem?_map, he]
  · rfl
  · simpa using (List.getElem?_eq_some_iff.1 he).1

/-- The predicates of a node that has nothing but expressions before them. -/
theorem CheckContext.Stands.preds (h : ctx.Stands f p g)
    (hparts : g.parts = es.map .expr ++ qs.map .pred) (hd : g.declared = []) (j : Nat) (q : Pred)
    (hq : qs[j]? = some q) : ctx.Stands f (p.child (es.length + j)) (.pred q) := by
  refine h.child ?_ hd
  rw [hparts, List.getElem?_append_right (by simp), List.length_map, Nat.add_sub_cancel_left,
    List.getElem?_map, hq]
  rfl

/-- The declarations of a quantifier. -/
theorem CheckContext.Stands.decls {ds : List Declaration} {fs : List Formula} (h : ctx.Stands f p g)
    (hparts : g.parts = ds.map .decl ++ fs) (j : Nat) (d : Declaration) (hd : ds[j]? = some d) :
    f.at? (p.child (0 + j)).indexes = some (.decl d) := by
  refine Formula.at?_child h.here ?_
  rw [hparts, Nat.zero_add, List.getElem?_append_left, List.getElem?_map, hd]
  · rfl
  · simpa using (List.getElem?_eq_some_iff.1 hd).1

end

mutual

theorem Expr.locates (f : Formula) : ∀ e : Expr, e.Locates f
  | .binary _ _ l r => fun ctx p h => (l.locates f ctx _ (h.child rfl rfl)).bind fun a _ =>
      (r.locates f ctx _ (h.child rfl rfl)).bind fun b _ => locates_applyRule [a, b] h
  | .unary _ _ a => fun ctx p h => (a.locates f ctx _ (h.child rfl rfl)).bind fun a _ =>
      locates_applyRule [a] h
  | .assoc _ _ es | .set _ es _ => fun ctx p h =>
      (locates_exprs (Expr.allLocate f es) (h.exprs (List.append_nil _).symm rfl)).bind
        fun ts _ => locates_applyRule ts h
  | .atom .. => fun ctx p h => locates_applyRule [] h
  | .bool _ q => fun ctx p h => (q.locates f ctx _ (h.child rfl rfl)).bind fun _ _ =>
      locates_applyRule [] h
  | .quantified _ _ ds q e => fun ctx p h =>
      (locates_declTerms (h.decls rfl)).bind fun ts hts => by
        -- the predicate and the body come after the declarations
        have hq := h.push (i := ds.length) (k := .pred q) (by simp [Formula.parts, Expr.children]) hts
        have he := h.push (i := ds.length + 1) (k := .expr e)
          (by simp [Formula.parts, Expr.children]) hts
        have hnode := fun body => locates_applyRule (ts ++ [body]) h
        exact (q.locates f _ _ hq).bind fun _ _ => (e.locates f _ _ he).bind fun body _ => hnode body
  | .bound .. => fun ctx p h => (locates_boundTerm h).bind fun t _ => locates_finishNode t h.here
  | .free .. => fun ctx p h => (locates_freeTerm h.here).bind fun t _ => locates_finishNode t h.here
  | .extended _ _ es qs _ => fun ctx p h =>
      (locates_exprs (Expr.allLocate f es) (h.exprs rfl rfl)).bind fun ts _ =>
        (locates_preds (Pred.allLocate f qs) (h.preds rfl rfl)).bind fun _ _ =>
          locates_applyRule ts h

theorem Expr.allLocate (f : Formula) : ∀ es : List Expr, ∀ e ∈ es, e.Locates f
  | [] => by simp
  | e :: es => List.forall_mem_cons.2 ⟨e.locates f, Expr.allLocate f es⟩

theorem Pred.locates (f : Formula) : ∀ q : Pred, q.Locates f
  | .literal .. => fun ctx p h => locates_finishPred [] h
  | .not _ q => fun ctx p h => (q.locates f ctx _ (h.child rfl rfl)).bind fun _ _ =>
      locates_finishPred [] h
  | .connective _ _ q r => fun ctx p h => (q.locates f ctx _ (h.child rfl rfl)).bind fun _ _ =>
      (r.locates f ctx _ (h.child rfl rfl)).bind fun _ _ => locates_finishPred [] h
  | .junction _ _ qs => fun ctx p h =>
      (locates_preds (i := 0) (Pred.allLocate f qs) fun j q hq => by
        have hplace : ctx.Stands f (p.child (([] : List Expr).length + j)) (.pred q) :=
          h.preds rfl rfl j q hq
        rwa [List.length_nil] at hplace).bind fun _ _ => locates_finishPred [] h
  | .comparison _ _ l r => fun ctx p h => (l.locates f ctx _ (h.child rfl rfl)).bind fun a _ =>
      (r.locates f ctx _ (h.child rfl rfl)).bind fun b _ => locates_finishPred [a, b] h
  | .partition _ es => fun ctx p h =>
      (locates_exprs (Expr.allLocate f es) (h.exprs (List.append_nil _).symm rfl)).bind
        fun ts _ => locates_finishPred ts h
  | .quantified _ _ ds q => fun ctx p h =>
      (locates_declTerms (h.decls rfl)).bind fun ts hts => by
        have hq := h.push (i := ds.length) (k := .pred q) (by simp [Formula.parts, Pred.children]) hts
        have hnode := locates_finishPred [] h
        exact (q.locates f _ _ hq).bind fun _ _ => hnode
  | .extended _ _ es qs => fun ctx p h =>
      (locates_exprs (Expr.allLocate f es) (h.exprs rfl rfl)).bind fun ts _ =>
        (locates_preds (Pred.allLocate f qs) (h.preds rfl rfl)).bind fun _ _ =>
          locates_finishPred ts h

theorem Pred.allLocate (f : Formula) : ∀ qs : List Pred, ∀ q ∈ qs, q.Locates f
  | [] => by simp
  | q :: qs => List.forall_mem_cons.2 ⟨q.locates f, Pred.allLocate f qs⟩

end

namespace Collected

variable {e : CheckError}

/-- A pending term that turns out to be open is reported where it was first met. -/
theorem solve_error {q : Pending} (h : c.solve q = .error (.error e)) :
    e.position = q.position ∧ ∃ t, e.error = .unsolved t := by
  unfold solve at h
  split at h
  · cases h
  · rename_i fault hfault
    cases fault with
    | misuse m => cases h
    | error reason =>
      obtain ⟨t, rfl⟩ := unsolved_of_solve hfault
      cases h
      exact ⟨rfl, t, rfl⟩

theorem solve_of_solveAll {K : Type} {items : List (K × Pending)} {fault : Fault CheckError}
    (h : c.solveAll items = .error fault) : ∃ i ∈ items, c.solve i.2 = .error fault := by
  induction items with
  | nil => cases h
  | cons i items ih =>
    unfold solveAll at h ih
    rw [List.mapM_cons] at h
    cases hi : c.solve i.2 with
    | error fault' =>
      simp only [hi] at h
      cases h
      exact ⟨i, List.mem_cons_self, hi⟩
    | ok t =>
      simp only [hi] at h
      cases hrest : items.mapM fun i => do return (i.1, ← c.solve i.2) with
      | error fault' =>
        rw [hrest] at ih
        simp only [hrest] at h
        cases h
        obtain ⟨j, hj, hfault⟩ := ih rfl
        exact ⟨j, List.mem_cons_of_mem _ hj, hfault⟩
      | ok ts =>
        simp only [hrest] at h
        cases h

/-- A given type whose name is taken is reported at the root. -/
theorem inferGivens_error {names : Names} {inferred : Environment}
    (h : inferGivens env names inferred = .error (.error e)) : ∃ a b, e = ⟨.mismatch a b, .root⟩ := by
  induction names generalizing inferred with
  | nil => cases h
  | cons x names ih =>
    unfold inferGivens at h
    split at h
    · split_ifs at h
      · exact ih h
      · cases h
        exact ⟨_, _, rfl⟩
    · exact ih h

theorem finish_error (h : c.finish env = .error (.error e)) :
    (∃ i ∈ c.pendingSlots, c.solve i.2 = .error (.error e)) ∨
      (∃ i ∈ c.free, c.solve i.2 = .error (.error e)) ∨ ∃ a b, e = ⟨.mismatch a b, .root⟩ := by
  cases htypes : c.solveAll c.pendingSlots with
  | error fault =>
    rw [finish, htypes] at h
    cases h
    exact .inl (solve_of_solveAll htypes)
  | ok types =>
    cases hfree : c.solveAll c.free with
    | error fault =>
      rw [finish, htypes, hfree] at h
      cases h
      exact .inr (.inl (solve_of_solveAll hfree))
    | ok free =>
      rw [finish_eq htypes hfree] at h
      cases hinf : inferGivens env (c.givensWith types free) (Environment.empty.insertAll free) with
      | error fault =>
        rw [hinf] at h
        cases h
        exact .inr (.inr (inferGivens_error hinf))
      | ok inferred =>
        rw [hinf] at h
        cases h

/-- A free identifier whose type was known already leaves nothing open. -/
theorem Covers.type?_of_leaves (h : c.Covers s env f) {n : Node} {x : String} {t : Option Ty}
    {q : Pending} (hq : c.free.lookup x = some q) (hnode : .expr (.free n x t) ∈ f.nodes)
    (hopen : c.Leaves q.term) : s.type? n.slot = none := by
  have hc := h.adds.sound
  by_contra hne
  obtain ⟨ty, hty⟩ := Option.ne_none_iff_exists'.1 hne
  -- every solution gives the name the type that its identifier has
  have hknows : c.Knows q.term ty.named := by
    intro θ hθ
    have hm := models_reading hc hθ
    obtain ⟨o, ho, hn⟩ := hnode
    have htyped := (h.typed _ ⟨θ, hm⟩ o ho).2
    rw [hn] at htyped
    rw [hm.free x q hq, ← hm.resolved n.slot ty hty]
    simpa [Typing.TypesIdentifier, (hc.free x q hq).2] using htyped.symm
  obtain ⟨θ, θ', hθ, hθ', hdiffer⟩ := hopen
  exact hdiffer ((hknows θ hθ).trans (hknows θ' hθ').symm)

/-- What is reported in the end stands where it was met. -/
theorem Covers.located_of_finish (h : c.Covers s env f) (hplaced : c.Placed s f)
    (he : c.finish env = .error (.error e)) : e.Located s f := by
  have hc := h.adds.sound
  have hunsolved : ∀ {q : Pending} {g : Formula} {slot : Nat},
      c.solve q = .error (.error e) → f.at? q.position.indexes = some g → g.slot? = some slot →
      s.type? slot = none → e.Located s f := by
    intro q g slot hsolve hg hslot hempty
    obtain ⟨hp, t, ht⟩ := solve_error hsolve
    rw [← hp] at hg
    refine ⟨⟨g, hg⟩, fun i hi => ?_, fun _ _ => ⟨g, slot, hg, hslot, hempty⟩⟩
    rw [ht] at hi
    cases hi
  obtain ⟨⟨slot, q⟩, hi, hsolve⟩ | ⟨⟨x, q⟩, hi, hsolve⟩ | ⟨a, b, rfl⟩ := finish_error he
  · obtain ⟨hempty, g, hg, hslot⟩ := hplaced.pending slot q ((mem_pendingSlots hc).1 hi)
    exact hunsolved hsolve hg hslot hempty
  · obtain ⟨n, t, hg⟩ := hplaced.free _ hi
    have hq := (lookup_eq_some_iff_mem hc.names).2 hi
    refine hunsolved hsolve hg rfl (h.type?_of_leaves hq (Formula.mem_nodes_of_at? hg) ?_)
    obtain ⟨ty, hok, -⟩ | ⟨_, -, hopen⟩ := solve_spec hc.wellFormed (hc.free x q hq).1
    · rw [hok] at hsolve
      cases hsolve
    · exact hopen
  · exact CheckError.located_of_conflict trivial (rfl : f.at? [] = some f)

end Collected

theorem Store.located_of_check {K : α → Prop} {R : α → Collected → Prop} {e : CheckError}
    (collect : CheckContext → Check α)
    (hchecks : Checks s env f.occurrences (start s) (collect ⟨env, s, []⟩) R)
    (hlocates : Check.Locates s f (collect ⟨env, s, []⟩) K)
    (he : s.check env collect = .error (.error e)) : e.Located s f := by
  have hanswer : Check.answer env s collect = .error (.error e) := by
    unfold Store.check at he
    cases hr : Check.answer env s collect with
    | error fault =>
      rw [hr] at he
      cases he
      rfl
    | ok r =>
      simp only [hr, Bind.bind, Except.bind] at he
      split at he <;> cases he
  rcases hrun : (collect ⟨env, s, []⟩).run (start s) with ⟨_ | a, c⟩
  · rw [Check.answer_error hrun] at hanswer
    cases hanswer
    exact hlocates.faults _ placed_start _ (by rw [hrun]) e rfl
  · rw [Check.answer_ok hrun] at hanswer
    obtain ⟨hcovers : c.Covers s env f, -⟩ := hchecks.sound a c hrun
    exact hcovers.located_of_finish (hlocates.yields _ placed_start a c hrun).1 hanswer

/-- An error of a check stands at a part of the formula. An identifier that is not bound is the bound
identifier there, and the quantifiers on the way to it declare no more identifiers than its index; what
is not solved is the type of the expression or declaration there, which has none. -/
theorem Formula.descendant_of_check_error (hfits : f.Fits s) (hf : f.isAssignment = false)
    {e : CheckError} (he : f.check? s env = some (.error (.error e))) :
    ∃ g, f.descendant e.position = .ok g ∧
      (∀ i, e.error = .unboundIdentifier i →
        (∃ n t, g = .expr (.bound n i t)) ∧ f.declaredAlong e.position.indexes ≤ i) ∧
      ∀ t, e.error = .unsolved t →
        (∃ d : Expr, g = .expr d ∧ d.type? s = none) ∨ ∃ d, g = .decl d ∧ d.type? s = none := by
  have hlocated : e.Located s f := by
    have hroot : ∀ {g}, f = g → (⟨env, s, []⟩ : CheckContext).Stands f .root g := fun h =>
      ⟨h ▸ rfl, rfl⟩
    cases f with
    | expr d =>
      exact Store.located_of_check (d.check · .root)
        (d.walked ⟨env, s, []⟩ .root [] _ sound_start .nil hfits)
        (d.locates _ _ _ (hroot rfl)) (Option.some.inj he)
    | pred q =>
      exact Store.located_of_check (q.check · .root)
        (q.walked ⟨env, s, []⟩ .root [] _ sound_start .nil hfits)
        (q.locates _ _ _ (hroot rfl)) (Option.some.inj he)
    | assignment a => cases hf
    | decl d => cases he
  obtain ⟨g, hg⟩ := hlocated.stands
  refine ⟨g, descendant_eq_ok hf hg, fun i hi => ?_, fun t ht => ?_⟩
  · obtain ⟨⟨n, t, hbound⟩, hle⟩ := hlocated.unbound i hi
    exact ⟨⟨n, t, Option.some.inj (hg.symm.trans hbound)⟩, hle⟩
  · obtain ⟨k, slot, hk, hslot, hempty⟩ := hlocated.unsolved t ht
    obtain rfl := Option.some.inj (hg.symm.trans hk)
    cases g with
    | expr d =>
      cases hslot
      exact .inl ⟨d, rfl, hempty⟩
    | decl d =>
      cases hslot
      exact .inr ⟨d, rfl, hempty⟩
    | pred q => cases hslot
    | assignment a => cases hslot

def strayIndex : Pred :=
  .quantified ⟨bareFactory, 0⟩ .exist [⟨"x", 0⟩, ⟨"y", 1⟩] <|
    .comparison ⟨bareFactory, 1⟩ .eq (.bound ⟨bareFactory, 2⟩ 0 none) (.bound ⟨bareFactory, 3⟩ 2 none)

theorem descendant_of_check_strayIndex :
    (Formula.pred strayIndex).check? ⟨.replicate 4 none, .replicate 2 false, 0⟩ .empty =
        some (.error (.error ⟨.unboundIdentifier 2, ⟨[2, 1]⟩⟩)) ∧
      ∃ n t, (Formula.pred strayIndex).descendant ⟨[2, 1]⟩ = .ok (.expr (.bound n 2 t)) ∧
        (Formula.pred strayIndex).declaredAlong [2, 1] ≤ 2 := by
  have hfits : (Formula.pred strayIndex).Fits ⟨.replicate 4 none, .replicate 2 false, 0⟩ := by
    simp [Formula.Fits, Formula.occurrences, strayIndex, Pred.occurrences, Expr.occurrences,
      Formula.NodeFits, Expr.node, Pred.node, Expr.Fitting, Pred.Fitting]
  obtain ⟨g, hg, hbound, -⟩ := Formula.descendant_of_check_error hfits rfl
    (rfl : Formula.check? _ .empty _ = some (.error (.error ⟨.unboundIdentifier 2, ⟨[2, 1]⟩⟩)))
  obtain ⟨⟨n, t, rfl⟩, hle⟩ := hbound 2 rfl
  exact ⟨rfl, n, t, hg, hle⟩

end SetLang
