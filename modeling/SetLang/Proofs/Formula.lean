import SetLang.Formula.Parts
import SetLang.Proofs.Typing.Judgement

/-! The nodes of a formula are the formula itself and what stands below its nodes. -/

namespace SetLang

def Assigned.components : Assigned → List Formula
  | values es => es.map .expr
  | member e => [.expr e]
  | such ds p => ds.map .decl ++ [.pred p]

/-- The formulas directly below a formula, those of assignments included. -/
def Formula.components : Formula → List Formula
  | assignment a => a.assigned.components ++ a.targets.map expr
  | f => f.parts

def Formula.nodes (f : Formula) : Set Formula := {g | ∃ o ∈ f.occurrences, o.node = g}

theorem Expr.mem_occurrences_self (e : Expr) (scope : List Declaration) :
    ⟨scope, .expr e⟩ ∈ e.occurrences scope := by
  cases e <;> simp

theorem Pred.mem_occurrences_self (p : Pred) (scope : List Declaration) :
    ⟨scope, .pred p⟩ ∈ p.occurrences scope := by
  cases p <;> simp

def Covers (os : List Occurrence) (fs : List Formula) : Prop := ∀ f ∈ fs, ∃ o ∈ os, o.node = f

namespace Covers

variable {os os' : List Occurrence} {fs fs' : List Formula} {scope : List Declaration}

theorem nil : Covers os [] := fun _ h => by cases h

theorem append (h : Covers os fs) (k : Covers os' fs') : Covers (os ++ os') (fs ++ fs') := by
  intro f hf
  rcases List.mem_append.1 hf with hf | hf
  · obtain ⟨o, ho, hn⟩ := h f hf
    exact ⟨o, List.mem_append_left _ ho, hn⟩
  · obtain ⟨o, ho, hn⟩ := k f hf
    exact ⟨o, List.mem_append_right _ ho, hn⟩

theorem expr (e : Expr) : Covers (e.occurrences scope) [.expr e] := by
  intro f hf
  obtain rfl := List.mem_singleton.1 hf
  exact ⟨_, e.mem_occurrences_self scope, rfl⟩

theorem pred (p : Pred) : Covers (p.occurrences scope) [.pred p] := by
  intro f hf
  obtain rfl := List.mem_singleton.1 hf
  exact ⟨_, p.mem_occurrences_self scope, rfl⟩

theorem exprs (es : List Expr) : Covers (Expr.allOccurrences scope es) (es.map .expr) := by
  induction es with
  | nil => exact nil
  | cons e es ih => exact (expr e).append ih

theorem preds (ps : List Pred) : Covers (Pred.allOccurrences scope ps) (ps.map .pred) := by
  induction ps with
  | nil => exact nil
  | cons p ps ih => exact (pred p).append ih

theorem decls (ds : List Declaration) :
    Covers (ds.map fun d => ⟨scope, .decl d⟩) (ds.map .decl) := by
  intro f hf
  obtain ⟨d, hd, rfl⟩ := List.mem_map.1 hf
  exact ⟨⟨scope, .decl d⟩, List.mem_map_of_mem hd, rfl⟩

end Covers

/-- With each node the list has the formulas directly below it. -/
def Closed (os : List Occurrence) : Prop := ∀ o ∈ os, Covers os o.node.components

namespace Closed

variable {os os' : List Occurrence} {o : Occurrence} {scope : List Declaration}

theorem nil : Closed [] := fun _ h => by cases h

theorem append (h : Closed os) (k : Closed os') : Closed (os ++ os') := by
  intro o ho f hf
  rcases List.mem_append.1 ho with ho | ho
  · obtain ⟨o', ho', hn⟩ := h o ho f hf
    exact ⟨o', List.mem_append_left _ ho', hn⟩
  · obtain ⟨o', ho', hn⟩ := k o ho f hf
    exact ⟨o', List.mem_append_right _ ho', hn⟩

theorem cons (h : Closed os) (k : Covers os o.node.components) : Closed (o :: os) := by
  intro o' ho' f hf
  rcases List.mem_cons.1 ho' with rfl | ho'
  · obtain ⟨o', ho', hn⟩ := k f hf
    exact ⟨o', List.mem_cons_of_mem _ ho', hn⟩
  · obtain ⟨o', ho', hn⟩ := h o' ho' f hf
    exact ⟨o', List.mem_cons_of_mem _ ho', hn⟩

theorem decls (ds : List Declaration) : Closed (ds.map fun d => ⟨scope, .decl d⟩) := by
  intro o ho
  obtain ⟨d, -, rfl⟩ := List.mem_map.1 ho
  exact Covers.nil

end Closed

mutual

theorem Expr.closed (scope : List Declaration) : ∀ e : Expr, Closed (e.occurrences scope)
  | .binary _ _ l r =>
    ((l.closed scope).append (r.closed scope)).cons ((Covers.expr l).append (Covers.expr r))
  | .unary _ _ a => (a.closed scope).cons (Covers.expr a)
  | .assoc _ _ es | .set _ es _ => (Expr.allClosed scope es).cons (Covers.exprs es)
  | .atom .. | .bound .. | .free .. => Closed.nil.cons Covers.nil
  | .bool _ p => (p.closed scope).cons (Covers.pred p)
  | .quantified _ _ ds p e =>
    ((Closed.decls ds).append ((p.closed (ds.reverse ++ scope)).append
      (e.closed (ds.reverse ++ scope)))).cons
        ((Covers.decls ds).append ((Covers.pred p).append (Covers.expr e)))
  | .extended _ _ es ps _ => ((Expr.allClosed scope es).append (Pred.allClosed scope ps)).cons
      ((Covers.exprs es).append (Covers.preds ps))

theorem Expr.allClosed (scope : List Declaration) :
    ∀ es : List Expr, Closed (Expr.allOccurrences scope es)
  | [] => Closed.nil
  | e :: es => (e.closed scope).append (Expr.allClosed scope es)

theorem Pred.closed (scope : List Declaration) : ∀ p : Pred, Closed (p.occurrences scope)
  | .literal .. => Closed.nil.cons Covers.nil
  | .not _ p => (p.closed scope).cons (Covers.pred p)
  | .connective _ _ p q =>
    ((p.closed scope).append (q.closed scope)).cons ((Covers.pred p).append (Covers.pred q))
  | .junction _ _ ps => (Pred.allClosed scope ps).cons (Covers.preds ps)
  | .comparison _ _ l r =>
    ((l.closed scope).append (r.closed scope)).cons ((Covers.expr l).append (Covers.expr r))
  | .partition _ es => (Expr.allClosed scope es).cons (Covers.exprs es)
  | .quantified _ _ ds p => ((Closed.decls ds).append (p.closed (ds.reverse ++ scope))).cons
      ((Covers.decls ds).append (Covers.pred p))
  | .extended _ _ es ps => ((Expr.allClosed scope es).append (Pred.allClosed scope ps)).cons
      ((Covers.exprs es).append (Covers.preds ps))

theorem Pred.allClosed (scope : List Declaration) :
    ∀ ps : List Pred, Closed (Pred.allOccurrences scope ps)
  | [] => Closed.nil
  | p :: ps => (p.closed scope).append (Pred.allClosed scope ps)

end

def ClosedSet (held : Set Formula) : Prop := ∀ f ∈ held, ∀ g ∈ f.components, g ∈ held

def Within (held : Set Formula) (os : List Occurrence) : Prop := ∀ o ∈ os, o.node ∈ held

namespace Within

variable {held : Set Formula} {os os' : List Occurrence} {scope : List Declaration}

theorem nil : Within held [] := fun _ h => by cases h

theorem append (h : Within held os) (k : Within held os') : Within held (os ++ os') :=
  List.forall_mem_append.2 ⟨h, k⟩

theorem cons {o : Occurrence} (ho : o.node ∈ held) (h : Within held os) : Within held (o :: os) :=
  List.forall_mem_cons.2 ⟨ho, h⟩

theorem decls {ds : List Declaration} (h : ∀ d ∈ ds, .decl d ∈ held) :
    Within held (ds.map fun d => ⟨scope, .decl d⟩) := List.forall_mem_map.2 h

end Within

section
variable {held : Set Formula}

mutual

theorem Expr.within (h : ClosedSet held) (scope : List Declaration) :
    ∀ e : Expr, .expr e ∈ held → Within held (e.occurrences scope)
  | .binary _ _ l r, he => .cons he <|
    (l.within h scope (h _ he (.expr l) List.mem_cons_self)).append
      (r.within h scope (h _ he (.expr r) (List.mem_cons_of_mem _ List.mem_cons_self)))
  | .unary _ _ a, he => .cons he (a.within h scope (h _ he (.expr a) List.mem_cons_self))
  | .assoc _ _ es, he | .set _ es _, he => .cons he <| Expr.allWithin h scope es fun e hmem =>
    h _ he (.expr e) (List.mem_map_of_mem hmem)
  | .atom .., he | .bound .., he | .free .., he => .cons he .nil
  | .bool _ p, he => .cons he (p.within h scope (h _ he (.pred p) List.mem_cons_self))
  | .quantified _ _ ds p e, he => by
    have hp : .pred p ∈ held := h _ he _ (List.mem_append_right _ List.mem_cons_self)
    have hb : .expr e ∈ held :=
      h _ he _ (List.mem_append_right _ (List.mem_cons_of_mem _ List.mem_cons_self))
    refine .cons he (.append (.decls fun d hd => ?_)
      ((p.within h _ hp).append (e.within h _ hb)))
    exact h _ he _ (List.mem_append_left _ (List.mem_map_of_mem hd))
  | .extended _ _ es ps _, he => .cons he <|
    (Expr.allWithin h scope es fun e hmem =>
      h _ he (.expr e) (List.mem_append_left _ (List.mem_map_of_mem hmem))).append
    (Pred.allWithin h scope ps fun p hmem =>
      h _ he (.pred p) (List.mem_append_right _ (List.mem_map_of_mem hmem)))

theorem Expr.allWithin (h : ClosedSet held) (scope : List Declaration) :
    ∀ es : List Expr, (∀ e ∈ es, .expr e ∈ held) → Within held (Expr.allOccurrences scope es)
  | [], _ => .nil
  | e :: es, hes => (e.within h scope (hes e List.mem_cons_self)).append <|
    Expr.allWithin h scope es fun e' he' => hes e' (List.mem_cons_of_mem _ he')

theorem Pred.within (h : ClosedSet held) (scope : List Declaration) :
    ∀ p : Pred, .pred p ∈ held → Within held (p.occurrences scope)
  | .literal .., hp => .cons hp .nil
  | .not _ p, hp => .cons hp (p.within h scope (h _ hp (.pred p) List.mem_cons_self))
  | .connective _ _ p q, hp => .cons hp <|
    (p.within h scope (h _ hp (.pred p) List.mem_cons_self)).append
      (q.within h scope (h _ hp (.pred q) (List.mem_cons_of_mem _ List.mem_cons_self)))
  | .junction _ _ ps, hp => .cons hp <| Pred.allWithin h scope ps fun p hmem =>
    h _ hp (.pred p) (List.mem_map_of_mem hmem)
  | .comparison _ _ l r, hp => .cons hp <|
    (l.within h scope (h _ hp (.expr l) List.mem_cons_self)).append
      (r.within h scope (h _ hp (.expr r) (List.mem_cons_of_mem _ List.mem_cons_self)))
  | .partition _ es, hp => .cons hp <| Expr.allWithin h scope es fun e hmem =>
    h _ hp (.expr e) (List.mem_map_of_mem hmem)
  | .quantified _ _ ds p, hp => by
    have hb : .pred p ∈ held := h _ hp _ (List.mem_append_right _ List.mem_cons_self)
    refine .cons hp (.append (.decls fun d hd => ?_) (p.within h _ hb))
    exact h _ hp _ (List.mem_append_left _ (List.mem_map_of_mem hd))
  | .extended _ _ es ps, hp => .cons hp <|
    (Expr.allWithin h scope es fun e hmem =>
      h _ hp (.expr e) (List.mem_append_left _ (List.mem_map_of_mem hmem))).append
    (Pred.allWithin h scope ps fun p hmem =>
      h _ hp (.pred p) (List.mem_append_right _ (List.mem_map_of_mem hmem)))

theorem Pred.allWithin (h : ClosedSet held) (scope : List Declaration) :
    ∀ ps : List Pred, (∀ p ∈ ps, .pred p ∈ held) → Within held (Pred.allOccurrences scope ps)
  | [], _ => .nil
  | p :: ps, hps => (p.within h scope (hps p List.mem_cons_self)).append <|
    Pred.allWithin h scope ps fun p' hp' => hps p' (List.mem_cons_of_mem _ hp')

end

end

namespace Formula

theorem closed : ∀ f : Formula, Closed f.occurrences
  | expr e => e.closed []
  | pred p => p.closed []
  | decl d => Closed.decls [d]
  | assignment ⟨_, targets, .values es⟩ =>
    ((Expr.allClosed [] es).append (Expr.allClosed [] targets)).cons
      ((Covers.exprs es).append (Covers.exprs targets))
  | assignment ⟨_, targets, .member e⟩ => ((e.closed []).append (Expr.allClosed [] targets)).cons
      ((Covers.expr e).append (Covers.exprs targets))
  | assignment ⟨_, targets, .such ds p⟩ =>
    (((Closed.decls ds).append (p.closed ds.reverse)).append (Expr.allClosed [] targets)).cons
      (((Covers.decls ds).append (Covers.pred p)).append (Covers.exprs targets))

theorem mem_nodes_self : ∀ f : Formula, f ∈ f.nodes
  | expr e => ⟨_, e.mem_occurrences_self [], rfl⟩
  | pred p => ⟨_, p.mem_occurrences_self [], rfl⟩
  | decl _ => ⟨_, List.mem_singleton_self _, rfl⟩
  | assignment _ => ⟨_, List.mem_cons_self, rfl⟩

theorem nodes_closed {f g h : Formula} (hg : g ∈ f.nodes) (hh : h ∈ g.components) : h ∈ f.nodes := by
  obtain ⟨o, ho, rfl⟩ := hg
  exact f.closed o ho h hh

theorem closedSet_nodes (f : Formula) : ClosedSet f.nodes := fun _ hg _ hh => nodes_closed hg hh

theorem within {held : Set Formula} (h : ClosedSet held) :
    ∀ f ∈ held, Within held f.occurrences
  | expr e, he => e.within h [] he
  | pred p, hp => p.within h [] hp
  | decl d, hd => .cons hd .nil
  | assignment a, ha => by
    have hparts := h _ ha
    simp only [components, List.forall_mem_append, List.forall_mem_map] at hparts
    refine .cons ha (.append ?_ (Expr.allWithin h [] _ hparts.2))
    obtain ⟨hassigned, -⟩ := hparts
    revert hassigned
    cases a.assigned with
    | values es =>
      intro hes
      exact Expr.allWithin h [] es (List.forall_mem_map.1 hes)
    | member e =>
      intro he
      exact e.within h [] (he _ List.mem_cons_self)
    | such ds p =>
      intro hall
      rw [Assigned.components, List.forall_mem_append, List.forall_mem_map] at hall
      exact .append (.decls hall.1) (p.within h _ (hall.2 _ List.mem_cons_self))

theorem nodes_subset {held : Set Formula} (h : ClosedSet held) {f : Formula} (hf : f ∈ held) :
    f.nodes ⊆ held := by
  rintro _ ⟨o, ho, rfl⟩
  exact within h f hf o ho

inductive Throughout (P : Formula → Prop) : Formula → Prop
  | intro {f : Formula} : P f → (∀ g ∈ f.components, g.Throughout P) → f.Throughout P

namespace Throughout

variable {P Q : Formula → Prop} {f : Formula}

theorem self (h : f.Throughout P) : P f := by
  cases h with
  | intro hf _ => exact hf

theorem nodes (h : f.Throughout P) : ∀ g ∈ f.nodes, P g := by
  have hclosed : ClosedSet {g : Formula | g.Throughout P} := by
    rintro _ ⟨_, hparts⟩
    exact hparts
  exact fun g hg => (nodes_subset hclosed h hg).self

theorem mono (h : f.Throughout P) (k : ∀ g, P g → Q g) : f.Throughout Q := by
  induction h with
  | intro hf _ ih => exact .intro (k _ hf) ih

end Throughout

theorem mem_freeNames {f : Formula} {x : String} :
    x ∈ f.freeNames ↔ ∃ n t, .expr (.free n x t) ∈ f.nodes := by
  rw [freeNames, List.mem_filterMap]
  constructor
  · rintro ⟨⟨scope, g⟩, ho, hx⟩
    cases g with
    | expr e =>
      cases e with
      | free n y t =>
        cases hx
        exact ⟨n, t, _, ho, rfl⟩
      | _ => cases hx
    | _ => cases hx
  · rintro ⟨n, t, o, ho, hn⟩
    exact ⟨o, ho, by rw [hn]; rfl⟩

/-- The nodes of a node are nodes. -/
theorem nodes_trans {f g h : Formula} (hg : g ∈ f.nodes) (hh : h ∈ g.nodes) : h ∈ f.nodes :=
  nodes_subset f.closedSet_nodes hg hh

end Formula
end SetLang
