import SetLang.Proofs.Preorder
import SetLang.Proofs.Typing.Principal

/-! What a walk visits. The visits are decided on one after the other, each in the state that the one
before left. They go over the parts in preorder, of which those strictly below a visit that leaves out the
children are dropped, up to the first visit that ends the walk. -/

namespace SetLang

variable {σ τ α : Type}

/-- A visit that was made: where, to which node, and what was decided on. -/
structure Visited (α : Type) where
  position : Position
  node : Formula
  decision : Visit α

namespace Visited

def place (v : Visited α) : Position × Formula := (v.position, v.node)

/-- Whether what stands at a position is left out after some of the visits. -/
def leftOut (vs : List (Visited α)) (q : Position) : Bool :=
  vs.any fun v => v.decision.skipChildren && v.position.above q

def kept (vs : List (Visited α)) (places : List (Position × Formula)) : List (Position × Formula) :=
  places.filter fun x => !leftOut vs x.1

/-- The visits go over the places in order, to the end or to the first visit that ends the walk. -/
inductive Over : List (Position × Formula) → List (Visited α) → Prop
  | done : Over [] []
  | ended {v : Visited α} (rest : List (Position × Formula)) :
    v.decision.skipAll = true → Over (v.place :: rest) [v]
  | next {v : Visited α} {places : List (Position × Formula)} {vs : List (Visited α)} :
    v.decision.skipAll = false → Over places vs → Over (v.place :: places) (v :: vs)

def anyEnded (vs : List (Visited α)) : Bool := vs.any (·.decision.skipAll)

@[simp] theorem anyEnded_nil : anyEnded ([] : List (Visited α)) = false := rfl

@[simp] theorem anyEnded_cons (v : Visited α) (vs : List (Visited α)) :
    anyEnded (v :: vs) = (v.decision.skipAll || anyEnded vs) := List.any_cons

end Visited

namespace StatefulInspector

/-- Consecutive visits, each as the inspector decides in its state and with the findings by then. -/
inductive Makes (visit : StatefulInspector σ α) :
    Accumulator σ α → List (Visited α) → Accumulator σ α → Prop
  | none (acc : Accumulator σ α) : Makes visit acc [] acc
  | next {acc acc' : Accumulator σ α} {p : Position} {g : Formula} {vs : List (Visited α)} :
    Makes visit (acc.after (visit acc.state acc.found p g)) vs acc' →
      Makes visit acc (⟨p, g, (visit acc.state acc.found p g).1⟩ :: vs) acc'

/-- The inspector that decides likewise and keeps in its state the visits that it made, of which the
latest comes first. -/
def recorded (visit : StatefulInspector σ α) : StatefulInspector (σ × List (Visited α)) α :=
  fun (state, visits) found p g =>
    ((visit state found p g).1, (visit state found p g).2, ⟨p, g, (visit state found p g).1⟩ :: visits)

def forget (acc : Accumulator (σ × List (Visited α)) α) : Accumulator σ α :=
  ⟨acc.state.1, acc.found, acc.skipAll⟩

variable {visit : StatefulInspector σ α} {acc acc' acc'' : Accumulator σ α} {vs ws : List (Visited α)}

namespace Makes

theorem append (h : visit.Makes acc vs acc') (h' : visit.Makes acc' ws acc'') :
    visit.Makes acc (vs ++ ws) acc'' := by
  induction h with
  | none _ => exact h'
  | next _ ih => exact .next (ih h')

theorem found_eq (h : visit.Makes acc vs acc') :
    acc'.found = (vs.flatMap (·.decision.found)).reverse ++ acc.found := by
  induction h with
  | none _ => rfl
  | next _ ih =>
    rw [ih, Accumulator.after, List.flatMap_cons, List.reverse_append, List.append_assoc]

theorem skipAll_eq (h : visit.Makes acc vs acc') :
    acc'.skipAll = (acc.skipAll || Visited.anyEnded vs) := by
  induction h with
  | none _ => rw [Visited.anyEnded_nil, Bool.or_false]
  | next _ ih => rw [ih, Accumulator.after, Visited.anyEnded_cons, Bool.or_assoc]

theorem decision_eq (h : visit.Makes acc vs acc') {v : Visited α} (hv : v ∈ vs) :
    ∃ state found, v.decision = (visit state found v.position v.node).1 := by
  induction h with
  | none _ => cases hv
  | next _ ih =>
    cases hv with
    | head => exact ⟨_, _, rfl⟩
    | tail _ hv => exact ih hv

/-- Recorded visits are made without the record as well, and the record holds them. -/
theorem forget {acc acc' : Accumulator (σ × List (Visited α)) α} (h : visit.recorded.Makes acc vs acc') :
    visit.Makes (forget acc) vs (forget acc') ∧ acc'.state.2 = vs.reverse ++ acc.state.2 := by
  induction h with
  | none _ => exact ⟨.none _, rfl⟩
  | next _ ih =>
    refine ⟨.next ih.1, ?_⟩
    rw [ih.2, List.reverse_cons, List.append_assoc]
    rfl

end Makes
end StatefulInspector

namespace Visited

variable {vs ws : List (Visited α)} {places places' : List (Position × Formula)}

theorem leftOut_append (q : Position) : leftOut (vs ++ ws) q = (leftOut vs q || leftOut ws q) :=
  List.any_append

theorem kept_append : kept vs (places ++ places') = kept vs places ++ kept vs places' :=
  List.filter_append ..

/-- Visits of which none stands above one of the places do not matter. -/
theorem kept_congr (h : ∀ x ∈ places, leftOut vs x.1 = leftOut ws x.1) : kept vs places = kept ws places :=
  List.filter_congr fun x hx => by rw [h x hx]

theorem leftOut_eq_false {q : Position} (h : ∀ v ∈ vs, ¬v.position.above q) : leftOut vs q = false :=
  List.any_eq_false.2 fun v hv hout => h v hv ((Bool.and_eq_true _ _).mp hout).2

namespace Over

theorem places_eq (h : Over places vs) (hvs : anyEnded vs = false) : places = vs.map place := by
  induction h with
  | done => rfl
  | ended rest hv => simp [hv] at hvs
  | next hv _ ih =>
    rw [anyEnded_cons, Bool.or_eq_false_iff] at hvs
    rw [List.map_cons, ← ih hvs.2]

theorem subset (h : Over places vs) : ∀ v ∈ vs, v.place ∈ places := by
  induction h with
  | done => exact fun _ hv => nomatch hv
  | ended rest _ => exact List.forall_mem_singleton.2 List.mem_cons_self
  | next _ _ ih => exact List.forall_mem_cons.2 ⟨List.mem_cons_self, fun v hv => List.mem_cons_of_mem _ (ih v hv)⟩

theorem append (h : Over places vs) (hvs : anyEnded vs = false) (h' : Over places' ws) :
    Over (places ++ places') (vs ++ ws) := by
  induction h with
  | done => exact h'
  | ended rest hv => simp [hv] at hvs
  | next hv _ ih =>
    rw [anyEnded_cons, Bool.or_eq_false_iff] at hvs
    exact .next hv (ih hvs.2)

theorem extend (h : Over places vs) (hvs : anyEnded vs = true) : Over (places ++ places') vs := by
  induction h with
  | done => cases hvs
  | ended rest hv => exact .ended _ hv
  | next hv _ ih =>
    rw [anyEnded_cons, hv, Bool.false_or] at hvs
    exact .next hv (ih hvs)

end Over
end Visited

namespace Formula

open Visited

variable {visit : StatefulInspector σ α}

theorem walkAll_of_skipAll (fs : List Formula) (p : Position) (i : Nat) {acc : Accumulator σ α}
    (h : acc.skipAll = true) : walkAll visit fs p i acc = acc := by
  cases fs with
  | nil => rw [walkAll]
  | cons f fs => rw [walkAll, if_pos h]

theorem not_above_of_mem {f : Formula} {fs : List Formula} {p : Position} {i : Nat}
    {x y : Position × Formula} (hx : x ∈ f.preorder (p.child i)) (hy : y ∈ preorderAll fs p (i + 1)) :
    ¬x.1.above y.1 ∧ ¬y.1.above x.1 := by
  obtain ⟨is, hq⟩ := exists_of_mem_preorder_child hx
  obtain ⟨j, js, hj, hr⟩ := exists_of_mem_preorderAll hy
  have hne : i ≠ j := Nat.ne_of_lt hj
  exact ⟨Position.not_above_of_ne hne hq hr, Position.not_above_of_ne hne.symm hr hq⟩

/-- What the visits to one child and to those after it leave out, they leave out apart. -/
theorem kept_append_of_mem {f : Formula} {fs : List Formula} {p : Position} {i : Nat}
    {vs ws : List (Visited α)} (hvs : ∀ v ∈ vs, v.place ∈ f.preorder (p.child i))
    (hws : ∀ w ∈ ws, w.place ∈ preorderAll fs p (i + 1)) :
    kept (vs ++ ws) (f.preorder (p.child i) ++ preorderAll fs p (i + 1)) =
      kept vs (f.preorder (p.child i)) ++ kept ws (preorderAll fs p (i + 1)) := by
  rw [kept_append]
  congr 1
  · refine kept_congr fun x hx => ?_
    rw [leftOut_append, leftOut_eq_false fun w hw => (not_above_of_mem hx (hws w hw)).2, Bool.or_false]
  · refine kept_congr fun y hy => ?_
    rw [leftOut_append, leftOut_eq_false fun v hv => (not_above_of_mem (hvs v hv) hy).1, Bool.false_or]

/-- What stands below a node that leaves out the children is left out, and the node itself is not. -/
theorem kept_of_skipChildren {f : Formula} {p : Position} {v : Visited α} (hp : v.position = p)
    (hv : v.decision.skipChildren = true) : kept [v] (f.preorder p) = [(p, f)] := by
  subst hp
  have hself : leftOut [v] v.position = false :=
    leftOut_eq_false (List.forall_mem_singleton.2 fun h => by simp [Position.above] at h)
  have hbelow : kept [v] (preorderAll f.parts v.position 0) = [] := by
    refine List.filter_eq_nil_iff.2 fun x hx => ?_
    obtain ⟨j, is, -, hq⟩ := exists_of_mem_preorderAll hx
    simp [leftOut, hv, Position.above_iff.2 ⟨j, is, hq⟩]
  rw [preorder, kept, List.filter_cons, hself, ← kept, hbelow]
  rfl

theorem kept_of_not_skipChildren {f : Formula} {p : Position} {v : Visited α} {vs : List (Visited α)}
    (hv : v.decision.skipChildren = false) (hvs : ∀ w ∈ vs, w.place ∈ preorderAll f.parts p 0) :
    kept (v :: vs) (f.preorder p) = (p, f) :: kept vs (preorderAll f.parts p 0) := by
  have hself : leftOut (v :: vs) p = false := by
    refine List.any_eq_false.2 (List.forall_mem_cons.2 ⟨by simp [hv], fun w hw h => ?_⟩)
    obtain ⟨j, is, -, hq⟩ := exists_of_mem_preorderAll (hvs w hw)
    obtain ⟨k, ks, hk⟩ := Position.above_iff.1 ((Bool.and_eq_true _ _).mp h).2
    have hlength := congrArg List.length (hk.trans (congrArg (· ++ k :: ks) hq))
    simp only [List.length_append, List.length_cons] at hlength
    omega
  rw [preorder, kept, List.filter_cons, hself, Bool.not_false, if_pos rfl, ← kept]
  refine congrArg _ (kept_congr fun x _ => ?_)
  rw [leftOut, List.any_cons, hv, Bool.false_and, Bool.false_or, leftOut]

mutual

/-- The visits of a walk, which begins before it is ended. -/
theorem visits_walk (visit : StatefulInspector σ α) (f : Formula) (p : Position) (acc : Accumulator σ α)
    (hacc : acc.skipAll = false) :
    ∃ vs, visit.Makes acc vs (walk visit f p acc) ∧ Visited.Over (kept vs (f.preorder p)) vs := by
  let v : Visited α := ⟨p, f, (visit acc.state acc.found p f).1⟩
  rw [walk]
  by_cases hchildren : v.decision.skipChildren
  · rw [if_pos hchildren]
    refine ⟨[v], .next (.none _), ?_⟩
    rw [kept_of_skipChildren rfl hchildren]
    cases hall : v.decision.skipAll with
    | true => exact .ended [] hall
    | false => exact .next hall .done
  · rw [if_neg hchildren]
    rw [Bool.not_eq_true] at hchildren
    cases hall : v.decision.skipAll with
    | true =>
      have hafter : (acc.after (visit acc.state acc.found p f)).skipAll = true := by
        rw [Accumulator.after, hacc]
        exact hall
      rw [walkAll_of_skipAll _ _ _ hafter]
      refine ⟨[v], .next (.none _), ?_⟩
      rw [kept_of_not_skipChildren hchildren (List.forall_mem_nil _)]
      exact .ended _ hall
    | false =>
      have hafter : (acc.after (visit acc.state acc.found p f)).skipAll = false := by
        rw [Accumulator.after, hacc]
        exact hall
      obtain ⟨vs, hmakes, hover⟩ := visits_walkAll visit f.parts p 0 _ hafter
      refine ⟨v :: vs, .next hmakes, ?_⟩
      rw [kept_of_not_skipChildren hchildren fun w hw => List.mem_of_mem_filter (hover.subset w hw)]
      exact .next hall hover
termination_by (f.size, 0)
decreasing_by exact Prod.Lex.left _ _ (sizes_parts_lt f)

theorem visits_walkAll (visit : StatefulInspector σ α) (fs : List Formula) (p : Position) (i : Nat)
    (acc : Accumulator σ α) (hacc : acc.skipAll = false) :
    ∃ vs, visit.Makes acc vs (walkAll visit fs p i acc) ∧ Visited.Over (kept vs (preorderAll fs p i)) vs := by
  match fs with
  | [] =>
    rw [walkAll, preorderAll]
    exact ⟨[], .none acc, .done⟩
  | f :: fs =>
    rw [walkAll, if_neg (Bool.not_eq_true _ ▸ hacc), preorderAll]
    obtain ⟨vs, hmakes, hover⟩ := visits_walk visit f (p.child i) acc hacc
    have hplaces := fun v hv => List.mem_of_mem_filter (hover.subset v hv)
    have hskip : (walk visit f (p.child i) acc).skipAll = anyEnded vs := by
      rw [hmakes.skipAll_eq, hacc, Bool.false_or]
    cases hended : anyEnded vs with
    | true =>
      rw [walkAll_of_skipAll _ _ _ (hskip.trans hended)]
      refine ⟨vs, hmakes, ?_⟩
      rw [kept_append]
      exact hover.extend hended
    | false =>
      obtain ⟨ws, hmakes', hover'⟩ := visits_walkAll visit fs p (i + 1) _ (hskip.trans hended)
      refine ⟨vs ++ ws, hmakes.append hmakes', ?_⟩
      rw [kept_append_of_mem hplaces fun w hw => List.mem_of_mem_filter (hover'.subset w hw)]
      exact hover.append hended hover'
termination_by (sizes fs, fs.length + 1)
decreasing_by
  · simp only [sizes, Prod.lex_def]; omega
  · simp only [sizes, Prod.lex_def, List.length_cons]; omega

end

mutual

theorem walk_forget (visit : StatefulInspector σ α) (f : Formula) (p : Position)
    (acc : Accumulator (σ × List (Visited α)) α) :
    walk visit f p (StatefulInspector.forget acc) =
      StatefulInspector.forget (walk visit.recorded f p acc) := by
  rw [walk, walk]
  by_cases hchildren : (visit.recorded acc.state acc.found p f).1.skipChildren
  · rw [if_pos hchildren]
    exact if_pos hchildren
  · rw [if_neg hchildren, ← walkAll_forget visit f.parts]
    exact if_neg hchildren
termination_by (f.size, 0)
decreasing_by exact Prod.Lex.left _ _ (sizes_parts_lt f)

theorem walkAll_forget (visit : StatefulInspector σ α) (fs : List Formula) (p : Position) (i : Nat)
    (acc : Accumulator (σ × List (Visited α)) α) :
    walkAll visit fs p i (StatefulInspector.forget acc) =
      StatefulInspector.forget (walkAll visit.recorded fs p i acc) := by
  match fs with
  | [] => rw [walkAll, walkAll]
  | f :: fs =>
    rw [walkAll, walkAll]
    by_cases hended : acc.skipAll
    · rw [if_pos hended]
      exact if_pos hended
    · have hhead := walk_forget visit f (p.child i) acc
      rw [if_neg hended, ← walkAll_forget visit fs, ← hhead]
      exact if_neg hended
termination_by (sizes fs, fs.length + 1)
decreasing_by
  · simp only [sizes, Prod.lex_def]; omega
  · simp only [sizes, Prod.lex_def, List.length_cons]; omega

end

theorem inspectFrom_eq {f : Formula} (hf : f.isAssignment = false) (start : σ)
    (visit : StatefulInspector σ α) :
    f.inspectFrom start visit = .ok ((walk visit f .root { state := start }).found.reverse,
      (walk visit f .root { state := start }).state) := by
  rw [inspectFrom, support, hf]
  rfl

/-- The findings and the state are those of the visits that the inspection makes. -/
theorem exists_visits (visit : StatefulInspector σ α) (start : σ) {f : Formula}
    (hf : f.isAssignment = false) :
    ∃ vs acc, visit.Makes { state := start } vs acc ∧ Visited.Over (kept vs (f.preorder .root)) vs ∧
      f.inspectFrom start visit = .ok (vs.flatMap (·.decision.found), acc.state) := by
  obtain ⟨vs, hmakes, hover⟩ := visits_walk visit f .root { state := start } rfl
  have hfound := congrArg List.reverse hmakes.found_eq
  rw [List.append_nil, List.reverse_reverse] at hfound
  exact ⟨vs, _, hmakes, hover, by rw [inspectFrom_eq hf, hfound]⟩

theorem inspectFrom_forget (visit : StatefulInspector σ α) (start : σ) {f : Formula}
    (hf : f.isAssignment = false) : f.inspectFrom start visit =
      (f.inspectFrom (start, []) visit.recorded).map fun r => (r.1, r.2.1) := by
  have hwalk : walk visit f .root { state := start } = _ :=
    walk_forget visit f .root { state := (start, []) }
  rw [inspectFrom_eq hf, inspectFrom_eq hf, hwalk]
  rfl

/-- An inspector that never leaves out anything visits all parts in preorder. -/
theorem inspect_all {visit : Inspector α} {f : Formula} (hf : f.isAssignment = false)
    (hvisit : ∀ found p g, (visit found p g).skipChildren = false ∧ (visit found p g).skipAll = false) :
    ∃ vs acc, visit.stateless.Makes { state := () } vs acc ∧ vs.map place = f.preorder .root ∧
      f.inspect visit = .ok (vs.flatMap (·.decision.found)) := by
  obtain ⟨vs, acc, hmakes, hover, hresult⟩ := exists_visits visit.stateless () hf
  have hdecision : ∀ v ∈ vs, v.decision.skipChildren = false ∧ v.decision.skipAll = false := by
    intro v hv
    obtain ⟨state, found, hdecision⟩ := hmakes.decision_eq hv
    rw [hdecision]
    exact hvisit found v.position v.node
  have hkept : kept vs (f.preorder .root) = f.preorder .root := by
    refine List.filter_eq_self.2 fun x _ => ?_
    rw [Bool.not_eq_true', leftOut, List.any_eq_false]
    intro v hv
    rw [(hdecision v hv).1]
    exact Bool.false_ne_true
  have hended : anyEnded vs = false :=
    List.any_eq_false.2 fun v hv => Bool.not_eq_true _ ▸ (hdecision v hv).2
  refine ⟨vs, acc, hmakes, ?_, ?_⟩
  · rw [← hover.places_eq hended, hkept]
  · rw [inspect, hresult]
    rfl

/-- An inspection makes visits, one after the other, to the parts of the formula in preorder, of which
those strictly below a visit that leaves out the children are dropped, up to the first visit that ends
the walk. Each visit is to what stands at its position, and the findings are those of the visits in
turn. -/
theorem inspectFrom_visits (visit : StatefulInspector σ α) (start : σ) {f : Formula}
    (hf : f.isAssignment = false) :
    ∃ vs acc, visit.Makes { state := start } vs acc ∧
      f.inspectFrom start visit = .ok (vs.flatMap (·.decision.found), acc.state) ∧
      f.inspectFrom (start, []) visit.recorded =
        .ok (vs.flatMap (·.decision.found), (acc.state, vs.reverse)) ∧
      Visited.Over (kept vs (f.preorder .root)) vs ∧ ∀ v ∈ vs, f.descendant v.position = .ok v.node := by
  obtain ⟨vs, acc, hmakes, hover, hresult⟩ := exists_visits visit.recorded (start, []) hf
  obtain ⟨hforget, hrecord⟩ := hmakes.forget
  rw [List.append_nil] at hrecord
  refine ⟨vs, StatefulInspector.forget acc, hforget, ?_, ?_, hover, fun v hv => ?_⟩
  · rw [inspectFrom_forget visit start hf, hresult]
    rfl
  · rw [hresult, ← hrecord]
    rfl
  · exact descendant_eq_ok hf (mem_preorder_root.1 (List.mem_of_mem_filter (hover.subset v hv)))

/-- `⊤ ∧ (∃x·⊥) ∧ ⊤ ∧ ⊤` -/
def literals : Formula :=
  .pred <| .junction ⟨bareFactory, 0⟩ .land [.literal ⟨bareFactory, 1⟩ true,
    .quantified ⟨bareFactory, 2⟩ .exist [⟨"x", 0⟩] (.literal ⟨bareFactory, 3⟩ false),
    .literal ⟨bareFactory, 4⟩ true, .literal ⟨bareFactory, 5⟩ true]

def afterQuantifier : StatefulInspector Bool Position := fun met _ p g =>
  match g with
  | .pred (.quantified ..) => ({ found := [p], skipChildren := true }, true)
  | .pred (.literal ..) => ({ found := [p], skipAll := met }, met)
  | _ => ({ found := [p] }, met)

/-- The visit to the quantifier lets the walk go on, and the one after it ends the walk. -/
theorem inspectFrom_visits_literals : literals.isAssignment = false ∧
    ∃ vs : List (Visited Position), Visited.Over (kept vs (literals.preorder .root)) vs ∧
      vs.flatMap (·.decision.found) = [⟨[]⟩, ⟨[0]⟩, ⟨[1]⟩, ⟨[2]⟩] := by
  obtain ⟨vs, acc, -, hresult, -, hover, -⟩ :=
    inspectFrom_visits afterQuantifier false (rfl : literals.isAssignment = false)
  have hrun : literals.inspectFrom false afterQuantifier = .ok ([⟨[]⟩, ⟨[0]⟩, ⟨[1]⟩, ⟨[2]⟩], true) := by cbv
  rw [hresult] at hrun
  exact ⟨rfl, vs, hover, (Prod.mk.inj (Except.ok.inj hrun)).1⟩

end Formula
end SetLang
