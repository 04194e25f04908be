import SetLang.Assignment
import SetLang.Proofs.Rebuild.Run
import SetLang.Proofs.Semantics.Meaning

/-! Instantiation of the declarations around a predicate, by which the relation between the values before and
after an assignment is built from its condition. Below declarations of the predicate itself, the indices of
those around it are higher by their number. -/

namespace SetLang

universe u

variable {s t : Store} {held : Set Formula} {nodes : Nat → Set Formula} {es : List Expr} {F : Factory}

/-- What becomes of identifiers when expressions are put for the innermost of the declarations around. -/
inductive Instantiated (es : List Expr) : Nat → Expr → Expr → Prop
  | free {d : Nat} {n n' : Node} {x : String} {u u' : Option Ty} : Instantiated es d (.free n x u) (.free n' x u')
  | inner {d i : Nat} {n n' : Node} {u u' : Option Ty} : i < d →
    Instantiated es d (.bound n i u) (.bound n' i u')
  | replaced {d j : Nat} {n : Node} {u : Option Ty} {e : Expr} : es.reverse[j]? = some e →
    Instantiated es d (.bound n (d + j) u) e
  | outer {d j : Nat} {n n' : Node} {u u' : Option Ty} :
    Instantiated es d (.bound n (d + es.length + j) u) (.bound n' (d + j) u')

/-- Stacks of which the first has further values, below the values for so many declarations that both have. -/
def Inserted {V : Type u} {n : Nat} (xs : Fin n → V) (d : Nat) (st st' : Nat → V) : Prop :=
  (∀ i < d, st i = st' i) ∧ ∀ j, st (d + j) = push xs (fun i => st' (d + i)) j

theorem inserted_zero {V : Type u} {n : Nat} (xs : Fin n → V) (st : Nat → V) :
    Inserted xs 0 (push xs st) st :=
  ⟨fun _ hi => absurd hi (Nat.not_lt_zero _), fun j => by simp only [Nat.zero_add]⟩

theorem Inserted.push {V : Type u} {n m d : Nat} {xs : Fin n → V} {st st' : Nat → V}
    (h : Inserted xs d st st') (ys : Fin m → V) :
    Inserted xs (d + m) (SetLang.push ys st) (SetLang.push ys st') := by
  have hbelow : ∀ i, i < d + m → SetLang.push ys st i = SetLang.push ys st' i := by
    intro i hi
    by_cases hlt : i < m
    · rw [push_of_lt _ _ hlt, push_of_lt _ _ hlt]
    · obtain ⟨k, rfl⟩ := Nat.exists_eq_add_of_le (Nat.not_lt.1 hlt)
      rw [push_add, push_add]
      exact h.1 k (by omega)
  have hshift : ∀ (st : Nat → V) (i : Nat), SetLang.push ys st (d + m + i) = st (d + i) := fun st i => by
    rw [show d + m + i = m + (d + i) by omega, push_add]
  refine ⟨hbelow, fun j => ?_⟩
  simp only [hshift]
  exact h.2 j

namespace Rebuilder

theorem respects_instantiation (hes : ∀ e ∈ es, e.factory = F) :
    (instantiation F es).Respects s nodes (Formula.Replaced (Instantiated es) F nodes s) := by
  refine respects_replaced rfl (fun _ _ _ _ _ => rfl) (fun n x u o t d => ?_) fun n i u o t d => ?_
  · refine (Build.succeeds_identifier (.free · x o) (fun _ => rfl) (fun _ => rfl) fun _ => trivial).mono ?_
    rintro _ t' ⟨hgrown, hfactory, n', rfl⟩
    exact ⟨hgrown, hfactory, .free⟩
  · change Succeeds (ite (i < d) _ _) t _
    split_ifs with hlt
    · refine (Build.succeeds_identifier (.bound · i o) (fun _ => rfl) (fun _ => rfl) fun _ => trivial).mono ?_
      rintro _ t' ⟨hgrown, hfactory, n', rfl⟩
      exact ⟨hgrown, hfactory, .inner hlt⟩
    · obtain ⟨j, rfl⟩ := Nat.exists_eq_add_of_le (Nat.not_lt.1 hlt)
      rw [Nat.add_sub_cancel_left]
      split
      next e he =>
        have hmem : e ∈ es := List.mem_reverse.1 (List.mem_of_getElem? he)
        exact Succeeds.pure ⟨.refl t, hes e hmem, .replaced he⟩
      next hnone =>
        rw [List.getElem?_eq_none_iff, List.length_reverse] at hnone
        obtain ⟨k, rfl⟩ := Nat.exists_eq_add_of_le hnone
        rw [show d + (es.length + k) - es.length = d + k by omega, ← Nat.add_assoc]
        refine (Build.succeeds_identifier (.bound · (d + k) o) (fun _ => rfl) (fun _ => rfl)
          fun _ => trivial).mono ?_
        rintro _ t' ⟨hgrown, hfactory, n', rfl⟩
        exact ⟨hgrown, hfactory, .outer⟩

end Rebuilder

namespace Instantiated

/-- Replacements that mean the same wherever they are put make up for values on the stack. -/
theorem offsets {V W : Type u} {n : Nat} {s₀ : Store} (M : Operators V W) (v : String → V) (xs : Fin n → V)
    (hlen : es.length = n) (hxs : ∀ (i : Fin n) e, es[i.val]? = some e → ∀ st, e.meaning M t v st = xs i)
    (hdecls : ∀ {d : Nat} b, .decl b ∈ nodes d → b.type? s = b.type? s₀) :
    Offsets M (Formula.Replaced (Instantiated es) F nodes s t) s₀ t v v (Inserted xs) where
  identifier d g g' st st' hid h hst := by
    cases g with
    | expr e =>
      obtain ⟨e', rfl, hleaf⟩ := h.leaf e rfl hid
      cases hleaf with
      | free => simp only [Formula.meaning, Expr.meaning]
      | inner hlt => simp only [Formula.meaning, Expr.meaning, hst.1 _ hlt]
      | @replaced j m u _ he =>
        have hj : j < n := by
          have hlt := (List.getElem?_eq_some_iff.1 he).1
          rwa [List.length_reverse, hlen] at hlt
        -- the last replacement stands for the innermost declaration
        have hrev : es[(Fin.rev ⟨j, hj⟩).val]? = some e' := by
          rw [List.getElem?_reverse (hlen ▸ hj)] at he
          rw [Fin.val_rev, ← he, hlen, Nat.sub_sub, Nat.add_comm 1 j]
        simp only [Formula.meaning, Expr.meaning, hst.2 j, push_of_lt _ _ hj, hxs _ e' hrev]
      | @outer j =>
        simp only [Formula.meaning, Expr.meaning]
        rw [Nat.add_assoc, hst.2, hlen, push_add]
    | _ => exact hid.elim
  decl d b b' h := by
    obtain ⟨b', ⟨⟩, -, htype⟩ := h.decl b rfl
    rw [htype, hdecls b h.source]
  push d m ys st st' hst := hst.push ys

variable {f g : Formula} {is : List Nat} {n : Node} {i j : Nat} {u : Option Ty}

/-! What has become of a bound identifier, in the three ranges of its index. -/

theorem at?_inner (h : f.Rebuilt (Formula.Replaced (Instantiated es) F nodes s t) 0 g)
    (hi : f.at? is = some (.expr (.bound n i u))) (hlt : i < f.declaredAlong is) :
    ∃ n' u', g.at? is = some (.expr (.bound n' i u')) := by
  obtain ⟨g', hg', hrebuilt⟩ := h.at? hi
  obtain ⟨e', rfl, hleaf⟩ := hrebuilt.node.leaf _ rfl trivial
  rw [Nat.zero_add] at hleaf
  generalize f.declaredAlong is = d at hleaf hlt
  cases hleaf with
  | inner _ => exact ⟨_, _, hg'⟩
  | replaced _ => omega
  | outer => omega

theorem at?_replaced (h : f.Rebuilt (Formula.Replaced (Instantiated es) F nodes s t) 0 g)
    (hi : f.at? is = some (.expr (.bound n (f.declaredAlong is + j) u))) {e : Expr}
    (he : es.reverse[j]? = some e) : g.at? is = some (.expr e) := by
  obtain ⟨g', hg', hrebuilt⟩ := h.at? hi
  obtain ⟨e', rfl, hleaf⟩ := hrebuilt.node.leaf _ rfl trivial
  rw [Nat.zero_add] at hleaf
  generalize f.declaredAlong is = d at hleaf
  generalize hk : d + j = k at hleaf
  have hj := (List.getElem?_eq_some_iff.1 he).1
  rw [List.length_reverse] at hj
  cases hleaf with
  | inner _ => omega
  | replaced he' =>
    obtain rfl := Nat.add_left_cancel hk
    rw [← Option.some_inj.1 (he'.symm.trans he)]
    exact hg'
  | outer => omega

theorem at?_outer (h : f.Rebuilt (Formula.Replaced (Instantiated es) F nodes s t) 0 g)
    (hi : f.at? is = some (.expr (.bound n (f.declaredAlong is + es.length + j) u))) :
    ∃ n' u', g.at? is = some (.expr (.bound n' (f.declaredAlong is + j) u')) := by
  obtain ⟨g', hg', hrebuilt⟩ := h.at? hi
  obtain ⟨e', rfl, hleaf⟩ := hrebuilt.node.leaf _ rfl trivial
  rw [Nat.zero_add] at hleaf
  generalize f.declaredAlong is = d at hleaf ⊢
  generalize hk : d + es.length + j = k at hleaf
  cases hleaf with
  | inner _ => omega
  | replaced he =>
    have hlt := (List.getElem?_eq_some_iff.1 he).1
    rw [List.length_reverse] at hlt
    omega
  | @outer j' =>
    obtain rfl : j' = j := by omega
    exact ⟨_, _, hg'⟩

/-- No identifier is left that refers to the declarations that were around. -/
theorem boundBelow (h : f.Rebuilt (Formula.Replaced (Instantiated es) F nodes s t) 0 g)
    (hfree : ∀ e ∈ es, ∃ n x u, e = .free n x u) (hf : f.BoundBelow es.length) : g.BoundBelow 0 := by
  intro is n i u hi
  have hleaf : ∀ d k k', k.IsIdentifier → Formula.Replaced (Instantiated es) F nodes s t d k k' →
      k'.parts = [] := by
    intro d k k' hid hk
    cases k with
    | expr e =>
      obtain ⟨e', rfl, hleaf⟩ := hk.leaf e rfl hid
      cases hleaf with
      | replaced he =>
        obtain ⟨_, _, _, rfl⟩ := hfree e' (List.mem_reverse.1 (List.mem_of_getElem? he))
        rfl
      | _ => rfl
    | _ => exact hid.elim
  obtain ⟨hdeclared, k, hk, hrebuilt⟩ := h.exists_at? hleaf hi
  rw [Nat.zero_add] at hrebuilt
  rw [Nat.zero_add, hdeclared]
  have hid := hrebuilt.isIdentifier trivial
  cases k with
  | expr e =>
    obtain ⟨e', ⟨⟩, hleaf⟩ := hrebuilt.node.leaf e rfl hid
    generalize hd : f.declaredAlong is = d at hleaf
    cases hleaf with
    | inner hlt => exact hlt
    | replaced he =>
      obtain ⟨_, _, _, ⟨⟩⟩ := hfree _ (List.mem_reverse.1 (List.mem_of_getElem? he))
    | outer =>
      have hlt := hf is _ _ _ hk
      omega
  | _ => exact hid.elim

end Instantiated

/-- What a predicate has become of another one when names were put for the innermost declarations around it:
bound identifiers inside stay, the last name stands for the innermost declaration, and identifiers of
declarations further out are lowered by the number of names. -/
structure Pred.Instantiates (p : Pred) (names : List String) (q : Pred) : Prop where
  inner : ∀ is n i u, (Formula.pred p).at? is = some (.expr (.bound n i u)) →
    i < (Formula.pred p).declaredAlong is → ∃ n' u', (Formula.pred q).at? is = some (.expr (.bound n' i u'))
  replaced : ∀ is n j u x,
    (Formula.pred p).at? is = some (.expr (.bound n ((Formula.pred p).declaredAlong is + j) u)) →
    names.reverse[j]? = some x → ∃ n' u', (Formula.pred q).at? is = some (.expr (.free n' x u'))
  outer : ∀ is n j u, (Formula.pred p).at? is =
      some (.expr (.bound n ((Formula.pred p).declaredAlong is + names.length + j) u)) →
    ∃ n' u', (Formula.pred q).at? is = some (.expr (.bound n' ((Formula.pred p).declaredAlong is + j) u'))
  boundBelow : (Formula.pred p).BoundBelow names.length → (Formula.pred q).BoundBelow 0

namespace Assignment

variable {a : Assignment}

def Primed (F : Factory) (x : String) (e : Expr) : Prop := ∃ n u, e = .free n (primedName x) u ∧ e.factory = F

theorem exists_names (hmoves : Session.Moves .empty ∅ s held) (ha : .assignment a ∈ held) :
    ∃ xs : List String, a.targets.map Expr.freeName? = xs.map some := by
  have htargets := ((hmoves.accepted _ ha).targets a rfl).2
  generalize a.targets = targets at htargets
  induction targets with
  | nil => exact ⟨[], rfl⟩
  | cons e targets ih =>
    rw [List.forall_mem_cons] at htargets
    obtain ⟨x, hx⟩ := htargets.1
    obtain ⟨xs, hxs⟩ := ih htargets.2
    exact ⟨x :: xs, by rw [List.map_cons, List.map_cons, hx, hxs]⟩

theorem succeeds_primedTargets {xs : List String} (hxs : a.targets.map Expr.freeName? = xs.map some) (t : Store) :
    Succeeds a.primedTargets t fun es t' => t.Grown t' ∧ List.Forall₂ (Primed a.factory) xs es := by
  unfold primedTargets
  generalize a.targets = targets at hxs
  induction targets generalizing t xs with
  | nil =>
    obtain rfl := List.map_eq_nil_iff.1 hxs.symm
    exact Succeeds.pure ⟨.refl t, .nil⟩
  | cons e targets ih =>
    cases xs with
    | nil => cases hxs
    | cons x xs =>
      rw [List.map_cons, List.map_cons, List.cons.injEq] at hxs
      rw [List.mapM_cons]
      have hfirst : Succeeds (do a.factory.free (primedName (e.freeName?.getD "")) (e.type? (← get))) t
          fun e' t' => t.Grown t' ∧ Primed a.factory x e' := by
        refine Succeeds.bind_run (run_get t) ?_
        rw [hxs.1]
        refine (Build.succeeds_identifier (.free · (primedName x) (e.type? t)) (fun _ => rfl) (fun _ => rfl)
          fun _ => trivial).mono ?_
        rintro _ t' ⟨hgrown, hfactory, n, rfl⟩
        exact ⟨hgrown, n, _, rfl, hfactory⟩
      refine Rebuilder.succeeds_bind hfirst fun e' t₁ _ he' => ?_
      refine Rebuilder.succeeds_bind (ih t₁ hxs.2) fun es t₂ _ hes => ?_
      exact Succeeds.pure ⟨.refl t₂, .cons he' hes⟩

theorem run_requireTyped (h : a.isTyped s) : a.requireTyped.run s = (.ok (), s) := by
  have hget : (get : Derive Store).run s = (.ok s, s) := rfl
  rw [requireTyped, run_bind_ok hget, h]
  rfl

section

variable {ds : List Declaration} {p q : Pred} {xs : List String}

theorem mem_nodes_condition (hsuch : a.assigned = .such ds p) : .pred p ∈ (Formula.assignment a).nodes := by
  refine Formula.nodes_closed (Formula.mem_nodes_self _) ?_
  rw [Formula.components, hsuch]
  exact List.mem_append_left _ (List.mem_append_right _ List.mem_cons_self)

/-- The condition is rebuilt over the identifiers for the values after the assignment. -/
theorem succeeds_beforeAfter (hmoves : Session.Moves .empty ∅ s held) (ha : .assignment a ∈ held)
    (htyped : a.isTyped s) (hF : (Formula.assignment a).OfFactory a.factory) (hsuch : a.assigned = .such ds p)
    (hxs : a.targets.map Expr.freeName? = xs.map some) :
    Succeeds a.beforeAfter s fun q t => ∃ t₁ es, s.Grown t₁ ∧ List.Forall₂ (Primed a.factory) xs es ∧
      (Formula.pred p).Rebuilt
        (Formula.Replaced (Instantiated es) a.factory (fun _ => (Formula.pred p).nodes) t₁ t) 0 (.pred q) := by
  have hmem := mem_nodes_condition hsuch
  have hfactory : p.factory = a.factory := hmoves.madeBy ha hF _ hmem _ rfl
  refine Succeeds.bind_run (run_requireTyped htyped) (Rebuilder.succeeds_lift ?_)
  refine (succeeds_primedTargets hxs s).bind fun es t₁ h => ?_
  obtain ⟨hgrown, hes⟩ := h
  have hesF : ∀ e ∈ es, e.factory = a.factory := fun e he => by
    obtain ⟨x, -, n, u, -, hn⟩ := forall₂_exists_right hes.flip he
    exact hn
  have hremakable : ∀ g ∈ (Formula.pred p).nodes, g.Remakable a.factory t₁ := fun g hg =>
    (hmoves.remakable ha hF g (Formula.nodes_trans hmem hg)).mono hgrown.later
  rw [hsuch]
  refine Succeeds.bind_run (run_get t₁) ?_
  rw [hfactory]
  refine (Rebuilder.succeeds_pred (Rebuilder.respects_instantiation hesF) (.of_closedSet (Formula.closedSet_nodes _))
    (fun hg => (hremakable _ hg).makable) p 0 t₁ (.refl t₁) (Formula.mem_nodes_self _)).mono fun q t h => ?_
  exact ⟨t₁, es, hgrown, hes, h.2 t (.refl t)⟩

theorem instantiates_of_rebuilt (hes : List.Forall₂ (Primed F) xs es)
    (h : (Formula.pred p).Rebuilt (Formula.Replaced (Instantiated es) F nodes s t) 0 (.pred q)) :
    p.Instantiates (xs.map primedName) q := by
  have hlen : (xs.map primedName).length = es.length := (List.length_map _).trans hes.length_eq
  have hfree : ∀ e ∈ es, ∃ n x u, e = .free n x u := fun e he => by
    obtain ⟨x, -, n, u, rfl, -⟩ := forall₂_exists_right hes.flip he
    exact ⟨n, _, u, rfl⟩
  refine ⟨fun _ _ _ _ hi hlt => Instantiated.at?_inner h hi hlt, fun is n j u y hi hy => ?_,
    fun is n j u hi => Instantiated.at?_outer h (hlen ▸ hi),
    fun hbelow => Instantiated.boundBelow h hfree (hlen ▸ hbelow)⟩
  rw [← List.map_reverse, List.getElem?_map, Option.map_eq_some_iff] at hy
  obtain ⟨x, hx, rfl⟩ := hy
  obtain ⟨e, he, n', u', rfl, -⟩ := forall₂_exists_getElem? (List.forall₂_reverse_iff.2 hes) hx
  exact ⟨n', u', Instantiated.at?_replaced h hi he⟩

theorem meaning_of_rebuilt {t₁ : Store} (hes : List.Forall₂ (Primed F) xs es)
    (h : (Formula.pred p).Rebuilt (Formula.Replaced (Instantiated es) F nodes t₁ t) 0 (.pred q))
    (hdecls : ∀ {d : Nat} b, .decl b ∈ nodes d → b.type? t₁ = b.type? s) {V W : Type u} (M : Operators V W)
    (v : String → V)
    (st : Nat → V) : q.meaning M t v st =
      p.meaning M s v (push (fun i : Fin xs.length => v (primedName xs[i])) st) := by
  have hvalues : ∀ (i : Fin xs.length) e, es[i.val]? = some e → ∀ st,
      e.meaning M t v st = v (primedName xs[i]) := by
    intro i e he st
    obtain ⟨x, hx, n, u, rfl, -⟩ := forall₂_exists_getElem? hes.flip he
    obtain ⟨_, rfl⟩ := List.getElem?_eq_some_iff.1 hx
    simp only [Expr.meaning, Fin.getElem_fin]
  have hmeaning := h.meaning (Instantiated.offsets M v _ hes.length_eq.symm hvalues hdecls) (inserted_zero _ st)
  simpa only [Formula.meaning, Option.some.injEq, Sum.inr.injEq] using hmeaning.symm

/-- The relation between the values before and after a typed assignment of values that satisfy a condition is the
condition, where the declared identifiers stand for the values after. -/
theorem beforeAfter_correct (hmoves : Session.Moves .empty ∅ s held) (ha : .assignment a ∈ held)
    (htyped : a.isTyped s) (hF : (Formula.assignment a).OfFactory a.factory)
    (hsuch : a.assigned = .such ds p) :
    ∃ xs : List String, a.targets.map Expr.freeName? = xs.map some ∧ xs.length = ds.length ∧
      ∃ q t, a.beforeAfter.run s = (.ok q, t) ∧ p.Instantiates (xs.map primedName) q ∧
        ∀ (V W : Type u) (M : Operators V W) (v : String → V) (st : Nat → V), q.meaning M t v st =
          p.meaning M s v (push (fun i : Fin xs.length => v (primedName xs[i])) st) := by
  have hsound := hmoves.sound
  obtain ⟨xs, hxs⟩ := exists_names hmoves ha
  have hcount : xs.length = ds.length := by
    have hfits := (hsound.fits _ ha).2
    rw [hsuch] at hfits
    have hlen := congrArg List.length hxs
    rw [List.length_map, List.length_map] at hlen
    exact hlen.symm.trans hfits
  obtain ⟨q, t, hrun, t₁, es, hgrown, hes, hrebuilt⟩ := succeeds_beforeAfter hmoves ha htyped hF hsuch hxs
  have hheld : (Formula.pred p).nodes ⊆ held := fun g hg =>
    Formula.nodes_subset hsound.closed ha (Formula.nodes_trans (mem_nodes_condition hsuch) hg)
  have hdecls : ∀ b, .decl b ∈ (Formula.pred p).nodes → b.type? t₁ = b.type? s := fun b hb =>
    hgrown.type? b.slot (hsound.slot_lt (hheld hb) rfl)
  exact ⟨xs, hxs, hcount, q, t, hrun, instantiates_of_rebuilt hes hrebuilt, fun V W M v st =>
    meaning_of_rebuilt hes hrebuilt hdecls M v st⟩

end

/-- `∃z·z = x'` below the declarations of `x'` and `y'` -/
def someFirst : Pred :=
  .quantified ⟨bareFactory, 1⟩ .exist [⟨"z", 3⟩] (.comparison ⟨bareFactory, 0⟩ .eq
    (.bound ⟨bareFactory, 1⟩ 0 (some .boolean)) (.bound ⟨bareFactory, 2⟩ 2 (some .boolean)))

def firstTarget : Expr := .free ⟨bareFactory, 4⟩ "x" (some .boolean)

def secondTarget : Expr := .free ⟨bareFactory, 5⟩ "y" (some .boolean)

def suchSomeFirst : Assignment :=
  ⟨⟨bareFactory, 2⟩, [firstTarget, secondTarget], .such [⟨"x'", 8⟩, ⟨"y'", 9⟩] someFirst⟩

theorem reached_suchSomeFirst :
    ∃ held, Session.Moves .empty ∅ ⟨.replicate 10 (some .boolean), .replicate 3 true, 0⟩ held ∧
      .assignment suchSomeFirst ∈ held := by
  obtain ⟨held₁, -, hz, h₁⟩ := Session.Moves.empty.declare "z" (some .boolean)
  obtain ⟨held₂, hsub₂, hinner, h₂⟩ := h₁.makeLeaf bareFactory (.bound ⟨bareFactory, 1⟩ 0 (some .boolean)) _
    ⟨.replicate 2 (some .boolean), #[], 0⟩ rfl trivial rfl
  obtain ⟨held₃, hsub₃, houter, h₃⟩ := h₂.makeLeaf bareFactory (.bound ⟨bareFactory, 2⟩ 2 (some .boolean)) _
    ⟨.replicate 3 (some .boolean), #[], 0⟩ rfl trivial rfl
  obtain ⟨held₄, hsub₄, heq, h₄⟩ := h₃.makePred bareFactory (.comparison ⟨bareFactory, 0⟩ .eq _ _) _
    ⟨.replicate 3 (some .boolean), #[true], 0⟩
    (List.forall_mem_cons.2 ⟨hsub₃ hinner, List.forall_mem_singleton.2 houter⟩) trivial rfl
  obtain ⟨held₅, hsub₅, hsome, h₅⟩ := h₄.makePred bareFactory (.quantified ⟨bareFactory, 1⟩ .exist [⟨"z", 0⟩] _)
    someFirst ⟨.replicate 4 (some .boolean), #[true, true], 0⟩
    (List.forall_mem_cons.2 ⟨hsub₄ (hsub₃ (hsub₂ hz)), List.forall_mem_singleton.2 heq⟩) trivial rfl
  obtain ⟨held₆, hsub₆, hx, h₆⟩ := h₅.makeLeaf bareFactory firstTarget firstTarget
    ⟨.replicate 5 (some .boolean), #[true, true], 0⟩ rfl trivial rfl
  obtain ⟨held₇, hsub₇, hy, h₇⟩ := h₆.makeLeaf bareFactory secondTarget secondTarget
    ⟨.replicate 6 (some .boolean), #[true, true], 0⟩ rfl trivial rfl
  obtain ⟨held₈, hsub₈, hx', h₈⟩ := h₇.declare "x'" (some .boolean)
  obtain ⟨held₉, hsub₉, hy', h₉⟩ := h₈.declare "y'" (some .boolean)
  obtain ⟨held, -, ha, h⟩ := h₉.makeAssignment bareFactory
    ⟨⟨bareFactory, 2⟩, [firstTarget, secondTarget], .such [⟨"x'", 6⟩, ⟨"y'", 7⟩] someFirst⟩ suchSomeFirst
    ⟨.replicate 10 (some .boolean), .replicate 3 true, 0⟩ (by
      simp only [Formula.components, Assigned.components, List.map_cons, List.map_nil, List.cons_append,
        List.nil_append, List.forall_mem_cons, List.not_mem_nil, false_imp_iff, implies_true, and_true]
      exact ⟨hsub₉ hx', hy', hsub₉ (hsub₈ (hsub₇ (hsub₆ hsome))), hsub₉ (hsub₈ (hsub₇ hx)), hsub₉ (hsub₈ hy)⟩)
    rfl
  exact ⟨held, h, ha⟩

/-- The identifier below the quantifier is read as the first target after the assignment. -/
theorem beforeAfter_correct_suchSomeFirst : ∃ s held, Session.Moves .empty ∅ s held ∧
    .assignment suchSomeFirst ∈ held ∧ suchSomeFirst.isTyped s ∧
    (Formula.assignment suchSomeFirst).OfFactory suchSomeFirst.factory ∧
    ∃ q t, suchSomeFirst.beforeAfter.run s = (.ok q, t) ∧ (Formula.pred q).BoundBelow 0 ∧
      ∀ (V W : Type) (M : Operators V W) (v : String → V) (st : Nat → V), q.meaning M t v st =
        M.quantifier .exist [some .boolean] fun zs => M.comparison .eq (zs 0) (v "x'") := by
  obtain ⟨held, hreached, ha⟩ := reached_suchSomeFirst
  have hfactory : (Formula.assignment suchSomeFirst).OfFactory bareFactory :=
    Formula.ofFactory_of_replicate 7 rfl rfl
  have hbelow : (Formula.pred someFirst).BoundBelow 2 := by
    have hindex : ∀ {k i n u}, i < k → (Formula.expr (.bound n i u)).BoundBelow k := fun hlt =>
      Formula.boundBelow_iff.2 ⟨fun _ _ _ h => by cases h; exact hlt, nofun⟩
    refine Formula.boundBelow_iff.2 ⟨nofun, List.forall_mem_cons.2 ⟨Formula.boundBelow_iff.2 ⟨nofun, nofun⟩, ?_⟩⟩
    refine List.forall_mem_singleton.2 (Formula.boundBelow_iff.2 ⟨nofun, List.forall_mem_cons.2 ⟨?_, ?_⟩⟩)
    · exact hindex (by decide)
    · exact List.forall_mem_singleton.2 (hindex (by decide))
  obtain ⟨xs, hxs, -, q, t, hrun, hinst, hmeaning⟩ :=
    beforeAfter_correct.{0} hreached ha rfl hfactory rfl
  obtain rfl : xs = ["x", "y"] := List.map_injective_iff.2 (Option.some_injective _) hxs.symm
  refine ⟨_, held, hreached, ha, rfl, hfactory, q, t, hrun, hinst.boundBelow hbelow, ?_⟩
  intro V W M v st
  rw [hmeaning]
  rfl

end Assignment
end SetLang
