import SetLang.Proofs.Identifiers
import SetLang.Proofs.Typing.Instantiation
import SetLang.Proofs.Typing.Making

/-! Types of the predicates of an assignment. When a check has accepted an assignment, its feasibility is typed and
known where the inferred names are, and the relation between the values before and after where the values after
are known as well. -/

namespace SetLang

open Assignment

variable {s t : Store} {env : Environment} {a : Assignment} {e e' : Expr} {x : String} {xs : List String} {T : Ty}

namespace Environment

/-- The environment that also knows the values after an assignment to the names. -/
def withPrimed (env : Environment) (xs : List String) : Environment :=
  env.insertAll (xs.filterMap fun x => (env.get? x).map (primedName x, ·))

def Unprimed (env : Environment) : Prop := ∀ x, env.get? (primedName x) = none

theorem get?_withPrimed (hx : x ∈ xs) (hT : env.get? x = some T) :
    (env.withPrimed xs).get? (primedName x) = some T := by
  have hentry : (primedName x, T) ∈ xs.filterMap fun x => (env.get? x).map (primedName x, ·) :=
    List.mem_filterMap.2 ⟨x, hx, by rw [hT, Option.map_some]⟩
  rw [withPrimed, get?_insertAll_of_forall fun u hu => ?_, if_pos (List.mem_map_of_mem hentry)]
  obtain ⟨y, -, hy⟩ := List.mem_filterMap.1 hu
  obtain ⟨U, hU, heq⟩ := Option.map_eq_some_iff.1 hy
  obtain ⟨hname, rfl⟩ := Prod.mk.inj heq
  obtain rfl := (String.append_left_inj _).1 hname
  exact Option.some_inj.1 (hU.symm.trans hT)

theorem Unprimed.get?_withPrimed_of_some (h : env.Unprimed) (hT : env.get? x = some T) :
    (env.withPrimed xs).get? x = some T := by
  have hnot : x ∉ (xs.filterMap fun x => (env.get? x).map (primedName x, ·)).map Prod.fst := by
    intro hmem
    obtain ⟨⟨_, U⟩, hentry, rfl⟩ := List.mem_map.1 hmem
    obtain ⟨y, -, hy⟩ := List.mem_filterMap.1 hentry
    obtain ⟨V, -, heq⟩ := Option.map_eq_some_iff.1 hy
    obtain ⟨hname, -⟩ := Prod.mk.inj heq
    rw [← hname, h y] at hT
    cases hT
  have hnone : ∀ u, (x, u) ∈ xs.filterMap (fun x => (env.get? x).map (primedName x, ·)) → u = T := fun u hu =>
    absurd (List.mem_map_of_mem hu) hnot
  rw [withPrimed, get?_insertAll_of_forall hnone, if_neg hnot, hT]

end Environment

namespace Formula.Known

variable (h : (Formula.assignment a).Known s env) {es : List Expr} {set : Expr} {ds : List Declaration} {p : Pred}

include h

theorem assignment : (Formula.assignment a).Settled s := (h _ List.mem_cons_self).settled

theorem target (he : e ∈ a.targets) : (Formula.expr e).Known s env := fun o ho => by
  refine h o (List.mem_cons_of_mem _ (List.mem_append_right _ ?_))
  rw [Expr.allOccurrences_eq]
  exact List.mem_flatMap.2 ⟨e, he, ho⟩

theorem assigned : ∀ o ∈ a.assigned.occurrences, o.Known s env := fun o ho =>
  h o (List.mem_cons_of_mem _ (List.mem_append_left _ ho))

theorem value (ha : a.assigned = .values es) (he : e ∈ es) : (Formula.expr e).Known s env := fun o ho => by
  refine h.assigned o ?_
  rw [ha, Assigned.occurrences, Expr.allOccurrences_eq]
  exact List.mem_flatMap.2 ⟨e, he, ho⟩

theorem member (ha : a.assigned = .member set) : (Formula.expr set).Known s env := fun o ho =>
  h.assigned o (ha ▸ ho)

theorem declaration {b : Declaration} (ha : a.assigned = .such ds p) (hb : b ∈ ds) :
    Occurrence.Known s env ⟨[], .decl b⟩ :=
  h.assigned _ (ha ▸ List.mem_append_left _ (List.mem_map_of_mem hb))

theorem condition (ha : a.assigned = .such ds p) : ∀ o ∈ p.occurrences ds.reverse, o.Known s env := fun o ho =>
  h.assigned o (ha ▸ List.mem_append_right _ ho)

end Formula.Known

namespace Assignment

theorem succeeds_feasibility (h : (Formula.assignment a).Known s env)
    (hmade : ∀ g ∈ (Formula.assignment a).nodes, g.Remakable a.factory s) :
    Succeeds a.feasibility s fun p t => s.Later t ∧ (Formula.pred p).Known t env := by
  have hsettled := h.assignment
  have hobeys : s.typing.TypesAssigned a.targets a.assigned := hsettled.obeys
  have hcount := hsettled.fits.2
  obtain ⟨target, htarget⟩ := List.exists_mem_of_ne_nil _
    ((hmade _ (Formula.mem_nodes_self _)).accepted.targets a rfl).1
  have hfactory : ∀ g ∈ a.assigned.components, ∀ f, g.factory? = some f → f = a.factory := fun g hg =>
    (hmade g (Formula.nodes_closed (Formula.mem_nodes_self _) (List.mem_append_left _ hg))).factory
  refine Succeeds.bind_run (run_requireTyped hsettled.typed)
    (Succeeds.bind_run (rfl : (get : Derive Store).run s = (.ok s, s)) (Rebuilder.succeeds_lift ?_))
  cases ha : a.assigned with
  | values es => exact Factory.succeeds_known_literal _ true s env
  | member set =>
    rw [ha] at hobeys hfactory
    have hset := h.member ha
    refine (Factory.succeeds_known_emptySet hset (hobeys target htarget)).bind fun empty t₁ h₁ => ?_
    obtain ⟨hempty, hlater, hknown, htype⟩ := h₁
    refine (Factory.succeeds_known_comparison .ne (hset.mono hlater) hknown
      (hfactory _ List.mem_cons_self _ rfl) hempty ?_).mono fun p t h₂ => ⟨hlater.trans h₂.2.1, h₂.2.2⟩
    have hkept : t₁.typing.ofExpr set = s.typing.ofExpr set :=
      (Store.Sound.typing_slot_eq hlater hset.expr.typed rfl).symm
    rw [htype, hkept]
    exact Comparison.holds_eq _
  | such ds p =>
    rw [ha] at hcount hfactory
    have hne : ds ≠ [] := List.ne_nil_of_length_pos (hcount ▸ List.length_pos_of_mem htarget)
    exact Factory.succeeds_known_exist hne (hfactory (.pred p) (List.mem_append_right _ List.mem_cons_self) _ rfl)
      (fun b hb => h.declaration ha hb) (h.condition ha)

def targetNames (a : Assignment) : List String := a.targets.filterMap Expr.freeName?

def after (a : Assignment) (env : Environment) : Environment := env.withPrimed a.targetNames

theorem known_after {f : Formula} (h : f.Known s env) (henv : env.Unprimed) : f.Known s (a.after env) :=
  fun o ho => (h o ho).extend fun _ _ => henv.get?_withPrimed_of_some

structure Primes (F : Factory) (s : Store) (env : Environment) (e e' : Expr) : Prop where
  source : (Formula.expr e).isTyped s
  name : ∃ n x u, e.freeName? = some x ∧ e' = .free n (primedName x) u
  factory : e'.factory = F
  known : (Formula.expr e').Known s env
  type : s.typing.ofExpr e' = s.typing.ofExpr e

theorem Primes.mono {F : Factory} (h : Primes F s env e e') (k : s.Later t) : Primes F t env e e' := by
  refine ⟨Formula.isTyped_mono h.source k, h.name, h.factory, h.known.mono k, ?_⟩
  exact (Store.Sound.typing_slot_eq k h.known.expr.typed rfl).symm.trans
    (h.type.trans (Store.Sound.typing_slot_eq k h.source rfl))

theorem succeeds_primedTarget {F : Factory} (he : (Formula.expr e).Known s env) (hx : e.freeName? = some x)
    (hin : x ∈ xs) (henv : env.Unprimed) :
    Succeeds (do F.free (primedName (e.freeName?.getD "")) (e.type? (← get))) s fun e' t =>
      s.Later t ∧ Primes F t (env.withPrimed xs) e e' := by
  refine Succeeds.bind_run (run_get s) ?_
  rw [hx]
  cases e with
  | free n y u =>
    obtain rfl := Option.some_inj.1 hx
    have hknown := he _ List.mem_cons_self
    obtain ⟨V, hV⟩ := Formula.exists_type? hknown.settled.typed rfl
    have hgiven : (Expr.free n y u).type? s = (Expr.free n y u).given? s := by
      rw [Expr.given?, show (Expr.free n y u).type? s = some V from hV, Option.some_or]
    refine ((Build.succeeds_retyped (.free · (primedName y) ((Expr.free n y u).type? s)) (fun _ => rfl)
      (fun _ => trivial) (fun _ => hgiven) trivial hknown.settled).and_yields (Build.yields_node F _)).mono ?_
    rintro _ t ⟨⟨hgrown, hretyped⟩, n', rfl, -⟩
    have hslot : t.typing.slot n'.slot = s.typing.slot n.slot := hretyped.type.typing hknown.settled.typed rfl rfl
    have htyped := Formula.isTyped_mono hknown.settled.typed hgrown.later
    refine ⟨hgrown.later, htyped, ⟨n', y, _, rfl, rfl⟩, hretyped.factory _ rfl, List.forall_mem_singleton.2
      ⟨hretyped.settled, (fun _ _ _ hn => by cases hn), ?_, fun U hU z hz => ?_⟩, ?_⟩
    · rintro _ _ _ ⟨⟩
      obtain ⟨T, hT, heq⟩ := hknown.free n y u rfl
      exact ⟨T, Environment.get?_withPrimed hin hT, hslot.trans heq⟩
    · obtain ⟨W, hW, hgivens⟩ := hretyped.type.exists_type? hU
      obtain ⟨T, hT, heq⟩ := hknown.givens W hW z (hgivens ▸ hz)
      exact ⟨T, henv.get?_withPrimed_of_some hT, heq⟩
    · exact hslot.trans (Store.Sound.typing_slot_eq hgrown.later hknown.settled.typed rfl)
  | _ => cases hx

/-- Each target has a known identifier for its value afterwards. -/
theorem succeeds_known_primedTargets (h : (Formula.assignment a).Known s env) (henv : env.Unprimed)
    (htargets : ∀ e ∈ a.targets, ∃ x, e.freeName? = some x) :
    Succeeds a.primedTargets s fun es t =>
      s.Later t ∧ List.Forall₂ (Primes a.factory t (a.after env)) a.targets es := by
  refine Build.succeeds_mapM (P := fun e e' s => Primes a.factory s (a.after env) e e')
    (fun _ _ _ _ k h => h.mono k) fun e he s' k => ?_
  obtain ⟨x, hx⟩ := htargets e he
  exact succeeds_primedTarget ((h.target he).mono k) hx (List.mem_filterMap.2 ⟨e, he, hx⟩) henv

/-- A conjunction of known predicates is known, and has the names of them. -/
theorem succeeds_known_conjunction {f : Factory} {ps : List Pred} (hne : ps ≠ [])
    (hps : ∀ p ∈ ps, (Formula.pred p).Known s env ∧ p.factory = f) :
    Succeeds (conjunction f ps) s fun q t => s.Later t ∧ (Formula.pred q).Known t env ∧
      ∀ x ∈ (Formula.pred q).freeNames, ∃ p ∈ ps, x ∈ (Formula.pred p).freeNames := by
  rcases ps with _ | ⟨p, _ | ⟨p', ps⟩⟩
  · exact absurd rfl hne
  · exact Succeeds.pure ⟨.refl s, (hps p List.mem_cons_self).1, fun x hx => ⟨p, List.mem_cons_self, hx⟩⟩
  · refine (Factory.succeeds_known_land (by simp) hps).mono ?_
    rintro _ t ⟨⟨n, rfl⟩, hlater, hknown⟩
    refine ⟨hlater, hknown, fun x hx => ?_⟩
    obtain ⟨m, u, o, ho, hm⟩ := Formula.mem_freeNames.1 hx
    rcases List.mem_cons.1 ho with rfl | ho
    · cases hm
    · rw [Pred.allOccurrences_eq] at ho
      obtain ⟨p, hp, ho⟩ := List.mem_flatMap.1 ho
      exact ⟨p, hp, Formula.mem_freeNames.2 ⟨m, u, o, ho, hm⟩⟩

/-- Free identifiers stand for values before the assignment, of those that it uses, or after. -/
def NamesOf (a : Assignment) (q : Pred) : Prop := ∀ x ∈ (Formula.pred q).freeNames,
  Expr.Found x a.used ∨ ∃ y ∈ a.targetNames, x = primedName y

theorem Primes.exists_name {F : Factory} (h : Primes F s env e e') (he : e ∈ a.targets)
    (hx : x ∈ (Formula.expr e').freeNames) : ∃ y ∈ a.targetNames, x = primedName y := by
  obtain ⟨n, y, u, hy, rfl⟩ := h.name
  obtain rfl := List.mem_singleton.1 hx
  exact ⟨y, List.mem_filterMap.2 ⟨e, he, hy⟩, rfl⟩

theorem freeNames_comparison {n : Node} {op : Comparison} {l r : Expr} :
    (Formula.pred (.comparison n op l r)).freeNames = (Formula.expr l).freeNames ++ (Formula.expr r).freeNames :=
  List.filterMap_append

section

variable {primed es : List Expr} {set : Expr} {ds : List Declaration} {p : Pred}

def Equates (a : Assignment) (s : Store) (env : Environment) (x : Expr × Expr) (p : Pred) : Prop :=
  (∃ n, p = .comparison n .eq x.1 x.2 ∧ n.factory = a.factory) ∧ (Formula.pred p).Known s (a.after env)

theorem succeeds_equates {v : Expr} (he' : Primes a.factory s (a.after env) e e')
    (hv : (Formula.expr v).Known s (a.after env)) (hfactory : v.factory = a.factory)
    (htype : s.typing.ofExpr e = s.typing.ofExpr v) (k : s.Later t) :
    Succeeds (a.factory.comparison .eq e' v) t fun p t' => t.Later t' ∧ a.Equates t' env (e', v) p := by
  have hkept : [e', v].map t.typing.ofExpr = [e', v].map s.typing.ofExpr :=
    k.map_ofExpr (List.forall_mem_cons.2 ⟨he'.known.expr.typed, List.forall_mem_singleton.2 hv.expr.typed⟩)
  simp only [List.map_cons, List.map_nil] at hkept
  refine (Factory.succeeds_known_comparison .eq (he'.known.mono k) (hv.mono k) he'.factory hfactory ?_).mono
    fun p t' hp => ⟨hp.2.1, hp.1, hp.2.2⟩
  rw [hkept, he'.type, htype]
  exact Comparison.holds_eq _

/-- The values after the assignment are those of the expressions. -/
theorem succeeds_known_equations (h : (Formula.assignment a).Known s env) (henv : env.Unprimed)
    (ha : a.assigned = .values es) (hne : a.targets ≠ []) (hes : ∀ e ∈ es, e.factory = a.factory)
    (hprimed : List.Forall₂ (Primes a.factory s (a.after env)) a.targets primed) :
    Succeeds (do conjunction a.factory (← (primed.zip es).mapM fun (x, e) => a.factory.comparison .eq x e)) s
      fun q t => s.Later t ∧ (Formula.pred q).Known t (a.after env) ∧ a.NamesOf q := by
  have hobeys : s.typing.TypesAssigned a.targets a.assigned := h.assignment.obeys
  have hcount := h.assignment.fits.2
  rw [ha] at hobeys hcount
  have hpairs : List.Forall₂ (fun e' v => ∃ e ∈ a.targets, Primes a.factory s (a.after env) e e' ∧
      s.typing.ofExpr e = s.typing.ofExpr v) primed es :=
    forall₂_join hprimed (List.forall₂_iff_zip.2 ⟨hcount, fun hx => hobeys _ hx⟩) fun e he _ _ hprime htype =>
      ⟨e, he, hprime, htype⟩
  refine (Build.succeeds_mapM (P := fun x p s => a.Equates s env x p) (fun _ _ _ _ k hp => ⟨hp.1, hp.2.mono k⟩)
    fun x hx s' k => ?_).bind fun ps t₁ h₁ => ?_
  · obtain ⟨e, he, hprime, htype⟩ := (List.forall₂_iff_zip.1 hpairs).2 hx
    have hv := (List.of_mem_zip hx).2
    exact succeeds_equates hprime (known_after (h.value ha hv) henv) (hes _ hv) htype k
  · obtain ⟨hlater, hps⟩ := h₁
    have hmem : ∀ p ∈ ps, ∃ x ∈ primed.zip es, a.Equates t₁ env x p := fun p hp =>
      forall₂_exists_right hps.flip hp
    have hzip : primed.zip es ≠ [] := List.ne_nil_of_length_pos <| by
      rw [List.length_zip, ← hpairs.length_eq, Nat.min_self, ← hprimed.length_eq]
      exact List.length_pos_of_ne_nil hne
    refine (succeeds_known_conjunction (ne_nil_of_forall₂ hps hzip) fun p hp => ?_).mono
      fun q t hq => ⟨hlater.trans hq.1, hq.2.1, fun x hx => ?_⟩
    · obtain ⟨x, -, ⟨n, rfl, hn⟩, hknown⟩ := hmem p hp
      exact ⟨hknown, hn⟩
    · obtain ⟨p, hp, hx⟩ := hq.2.2 x hx
      obtain ⟨y, hy, ⟨n, rfl, -⟩, -⟩ := hmem p hp
      rw [freeNames_comparison] at hx
      rcases List.mem_append.1 hx with hx | hx
      · obtain ⟨e, he, hprime, -⟩ := (List.forall₂_iff_zip.1 hpairs).2 hy
        exact .inr (hprime.exists_name he hx)
      · exact .inl (found_used (ha ▸ List.mem_map_of_mem (List.of_mem_zip hy).2) hx)

theorem succeeds_known_membership (h : (Formula.assignment a).Known s env) (henv : env.Unprimed)
    (ha : a.assigned = .member set) (hset : set.factory = a.factory) (he : e ∈ a.targets)
    (he' : Primes a.factory s (a.after env) e e') :
    Succeeds (a.factory.comparison .mem e' set) s fun q t => s.Later t ∧
      (Formula.pred q).Known t (a.after env) ∧ a.NamesOf q := by
  have hobeys : s.typing.TypesAssigned a.targets a.assigned := h.assignment.obeys
  rw [ha] at hobeys
  refine (Factory.succeeds_known_comparison .mem he'.known (known_after (h.member ha) henv)
    he'.factory hset ?_).mono ?_
  · rw [he'.type, hobeys e he]
    exact Comparison.holds_mem _
  · rintro _ t ⟨⟨n, rfl, -⟩, hlater, hknown⟩
    refine ⟨hlater, hknown, fun x hx => ?_⟩
    rw [freeNames_comparison] at hx
    rcases List.mem_append.1 hx with hx | hx
    · exact .inr (he'.exists_name he hx)
    · exact .inl (found_used (ha ▸ List.mem_cons_self) hx)

/-- The values after the assignment satisfy the condition. -/
theorem succeeds_known_condition (h : (Formula.assignment a).Known s env) (henv : env.Unprimed)
    (ha : a.assigned = .such ds p) (hp : p.factory = a.factory)
    (hmade : ∀ g ∈ (Formula.pred p).nodes, g.Remakable a.factory s)
    (hprimed : List.Forall₂ (Primes a.factory s (a.after env)) a.targets primed) :
    Succeeds (p.instantiate primed) s fun q t => s.Later t ∧
      (Formula.pred q).Known t (a.after env) ∧ a.NamesOf q := by
  have hobeys : s.typing.TypesAssigned a.targets a.assigned := h.assignment.obeys
  have hcount := h.assignment.fits.2
  rw [ha] at hobeys hcount
  have hstands : List.Forall₂ (Expr.StandsFor a.factory s (a.after env)) ds primed := by
    refine forall₂_join (List.forall₂_iff_zip.2 ⟨hcount, fun hx => hobeys _ hx⟩) hprimed
      fun e _ b e' htype hprime => ?_
    obtain ⟨n, x, u, -, hfree⟩ := hprime.name
    exact ⟨⟨n, _, u, hfree⟩, hprime.factory, hprime.known _ (e'.mem_occurrences_self []), hprime.type.trans htype⟩
  refine (Pred.succeeds_instantiate hp (h.condition ha) hmade hstands
    fun _ _ => henv.get?_withPrimed_of_some).mono fun q t hq => ⟨hq.1, hq.2.1, fun x hx => ?_⟩
  rcases hq.2.2 x hx with hx | ⟨e', he', hx⟩
  · exact .inl (found_used (ha ▸ List.mem_append_right _ List.mem_cons_self) hx)
  · obtain ⟨e, he, hprime⟩ := forall₂_exists_right hprimed.flip he'
    obtain ⟨n, y, u, hy, rfl⟩ := hprime.name
    exact .inr ⟨y, List.mem_filterMap.2 ⟨e, he, hy⟩, (Option.some_inj.1 hx).symm⟩

end

/-- The relation between the values before and after a known assignment is known where the values after are. -/
theorem succeeds_known_beforeAfter (h : (Formula.assignment a).Known s env) (henv : env.Unprimed)
    (hmade : ∀ g ∈ (Formula.assignment a).nodes, g.Remakable a.factory s) :
    Succeeds a.beforeAfter s fun q t => s.Later t ∧
      (Formula.pred q).Known t (a.after env) ∧ a.NamesOf q := by
  obtain ⟨hne, htargets⟩ := (hmade _ (Formula.mem_nodes_self _)).accepted.targets a rfl
  have hmember : ∀ g ∈ a.assigned.components, g ∈ (Formula.assignment a).nodes := fun g hg =>
    Formula.nodes_closed (Formula.mem_nodes_self _) (List.mem_append_left _ hg)
  have hfactory : ∀ g ∈ a.assigned.components, ∀ f, g.factory? = some f → f = a.factory := fun g hg =>
    (hmade g (hmember g hg)).factory
  refine Succeeds.bind_run (run_requireTyped h.assignment.typed) (Rebuilder.succeeds_lift ?_)
  refine (succeeds_known_primedTargets h henv htargets).bind fun primed t₁ h₁ => ?_
  obtain ⟨hlater, hprimed⟩ := h₁
  have h := h.mono hlater
  have finish : ∀ {x : Build Pred} {Q : Pred → Store → Prop}, Succeeds x t₁ (fun q t => t₁.Later t ∧ Q q t) →
      Succeeds x t₁ fun q t => s.Later t ∧ Q q t := fun hx => hx.mono fun q t hQ => ⟨hlater.trans hQ.1, hQ.2⟩
  cases ha : a.assigned with
  | values es =>
    rw [ha] at hfactory
    exact finish (succeeds_known_equations h henv ha hne
      (fun e he => hfactory _ (List.mem_map_of_mem he) _ rfl) hprimed)
  | member set =>
    rw [ha] at hfactory
    obtain ⟨e, targets, htarget⟩ := List.exists_cons_of_ne_nil hne
    have he : e ∈ a.targets := htarget ▸ List.mem_cons_self
    rw [htarget] at hprimed
    cases hprimed with
    | cons he' _ => exact finish (succeeds_known_membership h henv ha (hfactory _ List.mem_cons_self _ rfl) he he')
  | such ds p =>
    rw [ha] at hfactory hmember
    have hp : Formula.pred p ∈ (Assigned.such ds p).components := List.mem_append_right _ List.mem_cons_self
    exact finish (succeeds_known_condition h henv ha (hfactory _ hp _ rfl)
      (fun g hg => (hmade g (Formula.nodes_trans (hmember _ hp) hg)).mono hlater) hprimed)

section

variable {s' s'' : Store} {held : Set Formula} {inferred : Environment}

/-- Where no name ends in a prime before, none is inferred that does. -/
theorem unprimed_extend (hs : s.Sound held) (ha : .assignment a ∈ held)
    (hr : (Formula.assignment a).check? s env = some (.ok (inferred, s')))
    (henv : env.Unprimed) (hfree : ∀ x, primedName x ∉ (Formula.assignment a).freeNames)
    (hgiven : ∀ g ∈ (Formula.assignment a).nodes, ∀ T, g.type? s' = some T → ∀ x, primedName x ∉ T.givens) :
    (env.extend inferred).Unprimed := by
  intro x
  rw [Environment.get?_extend (Formula.sorted_check? hr), henv x, Option.or_none]
  by_contra hx
  obtain hname | ⟨g, hg, T, hT, hname⟩ := Formula.mem_of_inferred hs ha hr hx
  · exact hfree x hname
  · exact hgiven g hg T hT x hname

/-- A check has accepted an assignment, where no name ends in a prime. From then on its feasibility and the
relation between the values before and after are built and typed. A check accepts the feasibility where the
inferred names are known, and the relation where the values after are known as well, by the types of those before.
The free identifiers of the relation are used by the assignment, or stand for the values of its targets after. -/
theorem predicates_typed (hmoves : Session.Moves .empty ∅ s held) (ha : .assignment a ∈ held)
    (hF : (Formula.assignment a).OfFactory a.factory)
    (hr : (Formula.assignment a).check? s env = some (.ok (inferred, s')))
    (hlater : s'.Later s'') (henv : env.Unprimed)
    (hfree : ∀ x, primedName x ∉ (Formula.assignment a).freeNames)
    (hgiven : ∀ g ∈ (Formula.assignment a).nodes, ∀ T, g.type? s' = some T → ∀ x, primedName x ∉ T.givens) :
    (∃ p t, a.feasibility.run s'' = (.ok p, t) ∧ s''.Later t ∧ p.isTyped t ∧ ∀ t', t.Later t' →
      (Formula.pred p).check? t' (env.extend inferred) = some (.ok (.empty, t'))) ∧
    ∃ q t, a.beforeAfter.run s'' = (.ok q, t) ∧ s''.Later t ∧ q.isTyped t ∧
      (∀ t', t.Later t' → (Formula.pred q).check? t' ((env.extend inferred).withPrimed a.targetNames) =
        some (.ok (.empty, t'))) ∧
      ∀ x ∈ (Formula.pred q).freeNames,
        (∃ e ∈ a.used, e.freeName? = some x) ∨ ∃ y ∈ a.targetNames, x = primedName y := by
  have hs := hmoves.sound
  have hknown := (Formula.known_of_check hs ha hr).mono hlater
  have hunprimed := unprimed_extend hs ha hr henv hfree hgiven
  have hmade : ∀ g ∈ (Formula.assignment a).nodes, g.Remakable a.factory s'' := fun g hg =>
    (hmoves.remakable ha hF g hg).mono ((hs.check ha hr).1.trans hlater)
  have accepted : ∀ {p : Pred} {t env'}, (Formula.pred p).Known t env' →
      ∀ t', t.Later t' → (Formula.pred p).check? t' env' = some (.ok (.empty, t')) := by
    intro p t env' hp t' k
    obtain ⟨r, hr⟩ : ∃ r, (Formula.pred p).check? t' env' = some r := ⟨_, rfl⟩
    rw [hr, (hp.mono k).check? hr]
  obtain ⟨p, t, hrun, hgrown, hp⟩ := succeeds_feasibility hknown hmade
  obtain ⟨q, u, hrun', hgrown', hq, hnames⟩ := succeeds_known_beforeAfter hknown hunprimed hmade
  exact ⟨⟨p, t, hrun, hgrown, hp.pred.typed, accepted hp⟩,
    q, u, hrun', hgrown', hq.pred.typed, accepted hq, hnames⟩

end

theorem primedName_ne (hx : x.toList.getLast? ≠ "'".toList.getLast?) (y : String) : primedName y ≠ x := by
  rintro rfl
  refine hx ?_
  rw [primedName, String.toList_append, List.getLast?_append]
  rfl

def someMember : Assignment :=
  ⟨⟨bareFactory, 0⟩, [.free ⟨bareFactory, 0⟩ "x" none], .member (.free ⟨bareFactory, 1⟩ "A" none)⟩

theorem reached_someMember :
    ∃ held, Session.Moves .empty ∅ ⟨#[none, none], #[false], 0⟩ held ∧ .assignment someMember ∈ held := by
  obtain ⟨held₁, -, hx, h₁⟩ := Session.Moves.empty.makeLeaf bareFactory (.free ⟨bareFactory, 0⟩ "x" none) _
    ⟨#[none], #[], 0⟩ rfl trivial rfl
  obtain ⟨held₂, hsub₂, hset, h₂⟩ := h₁.makeLeaf bareFactory (.free ⟨bareFactory, 1⟩ "A" none) _
    ⟨#[none, none], #[], 0⟩ rfl trivial rfl
  obtain ⟨held, -, ha, h⟩ := h₂.makeAssignment bareFactory someMember someMember ⟨#[none, none], #[false], 0⟩
    (List.forall_mem_cons.2 ⟨hset, List.forall_mem_singleton.2 (hsub₂ hx)⟩) rfl
  exact ⟨held, h, ha⟩

/-- The values after are members of the set by the type of the set alone. -/
theorem predicates_typed_someMember : ∃ s held inferred s', Session.Moves .empty ∅ s held ∧
    .assignment someMember ∈ held ∧ (Formula.assignment someMember).OfFactory someMember.factory ∧
    (Formula.assignment someMember).check? s ⟨[("A", .power .boolean)]⟩ = some (.ok (inferred, s')) ∧
    ∃ q t, someMember.beforeAfter.run s' = (.ok q, t) ∧ q.isTyped t ∧
      (Formula.pred q).check? t ⟨[("A", .power .boolean), ("x", .boolean), ("x'", .boolean)]⟩ =
        some (.ok (.empty, t)) := by
  obtain ⟨held, hreached, ha⟩ := reached_someMember
  have hfactory : (Formula.assignment someMember).OfFactory bareFactory := Formula.ofFactory_of_replicate 3 rfl rfl
  have hr : (Formula.assignment someMember).check? ⟨#[none, none], #[false], 0⟩ ⟨[("A", .power .boolean)]⟩ =
      some (.ok (⟨[("x", .boolean)]⟩, ⟨#[some .boolean, some (.power .boolean)], #[true], 0⟩)) := rfl
  have henv : Environment.Unprimed ⟨[("A", .power .boolean)]⟩ := fun y => by
    rw [Environment.get?, lookup_cons_if, if_neg (primedName_ne (by decide) y)]
    rfl
  have hfree : ∀ y, primedName y ∉ (Formula.assignment someMember).freeNames := by
    intro y hy
    have hname : primedName y ∈ ["A", "x"] := hy
    rw [List.mem_pair] at hname
    exact hname.elim (primedName_ne (by decide) y) (primedName_ne (by decide) y)
  have hgiven : ∀ g ∈ (Formula.assignment someMember).nodes, ∀ T,
      g.type? ⟨#[some .boolean, some (.power .boolean)], #[true], 0⟩ = some T → ∀ y, primedName y ∉ T.givens := by
    intro g _ T hT y hy
    obtain ⟨slot, -, hslot⟩ := Option.bind_eq_some_iff.1 hT
    obtain _ | _ | slot := slot <;> cases hslot <;> cases hy
  obtain ⟨-, q, t, hrun, -, htyped, hcheck, -⟩ :=
    predicates_typed hreached ha hfactory hr (.refl _) henv hfree hgiven
  exact ⟨_, held, _, _, hreached, ha, hfactory, hr, q, t, hrun, htyped, hcheck t (.refl t)⟩

end Assignment
end SetLang
