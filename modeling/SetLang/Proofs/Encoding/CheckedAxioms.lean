import SetLang.Proofs.Encoding.Checked
import SetLang.Proofs.Encoding.Stated

/-! Checks of axioms in the environment of the target. The names in axioms are among those that this environment
declares, and given types. An axiom checks there if none of these given types is declared as something else, and the
check finds those that are not declared. -/

namespace SetLang

variable {env E : Environment} {ds : List Datatype} {f : Factory} {s : Store} {S S' : EncodingState}
  {held : Set Formula} {source : Factory} {r : Representation} {ts : List Ty} {sc : List Declaration} {e : Expr}
  {p : Pred} {T : Ty} {gs : List String}

/-- A free identifier as the environment has it, with given types that it knows; an identifier that is bound to a set
of values of one of some types, the last of which is the innermost; or the set of the truth values. -/
inductive Expr.Leaf (env : Environment) (ts : List Ty) : Expr → Prop
  | free {n : Node} {x : String} {T : Ty} : env.get? x = some T → env.Grounds T → Leaf env ts (.free n x (some T))
  | bound {n : Node} {i : Nat} {T : Ty} : ts.reverse[i]? = some T → Leaf env ts (.bound n i (some (.power T)))
  | boolSet {n : Node} {o : Option Ty} : Leaf env ts (.atom n .boolSet o)

theorem Expr.Leaf.widen (h : Leaf env [] e) : Leaf env ts e := by
  cases h with
  | free h hT => exact .free h hT
  | bound h => cases h
  | boolSet => exact .boolSet

open SetLang.Expr (Leaf Knows)

theorem Expr.Leaf.get? {n : Node} {x : String} (h : Leaf env ts (.free n x (some T))) : env.get? x = some T := by
  cases h with
  | free h _ => exact h

theorem Expr.knows_leaf (h : ∀ g ∈ gs, env.get? g = some (Ty.givenSet g)) : Knows (Leaf env ts) gs :=
  ⟨fun _ _ => .boolSet, fun g hg _ => .free (h g hg) (List.forall_mem_singleton.2 (h g hg))⟩

theorem Formula.Settled.grounds (h : (Formula.expr e).Settled s) (he : e.explicit? = some T) (hT : env.Grounds T) :
    ∀ U, (Formula.expr e).type? s = some U → env.Grounds U := by
  intro U hU
  rw [← Environment.grounds_named, ← Store.typing_slot hU]
  change env.Grounds (s.typing.ofExpr e)
  rw [h.obeys.2 T he, Environment.grounds_named]
  exact hT

namespace Expr

theorem Leaf.known (h : e.Leaf env ts) (hts : ∀ T ∈ ts, env.Grounds T)
    (hsc : ∀ (i : Nat) T, ts.reverse[i]? = some T → ∃ b, sc[i]? = some b ∧ b.type? s = some (.power T))
    (hs : ∀ o ∈ e.occurrences sc, o.node.Settled s) : ∀ o ∈ e.occurrences sc, o.Known s env := by
  cases h with
  | free hget hT =>
    have hself := hs _ (List.mem_singleton_self _)
    exact List.forall_mem_singleton.2 (.of_free hself hget (hself.grounds rfl hT))
  | @bound n i T hi =>
    have hself := hs _ (List.mem_singleton_self _)
    obtain ⟨b, hb, htype⟩ := hsc i T hi
    have hground : env.Grounds T := hts T (List.mem_reverse.1 (List.mem_of_getElem? hi))
    refine List.forall_mem_singleton.2 ⟨hself, fun m j u hn => ?_, nofun, fun U hU x hx => ?_⟩
    · cases hn
      refine ⟨b, hb, Option.isSome_of_eq_some htype, ?_⟩
      exact (hself.obeys.2 _ rfl).trans (Store.typing_slot htype).symm
    · exact ⟨_, hself.grounds rfl hground U hU x hx, rfl⟩
  | boolSet =>
    have hself := hs _ (List.mem_singleton_self _)
    refine List.forall_mem_singleton.2 (.of_grounds hself id fun U hU => ?_)
    rw [← Environment.grounds_named, ← Store.typing_slot hU]
    exact hself.obeys.1.grounds ⟨_, rfl, nofun⟩ (givens_result rfl) nofun

end Expr

/-- What an axiom is made of is known where the leaves are. -/
theorem Pred.Stated.known (h : p.Stated (fun ts => Leaf env ts) s ts) (hts : ∀ T ∈ ts, env.Grounds T)
    (hsc : ∀ (i : Nat) T, ts.reverse[i]? = some T → ∃ b, sc[i]? = some b ∧ b.type? s = some (.power T))
    (hs : ∀ o ∈ p.occurrences sc, o.node.Settled s) : ∀ o ∈ p.occurrences sc, o.Known s env := by
  induction h generalizing sc with
  | comparison ha hb =>
    rw [occurrences, List.forall_mem_cons, List.forall_mem_append] at hs ⊢
    exact ⟨.pred hs.1, ha.known hs.2.1 fun _ h => h.known hts hsc, hb.known hs.2.2 fun _ h => h.known hts hsc⟩
  | @partition n es ts hes =>
    rw [occurrences, Expr.allOccurrences_eq, List.forall_mem_cons, List.forall_mem_flatMap] at hs ⊢
    exact ⟨.pred hs.1, fun e he => (hes e he).known (hs.2 e he) fun _ h => h.known hts hsc⟩
  | @quantified n op bs p ts hbs hknows _ ih =>
    have hgrounds : ∀ T ∈ ts, env.Grounds T := fun T hT g hg => ((hknows T hT).given g hg n).get?
    rw [occurrences, List.cons_append, List.forall_mem_cons, List.forall_mem_append, List.forall_mem_map] at hs ⊢
    refine ⟨.pred hs.1, fun b hb => ?_, ih hgrounds (fun i T hi => ?_) hs.2.2⟩
    · obtain ⟨T, hT, htype⟩ := forall₂_exists_right hbs hb
      refine .of_grounds (hs.2.1 b hb) id fun U hU => ?_
      obtain rfl := Option.some_inj.1 (htype.symm.trans hU)
      exact hgrounds T hT
    · obtain ⟨b, hb, htype⟩ := forall₂_exists_getElem? (List.forall₂_reverse_iff.2 hbs.flip) hi
      exact ⟨b, (List.getElem?_append_left (List.getElem?_eq_some_iff.1 hb).1).trans hb, htype⟩

def Instance.givens (i : Instance) : List String :=
  i.type.givens ++ i.datatype.constructors.flatMap fun c => c.arguments.flatMap (·.type.givens)

namespace Environment

/-- Given types that are not declared as anything else can be added. -/
theorem exists_addsGivens {xs : List String} (h : ∀ x ∈ xs, ∀ T, env.get? x = some T → T = Ty.givenSet x) :
    ∃ env', env.AddsGivens env' ∧ ∀ x ∈ xs, env'.get? x = some (Ty.givenSet x) := by
  induction xs with
  | nil => exact ⟨env, .refl env, nofun⟩
  | cons x xs ih =>
    rw [List.forall_mem_cons] at h
    obtain ⟨env', k, hxs⟩ := ih h.2
    refine ⟨env'.insertGiven x, ⟨fun y T hy => ?_, fun y T hnone hy => ?_⟩, List.forall_mem_cons.2 ⟨?_, fun y hy => ?_⟩⟩
    · rw [get?_insertGiven]
      split_ifs with heq
      · subst heq
        rw [h.1 T hy]
      · exact k.kept y T hy
    · rw [get?_insertGiven] at hy
      split_ifs at hy with heq
      · subst heq
        exact (Option.some_inj.1 hy).symm
      · exact k.added y T hnone hy
    · exact get?_insertGiven.trans (if_pos rfl)
    · rw [get?_insertGiven]
      split_ifs with heq
      · rw [heq]
      · exact hxs y hy

theorem Grounds.instantiate {a : ArgTy} {args : List Ty} {own : Ty} (ha : env.Grounds a)
    (hT : ArgTy.instantiate? a args own = some T) (hargs : ∀ t ∈ args, env.Grounds t) (hown : env.Grounds own) :
    env.Grounds T := by
  obtain ⟨hsome, rfl⟩ := TypeTree.subst?_eq_some_iff.1 hT
  refine ha.subst fun v hv => ?_
  obtain ⟨t, ht⟩ := Option.isSome_iff_exists.1 (hsome v hv)
  rw [ht]
  cases v with
  | param i => exact hargs t (List.mem_of_getElem? ht)
  | self => exact Option.some_inj.1 ht ▸ hown

end Environment

theorem constructorType_grounds {args : List Ty} (hargs : ∀ t ∈ args, env.Grounds t) (hT : env.Grounds T) :
    env.Grounds (constructorType args T) := by
  unfold constructorType
  cases h : Ty.productOf? args with
  | none => exact hT
  | some domain =>
    have hdomain : env.Grounds domain :=
      Ty.of_productOf? (fun _ _ ha hb => Environment.grounds_product.2 ⟨ha, hb⟩) h hargs
    exact Environment.grounds_product.2 ⟨hdomain, hT⟩

theorem EncodingState.Gives.leaf (h : S.Gives env) (hr : r ∈ S.encoding.representations) (he : e ∈ r.exprs)
    (hnames : e.Names f s T) (hT : env.Grounds T) : e.Leaf env [] := by
  obtain ⟨n, x, U, rfl, hU⟩ := h.accounts r hr e he
  obtain ⟨m, y, heq, -⟩ := hnames
  cases heq
  exact .free (h.given x _ hU) hT

/-- The environment has what stands for an instance, and knows the given types that the instance and its
representation name. -/
structure Representation.Listed (env : Environment) (r : Representation) : Prop where
  names : ∀ e ∈ r.exprs, Leaf env [] e
  params : ∀ t ∈ r.params, env.Grounds t
  argTypes : ∀ c ∈ r.constructors, ∀ t ∈ c.argTypes, env.Grounds t
  arguments : ∀ c ∈ r.source.datatype.constructors, ∀ a ∈ c.arguments, env.Grounds a.type

theorem EncodingState.Gives.listed (h : S.Gives env) (hr : r ∈ S.encoding.representations)
    (hrenders : r.Renders ds f s S.encoding.look)
    (hgivens : ∀ x ∈ r.source.givens, env.get? x = some (Ty.givenSet x)) : r.Listed env := by
  obtain ⟨hargs, hconstructors⟩ := List.forall_mem_append.1 hgivens
  have htype := h.grounds_type hr
  have hsource : ∀ T ∈ r.source.args, env.Grounds T := fun T hT x hx =>
    hargs x (by simpa [Instance.type, TypeTree.givens] using ⟨T, hT, hx⟩)
  have harguments : ∀ c ∈ r.source.datatype.constructors, ∀ a ∈ c.arguments, env.Grounds a.type :=
    fun c hc a ha x hx => hconstructors x (List.mem_flatMap.2 ⟨c, hc, List.mem_flatMap.2 ⟨a, ha, hx⟩⟩)
  have hparams : ∀ t ∈ r.params, env.Grounds t := by
    intro t ht
    obtain ⟨T, hT, himage⟩ := forall₂_exists_right hrenders.params.flip ht
    exact h.grounds (hsource T hT) himage
  -- what stands for a constructor is built from what stands for the types of its arguments
  have himages : ∀ image ∈ r.constructors, (∀ t ∈ image.argTypes, env.Grounds t) ∧
      ∀ e ∈ image.function :: image.destructors, e.Leaf env [] := by
    intro image himage
    obtain ⟨c, hc, hrender⟩ := forall₂_exists_right hrenders.constructors.flip himage
    have htypes : ∀ t ∈ image.argTypes, env.Grounds t := by
      intro t ht
      obtain ⟨a, ha, T, hT, -, himage⟩ := forall₂_exists_right hrender.arguments.flip ht
      exact h.grounds ((harguments c hc a ha).instantiate hT hsource hargs) himage
    have hmem := fun e => Representation.mem_exprs_of_constructor (e := e) himage
    refine ⟨htypes, List.forall_mem_cons.2 ⟨?_, fun d hd => ?_⟩⟩
    · exact h.leaf hr (hmem _ List.mem_cons_self) hrender.function (constructorType_grounds htypes htype)
    · obtain ⟨t, ht, hnames⟩ := forall₂_exists_right hrender.destructors hd
      refine h.leaf hr (hmem _ (List.mem_cons_of_mem _ hd)) hnames ?_
      exact Environment.grounds_product.2 ⟨htype, htypes t ht⟩
  refine ⟨fun e he => ?_, hparams, fun image himage => (himages image himage).1, harguments⟩
  · rcases List.mem_cons.1 he with rfl | hrest
    · exact h.leaf hr he hrenders.typeExpr htype
    · rcases List.mem_append.1 hrest with hset | hconstructor
      · refine h.leaf hr he (hrenders.setConstructor e (Option.mem_toList.1 hset)) ?_
        exact constructorType_grounds hparams htype
      · obtain ⟨image, himage, he⟩ := List.mem_flatMap.1 hconstructor
        exact (himages image himage).2 e he

theorem Encoding.leaves_of_listed {t : Encoding} (h : ∀ r ∈ t.representations, r.Listed env) :
    t.Leaves fun ts => Leaf env ts :=
  ⟨fun r hr e he _ => ((h r hr).names e he).widen, fun _ _ _ _ hi => .bound hi,
    fun r hr t ht _ => Expr.knows_leaf ((h r hr).params t ht),
    fun r hr c hc t ht _ => Expr.knows_leaf ((h r hr).argTypes c hc t ht),
    fun r hr c hc a ha _ => Expr.knows_leaf ((h r hr).arguments c hc a ha)⟩

namespace EncodingState

/-- No given type that a represented instance names has the name of something else in the environment. -/
def Spares (S : EncodingState) (E : Environment) : Prop :=
  ∀ r ∈ S.encoding.representations, ∀ x ∈ r.source.givens, ∀ T, E.get? x = some T → T = Ty.givenSet x

/-- So it is if the source environment declares them all. -/
theorem Declares.spares (h : S.Declares E)
    (hgivens : ∀ r ∈ S.encoding.representations, ∀ x ∈ r.source.givens,
      S.encoding.env.get? x = some (Ty.givenSet x)) : S.Spares E := by
  intro r hr x hx T hT
  have hget := h.get?_given (hgivens r hr x hx)
  exact Option.some_inj.1 (hT.symm.trans hget)

/-- The axioms check in the environment of the target if it spares the given types that the instances name. The check
finds those given types that are not declared, and nothing else. -/
theorem ReachedOver.checks_axioms (h : ReachedOver source S held) (hsorted : S.encoding.env.Sorted)
    (hsup : ∀ e ∈ S.encoding.env.entries, e.2.Supported source.datatypes) :
    ∃ ps S₁, Encode.axioms.run S = (.ok ps, S₁) ∧ ∀ S₂ held₂ E S₃, ReachedOver source S₂ held₂ → S₁.Later S₂ →
      (∀ p ∈ ps, .pred p ∈ held₂) → Encode.targetEnvironment.run S₂ = (.ok E, S₃) → S₃.Spares E →
        ∀ p ∈ ps, ∃ found, S₃.store.checkPred E p = .ok (found, S₃.store) ∧
          ∀ x T, found.get? x = some T → E.get? x = none ∧ T = Ty.givenSet x := by
  have hcoherent := h.reached.coherent_of_over h.over
  have hS := (Continues.refl hcoherent).rests
  obtain ⟨ps, S₁, hrun, -⟩ := Encode.succeeds_axioms h.reached.registered S.encoding.leaves_all hS h.over
  refine ⟨ps, S₁, hrun, fun S₂ held₂ E S₃ h₂ hlater hheld hrunE hspares p hp => ?_⟩
  have hfrom : S.Later S₂ := by
    have hstep := Step.later (.encode .axioms) h.reached
    rw [run_bind_ok hrun] at hstep
    exact hstep.trans hlater
  obtain ⟨hk₃, hE⟩ : S₂.Continues source.datatypes S₃ ∧ S₃.Declares E := by
    obtain ⟨E', S', hrun, hk, -, hE⟩ := h₂.declares (by rwa [hfrom.env]) (by rwa [hfrom.env])
    cases hrunE.symm.trans hrun
    exact ⟨hk, hE⟩
  -- with the given types that are not declared the environment lists what stands for the instances
  obtain ⟨E', hadds, hgivens⟩ := Environment.exists_addsGivens (List.forall_mem_flatMap.2 hspares)
  have hgives : S₃.Gives E' :=
    ⟨hE.complete, hE.accounts, fun x T hx => hadds.kept x T (hE.given x T hx)⟩
  have hlisted : ∀ r ∈ S.encoding.representations, r.Listed E' := by
    intro r hr
    have hr₃ := (hfrom.trans hk₃.later).representations.subset hr
    refine hgives.listed hr₃ (hk₃.coherent.renders r hr₃ (h.over r hr)) fun x hx => ?_
    exact hgivens x (List.mem_flatMap.2 ⟨r, hr₃, hx⟩)
  obtain ⟨_, _, hrun', -, haxioms⟩ :=
    Encode.succeeds_axioms h.reached.registered (Encoding.leaves_of_listed hlisted) hS h.over
  cases hrun.symm.trans hrun'
  obtain ⟨hclean, hstated⟩ := haxioms p hp
  have hsettled : ∀ o ∈ (Formula.pred p).occurrences, o.node.Settled S₃.store := fun o ho =>
    have hsound := h₂.reached.sound.1.store
    have hclean := hclean.nodes o.node ⟨o, ho, rfl⟩
    (hsound.settled (Formula.within hsound.closed _ (hheld p hp) o ho)
      (Formula.isTyped_mono hclean.typed hlater.store)).mono hk₃.later.store
  have hknown : (Formula.pred p).Known S₃.store E' :=
    (hstated.mono (hlater.trans hk₃.later).store).known nofun (fun i T hi => by cases hi) hsettled
  obtain ⟨found, hcheck, hfound⟩ := hknown.check_added hadds rfl
  refine ⟨found, hcheck, fun x T hT => ?_⟩
  obtain ⟨hnone, -, hnamed⟩ := hfound x T hT
  exact ⟨hnone, (TypeTree.Plain.eq_of_named_eq (t := Ty.givenSet x) rfl hnamed.symm).symm⟩

/-- A predicate over registered datatypes that is checked is encoded over the environment of the check, and what it is
encoded to checks in the environment of the target, also after the axioms are emitted. So do the axioms, if that
environment spares the given types that the represented instances name. -/
theorem checks_encoded_of_check {p : Pred} {s s' : Store} {env inferred : Environment} (hsource : source.Assembled)
    (hs : Session.Moves .empty ∅ s held) (hp : .pred p ∈ held) (hr : s.checkPred env p = .ok (inferred, s'))
    (henv : env.Sorted) (hover : (Formula.pred p).Over source.datatypes s')
    (hsup : ∀ e ∈ (env.extend inferred).entries, e.2.Supported source.datatypes) :
    ∃ t s₀ q S₁ ps S₂ E S₃, (Build.encoding source (env.extend inferred)).run s' = (.ok t, s₀) ∧
      (Encode.pred p).run ⟨s₀, t⟩ = (.ok q, S₁) ∧ Encode.axioms.run S₁ = (.ok ps, S₂) ∧
      Encode.targetEnvironment.run S₂ = (.ok E, S₃) ∧ S₃.Over source.datatypes ∧ S₃.Declares E ∧
      S₃.store.checkPred E q = .ok (.empty, S₃.store) ∧
      (S₃.Spares E → ∀ a ∈ ps, ∃ found, S₃.store.checkPred E a = .ok (found, S₃.store) ∧
        ∀ x T, found.get? x = some T → E.get? x = none ∧ T = Ty.givenSet x) := by
  have hr : (Formula.pred p).check? s env = some (.ok (inferred, s')) := congrArg some hr
  have hknown := Formula.known_of_check hs.sound hp hr
  obtain ⟨t, s₀, hrun₀⟩ : ∃ t s₀, (Build.encoding source (env.extend inferred)).run s' = (.ok t, s₀) := ⟨_, _, rfl⟩
  have hstart : Reached source ⟨s₀, t⟩ held := .start hsource (hs.step (.of_check hp hr)) hrun₀
  -- the factory of the target takes a number, and no slot
  obtain ⟨hold, hnone, hlater, hover⟩ : t.env = env.extend inferred ∧ t.representations = [] ∧ s'.Later s₀ ∧
      (Formula.pred p).Over source.datatypes s₀ := by
    cases hrun₀
    exact ⟨rfl, rfl, s'.later_factories _, hover.typed, hover.extension, hover.supported⟩
  have hstart : ReachedOver source ⟨s₀, t⟩ held := .start hstart hnone
  obtain ⟨q, S₁, hrun₁, hchecks⟩ :=
    hstart.checks_encoded hp hover (hold ▸ fun o ho => (hknown o ho).mono hlater) (hold ▸ henv.insertAll) (hold ▸ hsup)
  have h₁ := hstart.encode (.pred hp hover)
  have hlater₁ := Step.later (.encode (.pred hp)) hstart.reached
  rw [run_bind_ok hrun₁] at h₁ hlater₁
  have hold₁ : S₁.encoding.env = env.extend inferred := hlater₁.env.trans hold
  obtain ⟨ps, S₂, hrun₂, haxioms⟩ := h₁.checks_axioms (hold₁ ▸ henv.insertAll) (hold₁ ▸ hsup)
  have h₂ := h₁.encode .axioms
  have hlater₂ := Step.later (.encode .axioms) h₁.reached
  rw [run_bind_ok hrun₂] at h₂ hlater₂
  have hold₂ : S₂.encoding.env = env.extend inferred := hlater₂.env.trans hold₁
  obtain ⟨E, S₃, hrun₃, -, hover₃, hE⟩ := h₂.declares (hold₂ ▸ henv.insertAll) (hold₂ ▸ hsup)
  refine ⟨t, s₀, q, S₁, ps, S₂, E, S₃, hrun₀, hrun₁, hrun₂, hrun₃, hover₃, hE, ?_, ?_⟩
  · have hq : .pred q ∈ Session.results (.ok [.pred q] : Except (Fault EncodingError) (List Formula)) :=
      ⟨_, List.mem_singleton_self _, Formula.mem_nodes_self _⟩
    obtain ⟨E', S', hrun, hcheck⟩ := hchecks S₂ _ h₂ hlater₂ (.inl (.inr (.inl hq)))
    cases hrun₃.symm.trans hrun
    exact hcheck
  · refine haxioms S₂ _ E S₃ h₂ (.refl S₂) (fun a ha => ?_) hrun₃
    exact .inr (.inl ⟨_, List.mem_map_of_mem ha, Formula.mem_nodes_self _⟩)

end EncodingState

namespace Coin

theorem givens_eq_nil {i : Instance} (h : i.type.Supported Coin.source.datatypes) : i.givens = [] := by
  obtain ⟨d, args⟩ := i
  obtain ⟨⟨hd, hargs⟩, -⟩ := TypeTree.supported_data.1 h
  obtain rfl : d = coin := List.mem_singleton.1 hd.mem
  obtain rfl : args = [] := List.length_eq_zero_iff.1 hargs
  rfl

/-- The equation of the two values of the coin is encoded to a predicate that checks in the environment of the
target, and so do the axioms of the coin. -/
theorem checks_equation : ∃ t s₀ q S₁ ps S₂ E S₃,
    (Build.encoding Coin.source .empty).run (store 2 #[true]) = (.ok t, s₀) ∧
    (Encode.pred equation).run ⟨s₀, t⟩ = (.ok q, S₁) ∧ Encode.axioms.run S₁ = (.ok ps, S₂) ∧
    Encode.targetEnvironment.run S₂ = (.ok E, S₃) ∧ S₃.store.checkPred E q = .ok (.empty, S₃.store) ∧
    ∀ a ∈ ps, ∃ found, S₃.store.checkPred E a = .ok (found, S₃.store) := by
  obtain ⟨held, hs, hp⟩ := made
  have hchecked : (store 2 #[true]).checkPred .empty equation = .ok (.empty, store 2 #[true]) := rfl
  obtain ⟨t, s₀, q, S₁, ps, S₂, E, S₃, hrun₀, hrun₁, hrun₂, hrun₃, hover, -, hcheck, haxioms⟩ :=
    EncodingState.checks_encoded_of_check assembled hs hp hchecked Environment.sorted_empty
      (equation_over rfl rfl rfl).formula nofun
  have hspares : S₃.Spares E := fun r hr x hx => by
    rw [givens_eq_nil (hover r hr)] at hx
    cases hx
  refine ⟨t, s₀, q, S₁, ps, S₂, E, S₃, hrun₀, hrun₁, hrun₂, hrun₃, hcheck, fun a ha => ?_⟩
  obtain ⟨found, hfound, -⟩ := haxioms hspares a ha
  exact ⟨found, hfound⟩

end Coin
end SetLang
