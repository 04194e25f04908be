import SetLang.Proofs.Encoding.Emission
import SetLang.Proofs.Encoding.Injective
import SetLang.Proofs.Encoding.Outline

/-! Encodings of formulas over the datatypes of their source. Nothing but instances of these is represented there,
so that the axioms are emitted whenever they are asked for, in order and always the same. -/

namespace SetLang

variable {ds : List Datatype} {S S' : EncodingState} {held held' : Set Formula} {source : Factory}
  {r : Representation} {x : Encode (List Formula)} {α β : Type}

/-- The calls that an encoding answers, where the types that it is given are supported, and the formulas that it
is given to encode are over the datatypes. -/
inductive Encode.CallOver (ds : List Datatype) (S : EncodingState) (held : Set Formula) :
    Encode (List Formula) → Prop
  | type {t : Ty} : t.Supported ds → CallOver ds S held do
      let _ ← Encode.type t
      return []
  | freshGiven (base : String) : CallOver ds S held do
      let _ ← Encode.freshGiven base
      return []
  | freshIdentifier (base : String) (t : Ty) : CallOver ds S held do
      return [.expr (← Encode.freshIdentifier base t)]
  | expr {e : Expr} : .expr e ∈ held → (Formula.expr e).Over ds S.store → CallOver ds S held do
      return [.expr (← Encode.expr e)]
  | pred {p : Pred} : .pred p ∈ held → (Formula.pred p).Over ds S.store → CallOver ds S held do
      return [.pred (← Encode.pred p)]
  | representation {i : Instance} : i.type.Supported ds → CallOver ds S held do
      return (← Encode.representation i).exprs.map .expr
  | replace {i : Instance} (e : Expr) (ext : Extension) {es : List Expr} : i.type.Supported ds →
    (∀ e ∈ es, .expr e ∈ held) → CallOver ds S held do
      return [.expr (← (← Encode.representation i).replace e ext es)]
  | representationAxioms {i : Instance} : i.type.Supported ds → CallOver ds S held do
      return (← (← Encode.representation i).axioms).map .pred
  | axioms : CallOver ds S held do
      return (← Encode.axioms).map .pred
  | targetEnvironment : (∀ x ∈ S.encoding.env.entries, x.2.Supported ds) → CallOver ds S held do
      let _ ← Encode.targetEnvironment
      return []

theorem Encode.CallOver.call (h : CallOver ds S held x) : Call held x := by
  cases h with
  | type _ => exact .type _
  | freshGiven base => exact .freshGiven base
  | freshIdentifier base t => exact .freshIdentifier base t
  | expr he _ => exact .expr he
  | pred hp _ => exact .pred hp
  | representation _ => exact .representation _
  | replace e ext _ hes => exact .replace _ e ext hes
  | representationAxioms _ => exact .representationAxioms _
  | axioms => exact .axioms
  | targetEnvironment _ => exact .targetEnvironment

namespace EncodingState

/-- The states that an encoding reaches over the datatypes of its source, from one in which nothing is
represented. -/
inductive ReachedOver (source : Factory) : EncodingState → Set Formula → Prop
  | start {S : EncodingState} {held : Set Formula} : Reached source S held →
    S.encoding.representations = [] → ReachedOver source S held
  | session {S : EncodingState} {s : Store} {held held' : Set Formula} : ReachedOver source S held →
    Session.Move S.store held s held' → ReachedOver source ⟨s, S.encoding⟩ held'
  | encode {S : EncodingState} {held : Set Formula} {x : Encode (List Formula)} :
    ReachedOver source S held → Encode.CallOver source.datatypes S held x → ReachedOver source (x.run S).2
      (held ∪ (Session.results (x.run S).1 ∪ (x.run S).2.encoding.formulas))

theorem ReachedOver.reached (h : ReachedOver source S held) : Reached source S held := by
  induction h with
  | start h _ => exact h
  | session _ hstep ih => exact ih.step (.session hstep)
  | encode _ hx ih => exact ih.step (.encode hx.call)

def Over (ds : List Datatype) (S : EncodingState) : Prop :=
  ∀ r ∈ S.encoding.representations, r.source.type.Supported ds

theorem Over.continue (h : S.Over ds) (k : S.Continues ds S') : S'.Over ds :=
  fun r hr => (k.added r hr).elim (h r) id

theorem Over.of_eq (h : S.Over ds) (k : S'.encoding.representations = S.encoding.representations) : S'.Over ds :=
  fun r hr => h r (k ▸ hr)

end EncodingState

namespace Encode

variable {n : Nat}

theorem succeeds_loop {xs : List α} {f : α → Encode β} (hS : S.Coherent ds)
    (h : ∀ x ∈ xs, ∀ S : EncodingState, S.Coherent ds → Succeeds (f x) S fun _ S' => S.Continues ds S') :
    Succeeds (xs.mapM f) S fun _ S' => S.Continues ds S' := by
  induction xs generalizing S with
  | nil => exact .pure (.refl hS)
  | cons x xs ih =>
    rw [List.mapM_cons]
    refine (h x List.mem_cons_self S hS).bind fun _ S₁ k₁ => ?_
    refine (ih k₁.coherent fun x hx => h x (List.mem_cons_of_mem _ hx)).bind fun _ S₂ k₂ => ?_
    exact .pure (k₁.trans k₂)

theorem continues_targetEnvironment (hS : S.Coherent ds)
    (henv : ∀ x ∈ S.encoding.env.entries, x.2.Supported ds) :
    Succeeds targetEnvironment S fun _ S' => S.Continues ds S' := by
  unfold targetEnvironment
  refine .bind_run (run_current S) ?_
  refine (succeeds_loop hS fun x hx S hS => ?_).bind fun _ S₁ k₁ => .bind_run (run_current S₁) (.pure k₁)
  obtain ⟨name, t⟩ := x
  exact (succeeds_type hS (henv _ hx)).bind fun _ _ h => .pure (h.1.continues hS)

theorem representations_freshIdentifier (base : String) (t : Ty) (S : EncodingState) :
    ((freshIdentifier base t).run S).2.encoding.representations = S.encoding.representations := by
  obtain ⟨name, S', hrun, hquiet, -⟩ := succeeds_allocate base (fun _ => t) S
  unfold freshIdentifier
  rw [run_bind_ok hrun, run_bind_ok (run_target S'), run_liftM]
  exact hquiet.representations

theorem encoding_replace (r : Representation) (e : Expr) (ext : Extension) (es : List Expr) (S : EncodingState) :
    ((r.replace e ext es).run S).2.encoding = S.encoding := by
  have hlift : ∀ x : Build Expr, ((liftM x : Encode Expr).run S).2.encoding = S.encoding := fun x => by
    rw [run_liftM]
  unfold Representation.replace
  rw [run_bind_ok (run_target S)]
  match ext.role? with
  | none => rfl
  | some (_, .typeConstructor) =>
    cases r.setConstructor with
    | none => rfl
    | some set =>
      dsimp only
      rw [run_bind_ok (run_store S)]
      split_ifs
      · rfl
      · exact hlift _
  | some (_, .constructor i) =>
    dsimp only
    cases r.constructors[i]? with
    | none => rfl
    | some c => exact hlift _
  | some (_, .destructor i j) =>
    dsimp only
    cases (r.constructors[i]?).bind (·.destructors[j]?) with
    | none => rfl
    | some d => exact hlift _

end Encode

namespace EncodingState

theorem Over.of_succeeds {x : Encode α} {P : α → EncodingState → Prop} (h : S.Over ds)
    (hx : Succeeds x S fun a S' => S.Continues ds S' ∧ P a S') : (x.run S).2.Over ds := by
  obtain ⟨a, S', hrun, hk, -⟩ := hx
  rw [hrun]
  exact h.continue hk

theorem Over.of_representation {i : Instance} {f : Representation → Encode α} (h : S.Over ds) (hS : S.Coherent ds)
    (hi : i.type.Supported ds) (hf : ∀ r S', S.Continues ds S' → S'.Over ds →
      r ∈ S'.encoding.representations → ((f r).run S').2.Over ds) :
    ((Encode.representation i >>= f).run S).2.Over ds := by
  obtain ⟨r, S', hrun, hadv, hr, -⟩ := Encode.succeeds_representation hS hi
  have hk := hadv.continues hS
  rw [run_bind_ok hrun]
  exact hf r S' hk (h.continue hk) (Encoding.mem_of_representation? hr).1

theorem Continues.rests (h : S.Continues ds S') : S'.Rests ds S'.encoding S'.store := ⟨h.coherent, rfl, .refl _⟩

end EncodingState

open EncodingState in
/-- A call over datatypes represents supported instances only, whether it succeeds or not. -/
theorem Encode.CallOver.over (h : CallOver ds S held x) (hheld : S.store.Sound held)
    (hreg : Registered S.encoding.source.extensions S.encoding.source.datatypes) (hS : S.Coherent ds)
    (hover : S.Over ds) : (x.run S).2.Over ds := by
  have hk := Continues.refl hS
  cases h with
  | type ht =>
    rw [snd_run_bind_pure]
    exact hover.of_succeeds ((succeeds_type hS ht).mono fun _ _ h => ⟨h.1.continues hS, h.2⟩)
  | freshGiven base =>
    rw [snd_run_bind_pure]
    exact hover.of_succeeds ((succeeds_freshGiven base S).mono fun _ _ h => ⟨h.1.continues hS, h.2⟩)
  | freshIdentifier base t =>
    rw [snd_run_bind_pure]
    exact hover.of_eq (representations_freshIdentifier base t S)
  | expr he h =>
    rw [snd_run_bind_pure]
    exact hover.of_succeeds (succeeds_expr hS (h.sources hheld he))
  | pred hp h =>
    rw [snd_run_bind_pure]
    exact hover.of_succeeds (succeeds_pred hS h.typed (h.sources hheld hp))
  | representation hi => exact hover.of_representation hS hi fun _ _ _ hover _ => hover
  | replace e ext hi _ =>
    refine hover.of_representation hS hi fun r S' _ hover _ => ?_
    rw [snd_run_bind_pure]
    exact hover.of_eq (congrArg Encoding.representations (encoding_replace r e ext _ S'))
  | representationAxioms hi =>
    refine hover.of_representation hS hi fun r S' k hover hr => ?_
    rw [snd_run_bind_pure]
    obtain ⟨ps, S'', hrun, -, -, -, hstill, -⟩ := Representation.twice_axioms (k.later.source ▸ hreg)
      (Encoding.leaves_all _) k.rests k.rests hr (hover r hr)
    rw [hrun]
    exact hover.of_eq (congrArg Encoding.representations hstill.encoding)
  | axioms =>
    rw [snd_run_bind_pure]
    obtain ⟨ps, S', hrun, hstill, -⟩ := succeeds_axioms hreg (Encoding.leaves_all _) hk.rests hover
    rw [hrun]
    exact hover.of_eq (congrArg Encoding.representations hstill.encoding)
  | targetEnvironment henv =>
    rw [snd_run_bind_pure]
    exact hover.of_succeeds ((continues_targetEnvironment hS henv).mono fun _ _ h => ⟨h, trivial⟩)

namespace EncodingState

theorem Reached.coherent_of_over (h : Reached source S held) (hover : S.Over source.datatypes) :
    S.Coherent source.datatypes :=
  h.coherent (fun _ hd => hd) (Encoding.unambiguous_of_supported
    (h.assembled.registered.provides fun _ hd => hd).toFamily hover)

theorem Reached.registered (h : Reached source S held) :
    Registered S.encoding.source.extensions S.encoding.source.datatypes :=
  h.sound.2.symm ▸ h.assembled.registered

/-- Over the datatypes of the source nothing but instances of these is represented. -/
theorem ReachedOver.over (h : ReachedOver source S held) : S.Over source.datatypes := by
  induction h with
  | start _ hnone =>
    intro r hr
    rw [hnone] at hr
    cases hr
  | session _ _ ih => exact ih
  | encode h hx ih =>
    have hreached := h.reached
    exact hx.over hreached.sound.1.store hreached.registered (hreached.coherent_of_over ih) ih

/-- In a run over the datatypes of the source no two represented instances are taken for each other, a supported
instance has one representation and a supported type one encoding, and types with given types of the environment alone
are told apart by theirs. -/
theorem ReachedOver.tells_apart (h : ReachedOver source S held) :
    (∀ (j k : Nat) (r r' : Representation), S.encoding.representations[j]? = some r →
      S.encoding.representations[k]? = some r' → (r.source.type == r'.source.type) = true → j = k) ∧
    (∀ (i : Instance) (r r' : Representation), i.type.Supported source.datatypes →
      Gave source (Encode.representation i) r S held → Gave source (Encode.representation i) r' S held →
      r = r') ∧
    ∀ T U t u : Ty, T.Supported source.datatypes → U.Supported source.datatypes →
      Gave source (Encode.type T) t S held → Gave source (Encode.type U) u S held → (T = U → t = u) ∧
      (T.givens ⊆ Encoding.initialNames S.encoding.env →
        U.givens ⊆ Encoding.initialNames S.encoding.env → t = u → T = U) := by
  have hfamily := (h.reached.assembled.registered.provides fun _ hd => hd).toFamily
  have hunamb := Encoding.unambiguous_of_supported hfamily h.over
  have hsup : ∀ (j : Nat) r, S.encoding.representations[j]? = some r → r.source.type.Supported source.datatypes :=
    fun j r hj => h.over r (List.mem_of_getElem? hj)
  refine ⟨fun j k r r' hj hk heq => ?_, fun i r r' hi hr hr' => hr.representation_unique hr' hfamily hunamb hi,
    fun T U t u hT hU ht hu => ⟨?_, ?_⟩⟩
  · exact (h.reached.orderly hfamily hunamb).eq_of_beq hj hk (hsup j r hj) (hsup k r' hk) heq
  · rintro rfl
    exact ht.type_unique hu hfamily hunamb hT
  · rintro hTs hUs rfl
    exact ht.type_injective hu hfamily hunamb hT hU hTs hUs

/-- The axioms of all instances are emitted: `pss` are the axioms of one instance after the other, and the run
ends in `S'`. -/
structure Emits (S : EncodingState) (pss : List (List Pred)) (S' : EncodingState) : Prop where
  run : Encode.axioms.run S = (.ok pss.flatten, S')
  /-- No instance is represented and no name is given out. -/
  encoding : S'.encoding = S.encoding
  /-- The axioms of a second run are the same ones. -/
  again : ∃ ps S'', Encode.axioms.run S' = (.ok ps, S'') ∧ Pred.sameAll pss.flatten ps = true
  targetEnvironment : (Encode.targetEnvironment.run S').1 = (Encode.targetEnvironment.run S).1
  clean : ∀ p ∈ pss.flatten, (Formula.pred p).Throughout (Formula.Clean S.encoding.target S'.store)
  each : List.Forall₂ (fun r ps => ∃ T T', T.encoding = S.encoding ∧ r.axioms.run T = (.ok ps, T'))
    S.encoding.representations pss
  /-- What an instance uses has its axioms before those of the instance. -/
  after : ∀ (k : Nat) (r : Representation) (i : Instance), S.encoding.representations[k]? = some r →
    r.source.Uses i → i ≠ r.source →
      ∃ j < k, ∃ r', S.encoding.representations[j]? = some r' ∧ r'.source = i

/-- Where nothing but instances of registered datatypes is represented, the axioms are emitted, and nothing but the
store changes. So they are the same when they are emitted again, and the encoded environment is as before. All nodes of
the axioms are typed, belong to the target and are without datatypes. The axioms of an instance come after those of all
other instances that it uses. -/
theorem Reached.emits_axioms (h : Reached source S held) (hover : S.Over source.datatypes) :
    ∃ pss S', S.Emits pss S' := by
  have hcoherent := h.coherent_of_over hover
  have hS := (Continues.refl hcoherent).rests
  have hL := S.encoding.leaves_all
  obtain ⟨ps, S', hrun, hstill, hclean⟩ := Encode.succeeds_axioms h.registered hL hS hover
  -- the second run starts where the first one ends
  obtain ⟨ps₁, T, hrun₁, ps', S'', hagain, -, -, htwins, pss, rfl, hpss⟩ :=
    Encode.twice_allAxioms h.registered hL hS (hS.still hstill) hover
  obtain ⟨rfl, rfl⟩ : pss.flatten = ps ∧ T = S' := by
    cases hrun.symm.trans hrun₁
    exact ⟨rfl, rfl⟩
  refine ⟨pss, T, hrun, hstill.encoding, ⟨ps', S'', hagain, ?_⟩, ?_, fun p hp => (hclean p hp).1, hpss,
    fun k r i hk hi hne => ?_⟩
  · exact Pred.sameAll_iff.2 (htwins.imp fun _ _ h => h.same)
  · have hvalue := (Encode.parallel_targetEnvironment (congrArg Encoding.outline hstill.encoding)).value
    simpa using hvalue
  · obtain ⟨r', hr', hsource⟩ :=
      (hcoherent.layered.follows hk (hover r (List.mem_of_getElem? hk))).after i hi hne
    obtain ⟨j, hj⟩ := List.mem_iff_getElem?.1 hr'
    have hlt : j < k := by
      by_contra hge
      rw [List.getElem?_take, if_neg hge] at hj
      cases hj
    exact ⟨j, hlt, r', by rwa [List.getElem?_take_of_lt hlt] at hj, hsource⟩

end EncodingState

namespace FiniteList

def nested : EncodingState := asked (start .empty .empty) (lists (lists (.given "S")))

/-- Both instances have a set constructor, and the axioms of the lists come before those of the lists of lists. -/
theorem emits_lists : ∃ (held : Set Formula) (pss : List (List Pred)) (S' : EncodingState),
    EncodingState.Reached FiniteList.source nested held ∧ nested.Over FiniteList.source.datatypes ∧
    nested.Emits pss S' ∧ pss.length = 2 ∧ (∀ r ∈ nested.encoding.representations, r.setConstructor.isSome) ∧
    (nested.encoding.representations.map fun r => r.source.type) ==
      [lists (.given "S"), lists (lists (.given "S"))] := by
  have hstart := reached_start .empty .empty
  obtain ⟨_, held, -, -, hstep, -, hsup⟩ := step_ask hstart (supported (supported (T := .given "S") nofun)) nofun
  have hreached : EncodingState.Reached FiniteList.source nested held := hstart.step hstep
  have hover : nested.Over FiniteList.source.datatypes := by
    unfold nested
    exact hsup
  obtain ⟨pss, S', hemits⟩ := hreached.emits_axioms hover
  have hlength : nested.encoding.representations.length = 2 := by decide +kernel
  exact ⟨held, pss, S', hreached, hover, hemits, hemits.each.length_eq.symm.trans hlength, by decide +kernel,
    by decide +kernel⟩

end FiniteList
end SetLang
