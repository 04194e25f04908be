import SetLang.Proofs.Encoding.SetPair

/-! Emission of axioms. All instances in the set expressions of an instance are represented before it, so that
nothing new comes up meanwhile. The axioms are typed and made of leaves, and whenever they are emitted they are the
same. -/

namespace SetLang

variable {ds : List Datatype} {s s' t t' : Store} {S S' : EncodingState} {T u : Ty} {E : Encoding} {i : Instance}
  {sets sets' : List Expr} {own own' e e' : Expr} {r : Representation} {f : Factory} {K : Expr → Prop}
  {L : List Ty → Expr → Prop} {ts : List Ty}

open EncodingState Formula SetLang.Expr

theorem Expr.SetPair.twice_expr (h : SetPair ds E K T e e' s s') (hu : Ty.image? E.look T = some u)
    (hS : S.Rests ds E s) (hS' : S'.Rests ds E s') : Twice Still (Encode.expr e) (Encode.expr e') S S'
      fun a a' U U' => Twins E.target K (.power u) a a' U.store U'.store := by
  unfold Encode.expr
  refine .bind_run (hS.encoding ▸ Encode.run_target S) (hS'.encoding ▸ Encode.run_target S') ?_
  refine .bind_run (Encode.run_store S) (Encode.run_store S') ?_
  exact h.encodes u hu _ _ S S' hS.store hS'.store hS.self hS'.self

theorem Expr.SetPairs.twice_exprs {Ts us : List Ty} (h : SetPairs ds E K s s' Ts sets sets')
    (hus : List.Forall₂ (fun T u => Ty.image? E.look T = some u) Ts us) (hS : S.Rests ds E s)
    (hS' : S'.Rests ds E s') : Twice Still (sets.mapM Encode.expr) (sets'.mapM Encode.expr) S S'
      fun as as' U U' => TwinSets E.target K us as as' U.store U'.store := by
  induction h generalizing S S' us with
  | nil =>
    cases hus
    exact .pure .nil
  | cons h _ ih =>
    obtain ⟨u, us, hu, hrest, rfl⟩ := List.forall₂_cons_left_iff.1 hus
    rw [List.mapM_cons, List.mapM_cons]
    refine (h.twice_expr hu hS hS').bind fun a a' T T' l l' ha => ?_
    refine (ih hrest (hS.still l) (hS'.still l')).bind fun as as' U U' m m' has => .pure ?_
    exact .cons (ha.mono m.store m'.store) has

theorem forall₂_unzip {α β γ : Type} {Q : α → β → Prop} {xs : List γ} {abs : List (α × β)}
    (h : List.Forall₂ (fun _ ab => Q ab.1 ab.2) xs abs) : List.Forall₂ Q (abs.map Prod.fst) (abs.map Prod.snd) := by
  refine List.forall₂_map_left_iff.2 (List.forall₂_map_right_iff.2 (List.forall₂_same.2 fun ab hab => ?_))
  obtain ⟨x, -, hx⟩ := forall₂_exists_right h.flip hab
  exact hx

theorem Expr.TwinSets.of_forall₂ {xs : List (Expr × Expr)}
    (h : List.Forall₂ (fun x t => Twins f K (.power t) x.1 x.2 s s') xs ts) :
    TwinSets f K ts (xs.map Prod.fst) (xs.map Prod.snd) s s' := by
  induction h with
  | nil => exact .nil
  | cons h _ ih => exact .cons h ih

theorem Encode.twice_image (hleaf : K e) (he : e.Has f S.store (constructorType ts T))
    (he' : e.Has f S'.store (constructorType ts T)) (hT : T.Plain) (hne : ts ≠ [])
    (h : TwinSets f K ts sets sets' S.store S'.store) :
    Twice Still (liftM (f.image e sets) : Encode Expr) (liftM (f.image e sets')) S S' fun a a' U U' =>
      Twins f K (.power T) a a' U.store U'.store :=
  twice_made ((Factory.succeeds_image S.store he hT hne h.left).mono fun _ _ h => ⟨h.1, h.2.1⟩)
    ((Factory.succeeds_image S'.store he' hT hne h.right).mono fun _ _ h => ⟨h.1, h.2.1⟩)
    (Factory.agree_image e.same_refl h.same) ((Factory.yields_imageApplied (List.mem_singleton_self e) sets).mono
      fun _ _ ha => ha.composed (List.forall_mem_singleton.2 hleaf) h.composed)

/-- Two predicates without datatypes, each in a store, that are equal in structure and made of leaves. -/
structure Pred.Twins (f : Factory) (L : List Ty → Expr → Prop) (ts : List Ty) (p p' : Pred) (s s' : Store) : Prop where
  left : (Formula.pred p).Throughout (Clean f s)
  right : (Formula.pred p').Throughout (Clean f s')
  same : p.Same p'
  stated : p.Stated L s ts

theorem Pred.Twins.mono {p p' : Pred} (h : Twins f L ts p p' s s') (k : s.Later t) (k' : s'.Later t') :
    Twins f L ts p p' t t' :=
  ⟨h.left.mono fun _ hg => hg.mono k, h.right.mono fun _ hg => hg.mono k', h.same, h.stated.mono k⟩

abbrev Pred.AllTwins (f : Factory) (L : List Ty → Expr → Prop) (ps ps' : List Pred) (s s' : Store) : Prop :=
  List.Forall₂ (fun p p' => Twins f L [] p p' s s') ps ps'

theorem Pred.AllTwins.mono {ps ps' : List Pred} (h : AllTwins f L ps ps' s s') (k : s.Later t)
    (k' : s'.Later t') : AllTwins f L ps ps' t t' := h.imp fun _ _ h => h.mono k k'

structure Declaration.AllTwins (ts : List Ty) (bs bs' : List Declaration) (s s' : Store) : Prop where
  names : bs.map (·.name) = bs'.map (·.name)
  left : List.Forall₂ (fun b t => b.type? s = some (.power t)) bs ts
  right : List.Forall₂ (fun b t => b.type? s' = some (.power t)) bs' ts

theorem Declaration.AllTwins.mono {bs bs' : List Declaration} (h : AllTwins ts bs bs' s s') (k : s.Later t)
    (k' : s'.Later t') : AllTwins ts bs bs' t t' :=
  ⟨h.names, h.left.imp fun _ _ hb => k.type? _ _ hb, h.right.imp fun _ _ hb => k'.type? _ _ hb⟩

namespace Encode

theorem twice_madePred {x y : Build Pred}
    (hx : Succeeds x S.store fun p s => S.store.Later s ∧ (Formula.pred p).Throughout (Clean f s))
    (hy : Succeeds y S'.store fun p s => S'.store.Later s ∧ (Formula.pred p).Throughout (Clean f s))
    (h : Build.Agree Pred.Same x y) (hstated : Yields x S.store fun p s => p.Stated L s ts) :
    Twice Still (liftM x : Encode Pred) (liftM y) S S' fun p p' U U' => Pred.Twins f L ts p p' U.store U'.store := by
  have hx := (hx.and_yields hstated).mono fun _ _ h => (⟨h.1.1, h.1.2, h.2⟩ : _ ∧ _ ∧ _)
  exact (twice_liftM (.of_succeeds hx hy (h _ _))).mono fun _ _ _ _ _ _ h => ⟨h.1.1, h.2.1, h.2.2, h.1.2⟩

theorem twice_partition {es es' : List Expr} (hne : es ≠ [])
    (h : List.Forall₂ (fun e e' => Twins f (L ts) (.power T) e e' S.store S'.store) es es') :
    Twice Still (liftM (f.partition es) : Encode Pred) (liftM (f.partition es')) S S' fun p p' U U' =>
      Pred.Twins f L ts p p' U.store U'.store := by
  refine twice_madePred (Factory.succeeds_partition (A := T) hne fun e he => ?_)
    (Factory.succeeds_partition (A := T) (ne_nil_of_forall₂ h hne) fun e' he' => ?_)
    (Factory.agree_partition (h.imp fun _ _ h => h.same))
    ((Build.yields_required (Build.yields_pred f (.partition · es))).mono fun p s hp => ?_)
  · obtain ⟨e', -, h⟩ := forall₂_exists_right h he
    exact h.left
  · obtain ⟨e, -, h⟩ := forall₂_exists_right h.flip he'
    exact h.right
  · obtain ⟨n, rfl⟩ := hp
    refine .partition fun e he => ?_
    obtain ⟨e', -, h⟩ := forall₂_exists_right h he
    exact h.composed

theorem twice_quantifiedPred (op : Quantifier) {bs bs' : List Declaration} {p p' : Pred} (hne : ts ≠ [])
    (hplain : ∀ t ∈ ts, t.Plain) (hknows : ∀ t ∈ ts, Knows (L []) t.givens)
    (hbs : Declaration.AllTwins ts bs bs' S.store S'.store) (hp : Pred.Twins f L ts p p' S.store S'.store) :
    Twice Still (liftM (f.quantifiedPred op bs p) : Encode Pred) (liftM (f.quantifiedPred op bs' p')) S S'
      fun q q' U U' => Pred.Twins f L [] q q' U.store U'.store := by
  have hsucceeds : ∀ {bs : List Declaration} {p : Pred} {s : Store},
      List.Forall₂ (fun b t => b.type? s = some (.power t)) bs ts → (Formula.pred p).Throughout (Clean f s) →
      Succeeds (f.quantifiedPred op bs p) s fun q s' => s.Later s' ∧ (Formula.pred q).Throughout (Clean f s') := by
    intro bs p s hbs hp
    refine Factory.succeeds_quantifiedPred op (ne_nil_of_forall₂ hbs.flip hne) (fun b hb => ?_) hp
    obtain ⟨t, ht, htype⟩ := forall₂_exists_right hbs hb
    exact ⟨_, htype, hplain t ht⟩
  refine twice_madePred (hsucceeds hbs.left hp.left) (hsucceeds hbs.right hp.right)
    (Factory.agree_quantifiedPred op hbs.names hp.same)
    (((Build.yields_quantified op p (List.forall₂_map_right_iff.2 hbs.left)).and
      (hsucceeds hbs.left hp.left).yields).mono fun q s h => ?_)
  obtain ⟨⟨n, bs₁, rfl, hbs₁⟩, hlater, -⟩ := h
  rw [List.forall₂_map_right_iff] at hbs₁
  exact .quantified hbs₁ hknows (hp.stated.mono hlater)

/-- Axioms that are typed and planned over leaves, and the same ones in the other run. -/
theorem twice_plans {ks : List Pred.Plan} (htyped : ∀ k ∈ ks, k.Typed f s) (htyped' : ∀ k ∈ ks, k.Typed f s')
    (hS : s.Later S.store) (hS' : s'.Later S'.store)
    (hknows : ∀ k ∈ ks, k.All (L []) fun t => t.Plain ∧ Knows (L []) t.givens) :
    Twice Still (liftM (ks.mapM (·.build f)) : Encode (List Pred)) (liftM (ks.mapM (·.build f))) S S'
      fun ps ps' U U' => Pred.AllTwins f L ps ps' U.store U'.store := by
  have hstated : Yields (ks.mapM (·.build f)) S.store fun ps _ =>
      List.Forall₂ (fun _ (p : Pred) => ∀ t, p.Stated L t []) ks ps :=
    Yields.mapM fun k hk s p s' hrun t => k.yields_stated s t (hknows k hk) p s' hrun
  have hleft := ((Build.succeeds_plans htyped hS).and_yields hstated).mono fun _ _ h =>
    (⟨h.1.1, h.1.2, h.2⟩ : _ ∧ _ ∧ _)
  refine (twice_liftM (.of_succeeds hleft (Build.succeeds_plans htyped' hS') (Build.agree_plans ks _ _))).mono
    fun ps ps' U U' _ _ h => ?_
  obtain ⟨⟨hps, hstated⟩, hps', hsame⟩ := h
  refine List.forall₂_iff_zip.2 ⟨hsame.length_eq, fun {p p'} hp => ?_⟩
  obtain ⟨_, _, hstated⟩ := forall₂_exists_right hstated.flip (List.of_mem_zip hp).1
  exact ⟨hps p (List.of_mem_zip hp).1, hps' p' (List.of_mem_zip hp).2, (List.forall₂_iff_zip.1 hsame).2 hp,
    hstated U.store⟩

end Encode

namespace EncodingState.Rests

variable (h : S.Rests ds E s) (hr : r ∈ E.representations) (hsup : r.source.type.Supported ds)
include h hr hsup

theorem renders : r.Renders ds E.target S.store E.look :=
  h.encoding ▸ h.coherent.renders r (h.encoding ▸ hr) hsup

theorem image?_source : Ty.image? E.look r.source.type = some r.type := by
  have hfound := h.coherent.found r (h.encoding ▸ hr) hsup
  rw [h.encoding] at hfound
  exact Option.map_eq_some_iff.2 ⟨r, hfound, rfl⟩

theorem plain_params : ∀ p ∈ r.params, p.Plain := fun p hp => by
  obtain ⟨a, ha, hap⟩ := forall₂_exists_right (h.renders hr hsup).params.flip hp
  exact h.coherent.plain ((TypeTree.supported_data.1 hsup).2 a ha) (h.encoding ▸ hap)

theorem plain_argTypes : ∀ c ∈ r.constructors, ∀ t ∈ c.argTypes, t.Plain := fun c hc t ht => by
  obtain ⟨c', -, hrenders⟩ := forall₂_exists_right (h.renders hr hsup).constructors.flip hc
  obtain ⟨a, -, T, -, hT, ht⟩ := forall₂_exists_right hrenders.arguments.flip ht
  exact h.coherent.plain hT (h.encoding ▸ ht)

theorem typed : r.Typed E.target S.store :=
  (h.renders hr hsup).typed (h.plain_params hr hsup) (h.plain_argTypes hr hsup)

end EncodingState.Rests

/-- The values that a constructor builds from sets are the same in both runs. -/
theorem Representation.twice_builtFrom {c : Constructor} {image : ConstructorImage} {type : Ty}
    (hreg : Registered E.source.extensions E.source.datatypes)
    (hnames : ∀ r ∈ E.representations, ∀ e ∈ r.exprs, K e) (hS : S.Rests ds E s) (hS' : S'.Rests ds E s')
    (htyped : image.Typed E.target S.store type) (htyped' : image.Typed E.target S'.store type)
    (htype : type.Plain) (hleaf : K image.function) (hknows : ∀ a ∈ c.arguments, Knows K a.type.givens)
    (hargs : List.Forall₂ (fun (a : Argument) t => ∃ T, ArgTy.instantiate? a.type i.args i.type = some T ∧
      T.Supported ds ∧ Ty.image? E.look T = some t) c.arguments image.argTypes)
    (hscope : SetScope ds E K i sets sets' own own' s s') :
    Twice Still (builtFrom E.source E.target sets own c image) (builtFrom E.source E.target sets' own' c image)
      S S' fun e e' U U' => Twins E.target K (.power type) e e' U.store U'.store := by
  have hfunction := htyped.function
  have hfunction' := htyped'.function
  unfold builtFrom
  cases hc : c.arguments with
  | nil =>
    rw [hc] at hargs
    rw [List.forall₂_nil_left_iff.1 hargs] at hfunction hfunction'
    refine Encode.twice_made (Factory.succeeds_singleton hfunction) (Factory.succeeds_singleton hfunction')
      (Factory.agree_singleton image.function.same_refl)
      ((Build.yields_expr _ (.set · [image.function] none)).mono fun e _ he => ?_)
    obtain ⟨n, rfl⟩ := he
    exact (Expr.Composed.leaf hleaf).singleton
  | cons a as =>
    rw [← hc, if_neg (by simp [hc]), if_neg (by simp [hc])]
    -- an argument has one type and one image, which its set stands for in both runs
    refine (Twice.mapM (P := fun (a : Argument) e e' U U' => ∀ T t,
      ArgTy.instantiate? a.type i.args i.type = some T → Ty.image? E.look T = some t →
        Twins E.target K (.power t) e e' U.store U'.store) (fun _ _ _ _ _ _ _ k k' h T t hT ht =>
          (h T t hT ht).mono k.store k'.store) fun a ha U U' k k' => ?_).bind fun xs xs' U U' k k' h => ?_
    · obtain ⟨t, -, T, hT, hsup, ht⟩ := forall₂_exists_right hargs ha
      have hU := hS.still k
      have hU' := hS'.still k'
      refine (Encode.twice_liftM (ArgTy.twice_setExpr hreg hnames hS a.type T t _ _ (hknows a ha) hT hsup ht
        (hscope.mono hU.store hU'.store))).bind fun set set' V V' l l' hset => ?_
      refine (hset.twice_expr ht (hU.still l).self (hU'.still l').self).mono fun e e' _ _ _ _ h T' t' hT' ht' => ?_
      obtain rfl := Option.some_inj.1 (hT.symm.trans hT')
      obtain rfl := Option.some_inj.1 (ht.symm.trans ht')
      exact h
    · obtain ⟨xxs, rfl, rfl, hxxs⟩ := h
      have hpairs : List.Forall₂ (fun x t => Twins E.target K (.power t) x.1 x.2 U.store U'.store) xxs
          image.argTypes := forall₂_join hxxs hargs fun a _ x t hx ht => by
        obtain ⟨T, hT, -, ht⟩ := ht
        exact hx T t hT ht
      have hne : image.argTypes ≠ [] := by
        intro hnil
        rw [hnil, hc] at hargs
        cases hargs
      exact Encode.twice_image hleaf (hfunction.mono k.store) (hfunction'.mono k'.store) htype hne (.of_forall₂ hpairs)

/-- Identifiers that are bound to sets of values of some types, twice. -/
theorem Encode.twice_subsets {Ts us : List Ty} (hL : E.Leaves L) (hsup : ∀ T ∈ Ts, T.Supported ds)
    (hus : List.Forall₂ (fun T u => Ty.image? E.look T = some u) Ts us) :
    Twice Still
      (Ts.zipIdx.mapM fun (T, i) => (liftM (E.source.bound (Ts.length - 1 - i) (some (.power T))) : Encode Expr))
      (Ts.zipIdx.mapM fun (T, i) => (liftM (E.source.bound (Ts.length - 1 - i) (some (.power T))) : Encode Expr)) S S'
      fun sets sets' U U' => SetPairs ds E (L us) U.store U'.store Ts sets sets' := by
  refine (Twice.mapM (P := fun (x : Ty × Nat) e e' (U U' : EncodingState) =>
    SetPair ds E (L us) x.1 e e' U.store U'.store) (fun _ _ _ _ _ _ _ k k' h => ?_) fun x hx U U' _ _ => ?_).mono
      fun sets sets' U U' _ _ h => ?_
  · exact h.mono k.store k'.store
  · obtain ⟨T, i⟩ := x
    have hT : Ts[i]? = some T := List.mem_zipIdx_iff_getElem?.1 hx
    obtain ⟨u, hu, himage⟩ := forall₂_exists_getElem? hus hT
    have hi : i < us.length := (List.getElem?_eq_some_iff.1 hu).1
    have hbound : us.reverse[Ts.length - 1 - i]? = some u := by
      rw [hus.length_eq, List.getElem?_reverse (by omega), ← hu]
      congr 1
      omega
    refine (twice_liftM (.both (Factory.succeeds_bound (Ts.length - 1 - i) T _)
      (Factory.succeeds_bound (Ts.length - 1 - i) T _))).mono fun e e' V V' _ _ h => ?_
    obtain ⟨⟨⟨m, rfl⟩, he⟩, ⟨m', rfl⟩, he'⟩ := h
    exact .bound _ (hsup T (List.mem_of_getElem? hT)) himage (fun n => hL.bound n _ u us hbound) he he'
  · obtain ⟨xs, rfl, rfl, hxs⟩ := h
    rw [← List.zipIdx_map_fst 0 Ts]
    generalize Ts.zipIdx = Ts at hxs
    induction hxs with
    | nil => exact .nil
    | cons hx _ ih => exact .cons hx ih

/-- The application of the datatype of an instance to sets, twice. -/
theorem Encode.twice_own (hreg : Registered E.source.extensions E.source.datatypes)
    (hnames : ∀ r ∈ E.representations, ∀ e ∈ r.exprs, K e) (hS : S.Rests ds E s) (hsup : i.type.Supported ds)
    (hu : Ty.image? E.look i.type = some u) (h : SetPairs ds E K S.store S'.store i.args sets sets') :
    Twice Still (liftM (E.source.extendedExpr i.datatype.applied sets [] none) : Encode Expr)
      (liftM (E.source.extendedExpr i.datatype.applied sets' [] none)) S S'
      fun own own' U U' => SetPair ds E K i.type own own' U.store U'.store := by
  have hd := (TypeTree.supported_data.1 hsup).1
  have hmem := hreg.known i.datatype (hS.encoding ▸ hS.coherent.provides.mem _ hd.1.mem)
  refine (twice_liftM (.both (Factory.succeeds_applied hreg hmem hd.2 h.left)
    (Factory.succeeds_applied hreg hmem hd.2 h.right))).mono fun own own' U U' k k' hown => ?_
  obtain ⟨⟨⟨n, rfl⟩, hown⟩, ⟨n', rfl⟩, hown'⟩ := hown
  exact .applied hnames rfl hsup hu (h.mono k.store k'.store) hown hown'

theorem Encode.twice_declares (xs : List (String × Ty)) :
    Twice Still
      (xs.mapM fun (name, t) => (liftM (Build.declare name (some (.power t))) : Encode Declaration))
      (xs.mapM fun (name, t) => (liftM (Build.declare name (some (.power t))) : Encode Declaration)) S S'
      fun bs bs' U U' => Declaration.AllTwins (xs.map Prod.snd) bs bs' U.store U'.store :=
  (Twice.both (succeeds_declares xs) (succeeds_declares xs)).mono fun _ _ _ _ _ _ h =>
    ⟨h.1.1.trans h.2.1.symm, h.1.2, h.2.2⟩

namespace Representation

variable {set : Expr}

section
variable (hreg : Registered E.source.extensions E.source.datatypes) (hL : E.Leaves L) (hS : S.Rests ds E s)
  (hS' : S'.Rests ds E s') (hr : r ∈ E.representations) (hsup : r.source.type.Supported ds)
include hreg hL hS hS' hr hsup

/-- The values of all constructors that are built from sets, twice. -/
theorem twice_parts (hscope : SetScope ds E (L ts) r.source sets sets' own own' s s') :
    Twice Still
      ((r.source.datatype.constructors.zip r.constructors).mapM fun (c, image) =>
        builtFrom E.source E.target sets own c image)
      ((r.source.datatype.constructors.zip r.constructors).mapM fun (c, image) =>
        builtFrom E.source E.target sets' own' c image) S S'
      (fun es es' U U' => List.Forall₂ (fun e e' => Twins E.target (L ts) (.power r.type) e e' U.store U'.store)
        es es') := by
  refine (Twice.mapM (P := fun _ e e' (U U' : EncodingState) =>
    Twins E.target (L ts) (.power r.type) e e' U.store U'.store) (fun _ _ _ _ _ _ _ l l' h => ?_)
      fun x hx U U' l l' => ?_).mono fun es es' U U' _ _ h => ?_
  · exact h.mono l.store l'.store
  · obtain ⟨c, image⟩ := x
    have hU := hS.still l
    have hU' := hS'.still l'
    have htyped := hU.typed hr hsup
    have htyped' := hU'.typed hr hsup
    obtain ⟨hc, himage⟩ := List.of_mem_zip hx
    have harguments := ((List.forall₂_iff_zip.1 (hU.renders hr hsup).constructors).2 hx).arguments
    refine twice_builtFrom hreg (fun r hr e he => hL.names r hr e he ts) hU hU' (htyped.constructors image himage)
      (htyped'.constructors image himage) htyped.typeExpr.plain ?_ (fun a ha => hL.arguments r hr c hc a ha ts)
      harguments hscope
    exact hL.names r hr _ (mem_exprs_of_constructor himage List.mem_cons_self) ts
  · obtain ⟨ees, rfl, rfl, hees⟩ := h
    exact forall₂_unzip hees

/-- The definition of a set constructor is typed and made of leaves, and the same in both runs. -/
theorem twice_imagePartition (hset : r.setConstructor = some set) :
    Twice Still (r.imagePartition set) (r.imagePartition set) S S' fun p p' U U' =>
      Pred.Twins E.target L [] p p' U.store U'.store := by
  have htyped := hS.typed hr hsup
  have htyped' := hS'.typed hr hsup
  have hparams := (hS.renders hr hsup).params
  obtain ⟨hd, hargs⟩ := TypeTree.supported_data.1 hsup
  have hmem := hreg.known r.source.datatype (hS.encoding ▸ hS.coherent.provides.mem _ hd.1.mem)
  have hne : r.params ≠ [] := by
    intro hnil
    have hhas := (hS.renders hr hsup).hasSets
    rw [hnil, List.forall₂_nil_right_iff] at hparams
    simp [hset, hparams] at hhas
  unfold imagePartition
  refine .bind_run (hS.encoding ▸ Encode.run_current S) (hS'.encoding ▸ Encode.run_current S') ?_
  refine (Encode.twice_subsets hL hargs hparams).bind fun sets sets' S₁ S₁' k₁ k₁' hsets => ?_
  have hS₁ := hS.still k₁
  have hS₁' := hS'.still k₁'
  rw [hreg.typeConstructor hmem]
  refine .bind_run (Encode.run_liftM (Build.lift (.ok r.source.datatype.applied)) S₁)
    (Encode.run_liftM (Build.lift (.ok r.source.datatype.applied)) S₁') ?_
  refine (Encode.twice_own hreg (fun r' hr' e he => hL.names r' hr' e he r.params) hS₁ hsup
    (hS.image?_source hr hsup) hsets).bind fun own own' S₂ S₂' k₂ k₂' hown => ?_
  have hS₂ := hS₁.still k₂
  have hS₂' := hS₁'.still k₂'
  have hsets := hsets.mono k₂.store k₂'.store
  refine (hsets.twice_exprs hparams hS₂.self hS₂'.self).bind fun encoded encoded' S₃ S₃' k₃ k₃' hencoded => ?_
  have hS₃ := hS₂.still k₃
  have hS₃' := hS₂'.still k₃'
  refine (Encode.twice_image (hL.names r hr set (setConstructor_mem_exprs hset) r.params)
    ((htyped.setConstructor set hset).mono (k₁.trans (k₂.trans k₃)).store)
    ((htyped'.setConstructor set hset).mono (k₁'.trans (k₂'.trans k₃')).store) htyped.typeExpr.plain hne
    hencoded).bind fun whole whole' S₄ S₄' k₄ k₄' hwhole => ?_
  have hS₄ := hS₂.self.still (k₃.trans k₄)
  have hS₄' := hS₂'.self.still (k₃'.trans k₄')
  refine (twice_parts hreg hL hS₄ hS₄' hr hsup ⟨hown, hsets⟩).bind fun parts parts' S₅ S₅' k₅ k₅' hparts => ?_
  refine (Encode.twice_declares _).bind fun bs bs' S₆ S₆' k₆ k₆' hbs => ?_
  rw [List.map_snd_zip (by rw [← hd.2, hparams.length_eq])] at hbs
  have hk := k₅.trans k₆
  have hk' := k₅'.trans k₆'
  have hall : List.Forall₂ (fun e e' => Twins E.target (L r.params) (.power r.type) e e' S₆.store S₆'.store)
      (whole :: parts) (whole' :: parts') :=
    .cons (hwhole.mono hk.store hk'.store) (hparts.imp fun _ _ h => h.mono k₆.store k₆'.store)
  refine (Encode.twice_partition (List.cons_ne_nil _ _) hall).bind fun p p' S₇ S₇' k₇ k₇' hp => ?_
  exact Encode.twice_quantifiedPred .all hne (hS.plain_params hr hsup) (fun t ht => hL.params r hr t ht [])
    (hbs.mono k₇.store k₇'.store) hp

theorem twice_setConstructorDefinition :
    Twice Still r.setConstructorDefinition r.setConstructorDefinition S S' fun ps ps' U U' =>
      Pred.AllTwins E.target L ps ps' U.store U'.store := by
  unfold setConstructorDefinition
  cases hset : r.setConstructor with
  | none => exact .pure .nil
  | some set =>
    exact (twice_imagePartition hreg hL hS hS' hr hsup hset).bind fun p p' _ _ _ _ hp => .pure (.cons hp .nil)

/-- The axioms of an instance are typed and made of leaves, and the same in both runs. -/
theorem twice_axioms : Twice Still r.axioms r.axioms S S' fun ps ps' U U' =>
    Pred.AllTwins E.target L ps ps' U.store U'.store := by
  have htyped := hS.typed hr hsup
  have htyped' := hS'.typed hr hsup
  obtain ⟨htyping, hvalues⟩ := List.forall_mem_append.1
    (r.all_knows hL hr (hS.plain_params hr hsup) (hS.plain_argTypes hr hsup))
  rw [axioms_eq]
  refine .bind_run (hS.encoding ▸ Encode.run_target S) (hS'.encoding ▸ Encode.run_target S') ?_
  refine (Encode.twice_plans htyped.typingPlans htyped'.typingPlans (.refl _) (.refl _) htyping).bind
    fun typing typing' S₁ S₁' k₁ k₁' h₁ => ?_
  refine (Encode.twice_plans htyped.valuePlans htyped'.valuePlans k₁.store k₁'.store hvalues).bind
    fun values values' S₂ S₂' k₂ k₂' h₂ => ?_
  refine (twice_setConstructorDefinition hreg hL (hS.still (k₁.trans k₂)) (hS'.still (k₁'.trans k₂')) hr hsup).bind
    fun defs defs' S₃ S₃' k₃ k₃' h₃ => .pure ?_
  have htyping₃ := Pred.AllTwins.mono h₁ (k₂.trans k₃).store (k₂'.trans k₃').store
  have hvalues₃ := Pred.AllTwins.mono h₂ k₃.store k₃'.store
  exact List.rel_append (List.rel_append htyping₃ hvalues₃) h₃

end
end Representation

namespace Encode

/-- In two states of one encoding in which all instances are supported, the axioms are emitted without any
change but to the store. They are typed and made of leaves, and the same ones, representation after representation. -/
theorem twice_allAxioms (hreg : Registered E.source.extensions E.source.datatypes) (hL : E.Leaves L)
    (hS : S.Rests ds E s) (hS' : S'.Rests ds E s') (hsup : ∀ r ∈ E.representations, r.source.type.Supported ds) :
    Twice Still Encode.axioms Encode.axioms S S' fun ps ps' U U' =>
      Pred.AllTwins E.target L ps ps' U.store U'.store ∧ ∃ pss : List (List Pred), ps = pss.flatten ∧
        List.Forall₂ (fun r ps => ∃ T T', T.encoding = E ∧ r.axioms.run T = (.ok ps, T')) E.representations pss := by
  unfold Encode.axioms
  refine .bind_run (hS.encoding ▸ run_current S) (hS'.encoding ▸ run_current S') ?_
  refine (Twice.mapM (P := fun r ps ps' (U U' : EncodingState) =>
    Pred.AllTwins E.target L ps ps' U.store U'.store ∧
      ∃ T T', T.encoding = E ∧ r.axioms.run T = (.ok ps, T')) (fun _ _ _ _ _ _ _ l l' h => ?_)
      fun r hr U U' l l' => ?_).bind fun pss pss' U U' _ _ h => .pure ?_
  · exact ⟨h.1.mono l.store l'.store, h.2⟩
  · refine (Representation.twice_axioms hreg hL (hS.still l) (hS'.still l') hr (hsup r hr)).with_runs.mono
      fun ps ps' V V' _ _ h => ⟨h.2, U, V, (hS.still l).encoding, h.1.1⟩
  · obtain ⟨both, rfl, rfl, hboth⟩ := h
    refine ⟨List.rel_flatten (forall₂_unzip (hboth.imp fun _ _ h => h.1)), _, rfl, ?_⟩
    exact List.forall₂_map_right_iff.2 (hboth.imp fun _ _ h => h.2)

theorem succeeds_axioms (hreg : Registered E.source.extensions E.source.datatypes) (hL : E.Leaves L)
    (hS : S.Rests ds E s) (hsup : ∀ r ∈ E.representations, r.source.type.Supported ds) :
    Succeeds Encode.axioms S fun ps S' => S.Still S' ∧
      ∀ p ∈ ps, (Formula.pred p).Throughout (Clean E.target S'.store) ∧ p.Stated L S'.store [] := by
  refine (twice_allAxioms hreg hL hS hS hsup).self.mono fun ps S' h => ⟨h.1, fun p hp => ?_⟩
  obtain ⟨_, -, hp⟩ := forall₂_exists_right h.2.1 hp
  exact ⟨hp.left, hp.stated⟩

end Encode
end SetLang
