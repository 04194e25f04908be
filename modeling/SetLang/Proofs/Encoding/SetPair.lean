import SetLang.Proofs.Encoding.Agree
import SetLang.Proofs.Encoding.Replace
import SetLang.Proofs.Encoding.SetExpr
import SetLang.Proofs.Encoding.Stated

/-! Encoding of set expressions, twice. Set expressions whose instances are represented are encoded without any
change to the encoding, and so they are encoded alike whenever this is done. Nothing is bound in them, so that what
they are encoded to is composed of leaves. -/

namespace SetLang

variable {ds : List Datatype} {s s' : Store} {f : Factory} {S S' : EncodingState} {T U t u : Ty}
  {i j : Instance} {e e' : Expr} {E : Encoding} {K : Expr → Prop}

theorem Encoding.representation?_congr (h : i.type.named = j.type.named) :
    E.representation? i = E.representation? j := by
  unfold representation?
  congr 1
  funext r
  rw [Bool.eq_iff_iff, TypeTree.beq_iff_named, TypeTree.beq_iff_named, h]

/-- The image of a type depends on the names of datatypes alone. -/
theorem Ty.image?_congr_named (h : U.named = T.named) : image? E.look U = image? E.look T := by
  induction T using TypeTree.ind generalizing U with
  | leaf v => exact nomatch v
  | boolean | given s => cases U <;> simp_all [TypeTree.named, TypeTree.mapData, image?]
  | power a ih =>
    cases U with
    | power b =>
      rw [TypeTree.named_power, TypeTree.named_power, TypeTree.power.injEq] at h
      rw [image?, image?, ih h]
    | _ => simp [TypeTree.named, TypeTree.mapData] at h
  | product a b iha ihb =>
    cases U with
    | product c d =>
      rw [TypeTree.named_product, TypeTree.named_product, TypeTree.product.injEq] at h
      rw [image?, image?, iha h.1, ihb h.2]
    | _ => simp [TypeTree.named, TypeTree.mapData] at h
  | data d as =>
    cases U with
    | data e bs => exact congrArg (Option.map _) (Encoding.representation?_congr (i := ⟨e, bs⟩) (j := ⟨d, as⟩) h)
    | _ => simp [TypeTree.named, TypeTree.mapData] at h

namespace EncodingState

/-- A coherent state of an encoding, whose store came after another one. -/
structure Rests (ds : List Datatype) (E : Encoding) (s : Store) (S : EncodingState) : Prop where
  coherent : S.Coherent ds
  encoding : S.encoding = E
  store : s.Later S.store

namespace Rests

theorem self (h : S.Rests ds E s) : S.Rests ds E S.store := ⟨h.coherent, h.encoding, .refl _⟩

theorem still (h : S.Rests ds E s) (k : S.Still S') : S'.Rests ds E s :=
  ⟨k.quiet.coherent h.coherent, k.encoding.trans h.encoding, h.store.trans k.store⟩

end Rests

end EncodingState

/-- Two expressions of one type, each in a store, that are equal in structure and composed of leaves. -/
structure Expr.Twins (f : Factory) (K : Expr → Prop) (t : Ty) (e e' : Expr) (s s' : Store) : Prop where
  left : e.Has f s t
  right : e'.Has f s' t
  same : e.Same e'
  composed : e.Composed K

theorem Expr.Twins.mono {s₁ s₁' : Store} (h : Twins f K t e e' s s') (k : s.Later s₁) (k' : s'.Later s₁') :
    Twins f K t e e' s₁ s₁' := ⟨h.left.mono k, h.right.mono k', h.same, h.composed⟩

open EncodingState

/-- Set expressions of one type, each in a store, that are encoded alike while nothing but the store changes. -/
structure Expr.SetPair (ds : List Datatype) (E : Encoding) (K : Expr → Prop) (T : Ty) (e e' : Expr) (s s' : Store) :
    Prop where
  supported : T.Supported ds
  image : ∃ t, Ty.image? E.look T = some t
  left : e.Ranges E.source s T
  right : e'.Ranges E.source s' T
  alike : ∀ t t', s.Later t → s'.Later t' → e.isTypeExpr t = e'.isTypeExpr t'
  encodes : ∀ u, Ty.image? E.look T = some u → ∀ t t' S S', s.Later t → s'.Later t' →
    S.Rests ds E t → S'.Rests ds E t' → Twice Still ((Encode.rebuilder E.target).expr t 0 e)
      ((Encode.rebuilder E.target).expr t' 0 e') S S' fun a a' U U' =>
        Twins E.target K (.power u) a a' U.store U'.store

namespace Encode

theorem agree_liftM {α β : Type} {x : Build α} {y : Build β} {R : α → β → Prop} (h : Build.Agree R x y) :
    Yields (liftM x : Encode α) S fun a _ => Yields (liftM y : Encode β) S' fun b _ => R a b :=
  yields_liftM (Q := fun a _ => Yields (liftM y : Encode β) S' fun b _ => R a b)
    ((h _ _).mono fun _ _ hb => yields_liftM hb)

theorem twice_liftM {α β : Type} {x : Build α} {y : Build β} {P : α → β → Store → Store → Prop}
    (h : Twice Store.Later x y S.store S'.store P) : Twice Still (liftM x : Encode α)
      (liftM y : Encode β) S S' fun a b U U' => P a b U.store U'.store := by
  obtain ⟨a, t, hx, b, t', hy, hlater, hlater', hP⟩ := h
  refine ⟨a, ⟨t, S.encoding⟩, ?_, b, ⟨t', S'.encoding⟩, ?_, ⟨hlater, rfl⟩, ⟨hlater', rfl⟩, hP⟩
  · rw [run_liftM, hx]
    rfl
  · rw [run_liftM, hy]
    rfl

theorem twice_made {x y : Build Expr} {u : Ty}
    (hx : Succeeds x S.store fun e s => S.store.Later s ∧ e.Has f s u)
    (hy : Succeeds y S'.store fun e s => S'.store.Later s ∧ e.Has f s u) (h : Build.Agree Expr.Same x y)
    (hc : Yields x S.store fun e _ => e.Composed K) : Twice Still (liftM x : Encode Expr) (liftM y) S S'
      fun a a' U U' => Expr.Twins f K u a a' U.store U'.store := by
  have hx := (hx.and_yields hc).mono fun _ _ h => (⟨h.1.1, h.1.2, h.2⟩ : _ ∧ _ ∧ _)
  exact (twice_liftM (.of_succeeds hx hy (h _ _))).mono fun _ _ _ _ _ _ h => ⟨h.1.1, h.2.1, h.2.2, h.1.2⟩

/-- The type of a set expression is encoded to the type that stands for it, and nothing changes. -/
theorem run_nodeType {g : Factory} (he : e.Ranges g s T) (ht : Ty.image? S.encoding.look T = some t) :
    ((rebuilder f).nodeType s e).run S = (.ok (some (.power t)), S) := by
  obtain ⟨U, hU, hnamed⟩ := he.type
  have himage : Ty.image? S.encoding.look U = some (.power t) :=
    (Ty.image?_congr_named hnamed).trans (Ty.image?_power ht)
  unfold Rebuilder.nodeType
  rw [hU]
  change ((some <$> Encode.type U : Encode (Option Ty))).run S = _
  rw [run_map, run_type himage]

end Encode

namespace Expr.SetPair

variable {t : Store} {a a' b b' : Expr} {A B : Ty} {x : String} {n n' : Node} {o o' : Option Ty}

theorem mono {t' : Store} (h : SetPair ds E K T e e' s s') (k : s.Later t) (k' : s'.Later t') :
    SetPair ds E K T e e' t t' where
  supported := h.supported
  image := h.image
  left := h.left.mono k
  right := h.right.mono k'
  alike _ _ l l' := h.alike _ _ (k.trans l) (k'.trans l')
  encodes u hu _ _ _ _ l l' := h.encodes u hu _ _ _ _ (k.trans l) (k'.trans l')

/-- Set expressions without parts are rebuilt with the type that stands for theirs. -/
theorem leaf (make : Option Ty → Node → Expr) (hsup : T.Supported ds) {u : Ty}
    (hu : Ty.image? E.look T = some u) (hleft : (make o n).Ranges E.source s T)
    (hright : (make o' n').Ranges E.source s' T)
    (halike : ∀ t t', s.Later t → s'.Later t' → (make o n).isTypeExpr t = (make o' n').isTypeExpr t')
    (hnode : ∀ o n, (make o n).node = n) (hexplicit : ∀ o n, (make o n).explicit? = o)
    (hcore : ∀ o n, (Formula.expr (make o n)).extension? = none)
    (hchildren : ∀ o n, (make o n).children = []) (hoperands : ∀ o n, (make o n).operands = [])
    (hrule : ∀ o n, (make o n).scheme.Holds [] (some (TypeTree.power u).named))
    (hsame : ∀ o n n', (make o n).Same (make o n')) (hleaf : ∀ n, K (make (some (.power u)) n))
    (hrebuild : ∀ f t o n, (Encode.rebuilder f).expr t 0 (make o n) = (do
      let o ← (Encode.rebuilder f).nodeType t (make o n)
      liftM (Build.expr f (make o)))) :
    SetPair ds E K T (make o n) (make o' n') s s' := by
  refine ⟨hsup, ⟨u, hu⟩, hleft, hright, halike, fun v hv t t' S S' k k' hS hS' => ?_⟩
  obtain rfl := Option.some_inj.1 (hu.symm.trans hv)
  have hlook : Ty.image? S.encoding.look T = some u := hS.encoding ▸ hu
  have hplain : u.Plain := hS.coherent.plain hsup hlook
  have hmade : ∀ s₁, Succeeds (Build.expr E.target (make (some (.power u)))) s₁ fun e s₂ =>
      s₁.Later s₂ ∧ e.Has E.target s₂ (.power u) := fun s₁ =>
    (Build.succeeds_clean (make (some (.power u))) (t := .power u) hplain (hnode _) (hcore _)
      (fun n g hg => by rw [hchildren] at hg; cases hg) (fun n => by rw [hoperands]; exact hrule _ n)
      fun n => .inr (hexplicit _ n)).mono fun _ _ h => h.2
  rw [hrebuild, hrebuild]
  refine .bind_run (Encode.run_nodeType (hleft.mono k) hlook)
    (Encode.run_nodeType (hright.mono k') (hS'.encoding ▸ hu))
    (Encode.twice_made (hmade _) (hmade _) (Build.agree_expr (hsame _)) ((Build.yields_expr _ _).mono fun e _ he => ?_))
  obtain ⟨m, rfl⟩ := he
  exact .leaf (hleaf m)

theorem bound (i : Nat) (hsup : T.Supported ds) {u : Ty} (hu : Ty.image? E.look T = some u)
    (hleaf : ∀ n, K (.bound n i (some (.power u)))) (hleft : Expr.Ranges E.source s T (.bound n i o))
    (hright : Expr.Ranges E.source s' T (.bound n' i o')) :
    SetPair ds E K T (.bound n i o) (.bound n' i o') s s' :=
  leaf (fun o n => .bound n i o) hsup hu hleft hright (fun _ _ _ _ => rfl) (fun _ _ => rfl) (fun _ _ => rfl)
    (fun _ _ => rfl) (fun _ _ => rfl) (fun _ _ => rfl) (fun _ _ => by simp [Expr.scheme, Scheme.any, Scheme.Holds])
    (fun _ _ _ => by simp [Expr.Same, Expr.same]) hleaf fun _ _ _ _ => rfl

theorem boolSet (hleaf : ∀ n, K (.atom n .boolSet (some (.power .boolean))))
    (hleft : Expr.Ranges E.source s .boolean (.atom n .boolSet o))
    (hright : Expr.Ranges E.source s' .boolean (.atom n' .boolSet o')) :
    SetPair ds E K .boolean (.atom n .boolSet o) (.atom n' .boolSet o') s s' :=
  leaf (fun o n => .atom n .boolSet o) (fun _ h => (List.not_mem_nil h).elim) rfl hleft hright
    (fun _ _ _ _ => rfl) (fun _ _ => rfl) (fun _ _ => rfl) (fun _ _ => rfl) (fun _ _ => rfl) (fun _ _ => rfl)
    (fun _ _ => Atom.holds_boolSet) (fun _ _ _ => by simp [Expr.Same, Expr.same]) hleaf fun _ _ _ _ => rfl

theorem given {g : String} (hleaf : ∀ n, K (.free n g (some (Ty.givenSet g))))
    (hleft : Expr.Ranges E.source s (.given g) (.free n g o))
    (hright : Expr.Ranges E.source s' (.given g) (.free n' g o')) :
    SetPair ds E K (.given g) (.free n g o) (.free n' g o') s s' := by
  have htype : ∀ {s t : Store} {n : Node} {o : Option Ty}, Expr.Ranges E.source s (.given g) (.free n g o) →
      s.Later t → t.type? n.slot = some (.power (.given g)) := by
    intro s t n o h k
    obtain ⟨U, hU, hnamed⟩ := h.type
    refine (k.type? _ _ hU).trans ?_
    rw [TypeTree.Plain.eq_of_named_eq (t := .power (.given g)) rfl hnamed.symm]
  refine leaf (fun o n => .free n g o) (fun _ h => (List.not_mem_nil h).elim) rfl hleft hright
    (fun t t' k k' => ?_) (fun _ _ => rfl) (fun _ _ => rfl) (fun _ _ => rfl) (fun _ _ => rfl) (fun _ _ => rfl)
    (fun _ _ => by simp [Expr.scheme, Scheme.any, Scheme.Holds]) (fun _ _ _ => by simp [Expr.Same, Expr.same])
    hleaf fun _ _ _ _ => rfl
  rw [Expr.isTypeExpr, Expr.isTypeExpr, htype hleft k, htype hright k']

theorem pow (h : SetPair ds E K A a a' s s') (hleft : Expr.Ranges E.source s (.power A) (.unary n .pow a))
    (hright : Expr.Ranges E.source s' (.power A) (.unary n' .pow a')) :
    SetPair ds E K (.power A) (.unary n .pow a) (.unary n' .pow a') s s' := by
  obtain ⟨u, hu⟩ := h.image
  refine ⟨h.supported, ⟨.power u, Ty.image?_power hu⟩, hleft, hright, fun t t' k k' => ?_,
    fun v hv t t' S S' k k' hS hS' => ?_⟩
  · rw [Expr.isTypeExpr, Expr.isTypeExpr, h.alike t t' k k']
  · obtain rfl := Option.some_inj.1 ((Ty.image?_power hu).symm.trans hv)
    rw [Rebuilder.expr, Rebuilder.expr]
    refine .bind_run (Encode.run_nodeType (hleft.mono k) (hS.encoding ▸ hv))
      (Encode.run_nodeType (hright.mono k') (hS'.encoding ▸ hv)) ?_
    refine (h.encodes u hu t t' S S' k k' hS hS').bind fun b b' T T' _ _ hb => ?_
    refine Encode.twice_made (Factory.succeeds_unary .pow hb.left hb.left.plain (UnaryOp.holds_pow u))
      (Factory.succeeds_unary .pow hb.right hb.right.plain (UnaryOp.holds_pow u))
      (Factory.agree_unary .pow hb.same) ((Build.yields_expr _ _).mono fun e _ he => ?_)
    obtain ⟨m, rfl⟩ := he
    exact hb.composed.unary

theorem cprod (ha : SetPair ds E K A a a' s s') (hb : SetPair ds E K B b b' s s')
    (hleft : Expr.Ranges E.source s (.product A B) (.binary n .cprod a b))
    (hright : Expr.Ranges E.source s' (.product A B) (.binary n' .cprod a' b')) :
    SetPair ds E K (.product A B) (.binary n .cprod a b) (.binary n' .cprod a' b') s s' := by
  obtain ⟨u, hu⟩ := ha.image
  obtain ⟨v, hv⟩ := hb.image
  have himage := Ty.image?_product hu hv
  refine ⟨TypeTree.supported_product.2 ⟨ha.supported, hb.supported⟩, ⟨_, himage⟩, hleft, hright,
    fun t t' k k' => ?_, fun w hw t t' S S' k k' hS hS' => ?_⟩
  · rw [Expr.isTypeExpr, Expr.isTypeExpr, ha.alike t t' k k', hb.alike t t' k k']
  · obtain rfl := Option.some_inj.1 (himage.symm.trans hw)
    rw [Rebuilder.expr, Rebuilder.expr]
    refine .bind_run (Encode.run_nodeType (hleft.mono k) (hS.encoding ▸ hw))
      (Encode.run_nodeType (hright.mono k') (hS'.encoding ▸ hw)) ?_
    refine (ha.encodes u hu t t' S S' k k' hS hS').bind fun c c' T T' l l' hc => ?_
    refine (hb.encodes v hv t t' T T' k k' (hS.still l) (hS'.still l')).bind fun d d' U U' m m' hd => ?_
    have hc' := hc.mono m.store m'.store
    have hplain := Factory.pairs_cprod.plain u v hc.left.plain hd.left.plain
    have hrule := Factory.pairs_cprod.rule u v
    refine Encode.twice_made ?_ ?_ (Factory.agree_binary .cprod hc.same hd.same)
      ((Build.yields_expr _ _).mono fun e _ he => ?_)
    · exact (Factory.succeeds_binary .cprod hc'.left hd.left hplain hrule).mono fun _ _ h => ⟨h.1, h.2.1⟩
    · exact (Factory.succeeds_binary .cprod hc'.right hd.right hplain hrule).mono fun _ _ h => ⟨h.1, h.2.1⟩
    · obtain ⟨m, rfl⟩ := he
      exact hc.composed.binary hd.composed

end Expr.SetPair

inductive Expr.SetPairs (ds : List Datatype) (E : Encoding) (K : Expr → Prop) (s s' : Store) :
    List Ty → List Expr → List Expr → Prop
  | nil : SetPairs ds E K s s' [] [] []
  | cons {T : Ty} {Ts : List Ty} {e e' : Expr} {es es' : List Expr} : SetPair ds E K T e e' s s' →
    SetPairs ds E K s s' Ts es es' → SetPairs ds E K s s' (T :: Ts) (e :: es) (e' :: es')

structure Expr.TwinSets (f : Factory) (K : Expr → Prop) (ts : List Ty) (es es' : List Expr) (s s' : Store) : Prop where
  left : List.Forall₂ (fun e t => e.Has f s (.power t)) es ts
  right : List.Forall₂ (fun e t => e.Has f s' (.power t)) es' ts
  same : List.Forall₂ Expr.Same es es'
  composed : ∀ e ∈ es, e.Composed K

namespace Expr.TwinSets

theorem nil : TwinSets f K [] [] [] s s' := ⟨.nil, .nil, .nil, nofun⟩

theorem cons {ts : List Ty} {es es' : List Expr} (h : Twins f K (.power t) e e' s s')
    (k : TwinSets f K ts es es' s s') : TwinSets f K (t :: ts) (e :: es) (e' :: es') s s' :=
  ⟨.cons h.left k.left, .cons h.right k.right, .cons h.same k.same, List.forall_mem_cons.2 ⟨h.composed, k.composed⟩⟩

end Expr.TwinSets

namespace Expr.SetPairs

variable {Ts us : List Ty} {es es' : List Expr}

theorem mono {t t' : Store} (h : SetPairs ds E K s s' Ts es es') (k : s.Later t) (k' : s'.Later t') :
    SetPairs ds E K t t' Ts es es' := by
  induction h with
  | nil => exact .nil
  | cons h _ ih => exact .cons (h.mono k k') ih

theorem left (h : SetPairs ds E K s s' Ts es es') : List.Forall₂ (fun e T => e.Ranges E.source s T) es Ts := by
  induction h with
  | nil => exact .nil
  | cons h _ ih => exact .cons h.left ih

theorem right (h : SetPairs ds E K s s' Ts es es') :
    List.Forall₂ (fun e T => e.Ranges E.source s' T) es' Ts := by
  induction h with
  | nil => exact .nil
  | cons h _ ih => exact .cons h.right ih

theorem alike {t t' : Store} (h : SetPairs ds E K s s' Ts es es') (k : s.Later t) (k' : s'.Later t') :
    Expr.areTypeExprs t es = Expr.areTypeExprs t' es' := by
  induction h with
  | nil => rfl
  | cons h _ ih => rw [Expr.areTypeExprs, Expr.areTypeExprs, h.alike t t' k k', ih]

theorem encodes {t t' : Store} (h : SetPairs ds E K s s' Ts es es')
    (hus : List.Forall₂ (fun T u => Ty.image? E.look T = some u) Ts us) (k : s.Later t) (k' : s'.Later t')
    (hS : S.Rests ds E t) (hS' : S'.Rests ds E t') :
    Twice Still ((Encode.rebuilder E.target).exprs t 0 es) ((Encode.rebuilder E.target).exprs t' 0 es') S S'
      fun as as' U U' => TwinSets E.target K us as as' U.store U'.store := by
  induction h generalizing S S' us with
  | nil =>
    cases hus
    exact .pure .nil
  | cons h _ ih =>
    obtain ⟨u, us, hu, hrest, rfl⟩ := List.forall₂_cons_left_iff.1 hus
    rw [Rebuilder.exprs, Rebuilder.exprs]
    refine (h.encodes u hu t t' S S' k k' hS hS').bind fun a a' T T' l l' ha => ?_
    refine (ih hrest (hS.still l) (hS'.still l')).bind fun as as' U U' m m' has => .pure ?_
    exact .cons (ha.mono m.store m'.store) has

end Expr.SetPairs

/-- Replacements of applications of an extension agree, if both are type expressions or none is. -/
theorem Representation.agree_replace {r : Representation} {d : Datatype} {ext : Extension}
    {es es' : List Expr} (hrole : ext.role? = some (d, .typeConstructor))
    (htarget : S.encoding.target = S'.encoding.target)
    (halike : e.isTypeExpr S.store = e'.isTypeExpr S'.store) (hes : List.Forall₂ Expr.Same es es') :
    Yields (r.replace e ext es) S fun a _ => Yields (r.replace e' ext es') S' fun b _ => a.Same b := by
  have hreplace : ∀ (S : EncodingState) e es, (r.replace e ext es).run S =
      (r.setConstructor.elim (pure r.typeExpr) fun set => if e.isTypeExpr S.store then pure r.typeExpr else
        liftM (S.encoding.target.image set es) : Encode Expr).run S := by
    intro S e es
    unfold replace
    rw [run_bind_ok (Encode.run_target S), hrole]
    dsimp only
    cases r.setConstructor with
    | none => rfl
    | some set => exact run_bind_ok (Encode.run_store S)
  intro a T ha b T' hb
  rw [hreplace] at ha hb
  revert a T ha b T' hb
  cases r.setConstructor with
  | none => exact Yields.pure (Yields.pure r.typeExpr.same_refl)
  | some set =>
    dsimp only [Option.elim_some]
    rw [← halike, ← htarget]
    split_ifs
    · exact Yields.pure (Yields.pure r.typeExpr.same_refl)
    · exact Encode.agree_liftM (Factory.agree_image set.same_refl hes)

/-- Sets of values of the parameters stand for sets of values of the type arguments. -/
theorem Representation.Renders.hasImages {r : Representation} {as : List Expr}
    (hr : r.Renders ds S.encoding.target S.store S.encoding.look) (hS : S.Rests ds E s)
    (has : List.Forall₂ (fun a p => a.Has E.target S.store (.power p)) as r.params) :
    List.Forall₂ S.HasImage (r.source.args.map .power) as :=
  List.forall₂_map_left_iff.2 <| forall₂_join hr.params.flip has.flip fun p _ _ _ hT ha =>
    ⟨.power p, Ty.image?_power hT, hS.encoding ▸ ha⟩

/-- In two states of an encoding, an application to the same sets is replaced alike. -/
theorem Representation.Renders.twice_replace {r : Representation} {d : Datatype} {ext : Extension}
    {as as' : List Expr} (hr : r.Renders ds S.encoding.target S.store S.encoding.look)
    (hr' : r.Renders ds S'.encoding.target S'.store S'.encoding.look) (hS : S.Rests ds E s)
    (hS' : S'.Rests ds E s') (hsup : r.source.type.Supported ds)
    (hrole : ext.role? = some (d, .typeConstructor))
    (halike : e.isTypeExpr S.store = e'.isTypeExpr S'.store) (hnames : ∀ e ∈ r.exprs, K e)
    (has : Expr.TwinSets E.target K r.params as as' S.store S'.store) :
    Twice Still (r.replace e ext as) (r.replace e' ext as') S S' fun a a' U U' =>
      Expr.Twins E.target K (.power r.type) a a' U.store U'.store := by
  have hargs := (TypeTree.supported_data.1 hsup).2
  have hleft := ((hr.succeeds_typeConstructor hS.coherent hrole hargs (hr.hasImages hS has.left)).and_yields
    (r.yields_replace e ext as S)).mono fun _ _ h => (⟨h.1.1, h.1.2.1, h.2⟩ : _ ∧ _ ∧ _)
  refine (Twice.of_succeeds hleft
    (hr'.succeeds_typeConstructor hS'.coherent hrole hargs (hr'.hasImages hS' has.right))
    (agree_replace hrole (hS.encoding.trans hS'.encoding.symm ▸ rfl) halike has.same)).mono
      fun a a' U U' _ _ h => ⟨?_, ?_, h.2.2, h.1.2.composed hnames has.composed⟩
  · exact hS.encoding ▸ h.1.1
  · exact hS'.encoding ▸ h.2.1.1

namespace EncodingState.Rests

variable {d : Datatype} {Ts : List Ty} {r : Representation}

theorem rendered (h : S.Rests ds E s) (hi : i.type.Supported ds) (hr : E.representation? i = some r) :
    r.source = i ∧ r.Renders ds S.encoding.target S.store S.encoding.look := by
  obtain ⟨hmem, hsource⟩ := h.coherent.source_eq hi (h.encoding ▸ hr)
  exact ⟨hsource, h.coherent.renders r hmem (hsource ▸ hi)⟩

/-- The parameters of a represented instance stand for its type arguments. -/
theorem images_args (h : S.Rests ds E s) (hsup : (.data d Ts : Ty).Supported ds)
    (hr : E.representation? ⟨d, Ts⟩ = some r) :
    List.Forall₂ (fun T p => Ty.image? E.look T = some p) Ts r.params := by
  obtain ⟨hsource, hrenders⟩ := h.rendered (i := ⟨d, Ts⟩) hsup hr
  have hparams := hrenders.params
  rwa [hsource, h.encoding] at hparams

/-- An application of the type constructor of a represented instance is replaced. -/
theorem run_extended {n : Node} {ext : Extension} {es as : List Expr} {o o' : Option Ty} {g : Factory}
    (h : S.Rests ds E s) (hr : E.representation? ⟨d, Ts⟩ = some r)
    (hrole : ext.role? = some (d, .typeConstructor))
    (hranges : Expr.Ranges g s (.data d Ts) (.extended n ext es [] o)) :
    (Encode.extended f (.extended n ext es [] o) ext as [] o').run S =
      (r.replace (.extended n ext es [] o) ext as).run S := by
  obtain ⟨U, hU, hnamed⟩ := (hranges.mono h.store).type
  obtain ⟨i, rfl, hi⟩ : ∃ i : Instance, U = .power i.type ∧ i.type.named = (⟨d, Ts⟩ : Instance).type.named := by
    cases U with
    | power a =>
      rw [TypeTree.named_power, TypeTree.named_power, TypeTree.power.injEq] at hnamed
      cases a with
      | data d' as => exact ⟨⟨d', as⟩, rfl, hnamed⟩
      | _ => simp [TypeTree.named, TypeTree.mapData] at hnamed
    | _ => simp [TypeTree.named, TypeTree.mapData] at hnamed
  have hfound : S.encoding.representation? i = some r := by
    rw [Encoding.representation?_congr hi, h.encoding]
    exact hr
  have hinst : Encode.instanceOf? S.store .typeConstructor (.extended n ext es [] o) es = some i :=
    congrArg (·.bind fun t => (Ty.base? t).bind Ty.instance?) hU
  unfold Encode.extended
  rw [hrole]
  dsimp only
  rw [run_bind_ok (Encode.run_store S), hinst]
  exact run_bind_ok (Encode.run_represented hfound)

end EncodingState.Rests

namespace Expr.SetPair

variable {n n' : Node} {o o' : Option Ty} {d : Datatype} {ext : Extension} {Ts : List Ty} {es es' : List Expr}
  {u : Ty}

/-- Applications of the type constructor of a represented instance. -/
theorem applied (hnames : ∀ r ∈ E.representations, ∀ e ∈ r.exprs, K e) (hrole : ext.role? = some (d, .typeConstructor))
    (hsup : (.data d Ts : Ty).Supported ds)
    (hu : Ty.image? E.look (.data d Ts) = some u) (h : SetPairs ds E K s s' Ts es es')
    (hleft : Expr.Ranges E.source s (.data d Ts) (.extended n ext es [] o))
    (hright : Expr.Ranges E.source s' (.data d Ts) (.extended n' ext es' [] o')) :
    SetPair ds E K (.data d Ts) (.extended n ext es [] o) (.extended n' ext es' [] o') s s' := by
  have halike : ∀ t t', s.Later t → s'.Later t' → Expr.isTypeExpr t (.extended n ext es [] o) =
      Expr.isTypeExpr t' (.extended n' ext es' [] o') := fun t t' k k' => by
    rw [Expr.isTypeExpr, Expr.isTypeExpr, h.alike k k']
  refine ⟨hsup, ⟨u, hu⟩, hleft, hright, halike, fun v hv t t' S S' k k' hS hS' => ?_⟩
  obtain rfl := Option.some_inj.1 (hu.symm.trans hv)
  obtain ⟨r, hr, rfl⟩ := Option.map_eq_some_iff.1 hu
  rw [Rebuilder.expr, Rebuilder.expr]
  refine .bind_run (Encode.run_nodeType (hleft.mono k) (hS.encoding ▸ hv))
    (Encode.run_nodeType (hright.mono k') (hS'.encoding ▸ hv)) ?_
  refine (h.encodes (hS.images_args hsup hr) k k' hS hS').bind fun as as' T T' l l' has => ?_
  rw [Rebuilder.preds, Rebuilder.preds]
  refine .bind_run (run_pure [] T) (run_pure [] T') ?_
  have hT := hS.still l
  have hT' := hS'.still l'
  obtain ⟨hsource, hrenders⟩ := hT.rendered (i := ⟨d, Ts⟩) hsup hr
  obtain ⟨-, hrenders'⟩ := hT'.rendered (i := ⟨d, Ts⟩) hsup hr
  refine .of_run (hT.run_extended hr hrole (hleft.mono k)) (hT'.run_extended hr hrole (hright.mono k')) ?_
  exact hrenders.twice_replace hrenders' hT hT' (hsource ▸ hsup) hrole
    (halike _ _ (k.trans hT.store) (k'.trans hT'.store)) (hnames r (Encoding.mem_of_representation? hr).1) has

end Expr.SetPair

/-! Set expressions that are made. -/

namespace Expr.SetPairs

variable {Ts : List Ty} {es es' : List Expr}

theorem get {k : Nat} (h : SetPairs ds E K s s' Ts es es') (hT : Ts[k]? = some T) :
    ∃ e e', es[k]? = some e ∧ es'[k]? = some e' ∧ SetPair ds E K T e e' s s' := by
  induction h generalizing k with
  | nil => cases hT
  | cons h _ ih =>
    cases k with
    | zero =>
      cases hT
      exact ⟨_, _, rfl, rfl, h⟩
    | succ k => exact ih hT

end Expr.SetPairs

/-- Sets for the type arguments of an instance and for the instance itself, twice. -/
structure SetScope (ds : List Datatype) (E : Encoding) (K : Expr → Prop) (i : Instance) (sets sets' : List Expr)
    (own own' : Expr) (s s' : Store) : Prop where
  own : Expr.SetPair ds E K i.type own own' s s'
  sets : Expr.SetPairs ds E K s s' i.args sets sets'

theorem SetScope.mono {sets sets' : List Expr} {own own' : Expr} {t t' : Store}
    (h : SetScope ds E K i sets sets' own own' s s') (k : s.Later t) (k' : s'.Later t') :
    SetScope ds E K i sets sets' own own' t t' := ⟨h.own.mono k k', h.sets.mono k k'⟩

open SetLang.Expr (SetPair SetPairs Knows)

section
variable {t t' : Store} {sets sets' : List Expr} {own own' : Expr}

mutual

/-- The set expressions of an argument type for sets that are encoded alike are encoded alike. -/
theorem ArgTy.twice_setExpr (hreg : Registered E.source.extensions E.source.datatypes)
    (hnames : ∀ r ∈ E.representations, ∀ e ∈ r.exprs, K e) (hS : S.Rests ds E s) :
    ∀ (a : ArgTy) (T u : Ty) (t t' : Store), Knows K a.givens →
      ArgTy.instantiate? a i.args i.type = some T → T.Supported ds → Ty.image? E.look T = some u →
      SetScope ds E K i sets sets' own own' t t' → Twice Store.Later (ArgTy.setExpr E.source sets own a)
        (ArgTy.setExpr E.source sets' own' a) t t' (SetPair ds E K T)
  | .leaf .self, T, u, t, t', _, hT, _, _, hscope => by
    obtain rfl := Option.some_inj.1 hT
    exact .pure hscope.own
  | .leaf (.param k), T, u, t, t', _, hT, _, _, hscope => by
    obtain ⟨e, e', he, he', hpair⟩ := hscope.sets.get hT
    rw [ArgTy.setExpr, ArgTy.setExpr, he, he']
    exact .pure hpair
  | .boolean, T, u, t, t', hknows, hT, _, _, _ => by
    obtain rfl := Option.some_inj.1 hT
    rw [ArgTy.setExpr, ArgTy.setExpr]
    refine (Twice.both (Factory.succeeds_boolSet t) (Factory.succeeds_boolSet t')).mono
      fun e e' v v' _ _ h => ?_
    obtain ⟨⟨⟨n, rfl⟩, he⟩, ⟨n', rfl⟩, he'⟩ := h
    exact .boolSet (fun n => hknows.boolSet n _) he he'
  | .given g, T, u, t, t', hknows, hT, _, _, _ => by
    obtain rfl := Option.some_inj.1 hT
    rw [ArgTy.setExpr, ArgTy.setExpr]
    refine (Twice.both (Factory.succeeds_given g t) (Factory.succeeds_given g t')).mono
      fun e e' v v' _ _ h => ?_
    obtain ⟨⟨⟨n, rfl⟩, he⟩, ⟨n', rfl⟩, he'⟩ := h
    exact .given (hknows.given g List.mem_cons_self) he he'
  | .power a, T, u, t, t', hknows, hT, hsup, hu, hscope => by
    obtain ⟨A, hA, rfl⟩ := ArgTy.instantiate?_power.1 hT
    obtain ⟨v, hv, -⟩ := Option.map_eq_some_iff.1 hu
    rw [ArgTy.setExpr, ArgTy.setExpr]
    refine (ArgTy.twice_setExpr hreg hnames hS a A v t t' hknows hA hsup hv hscope).bind fun b b' v v' _ _ hb => ?_
    refine (Twice.both (Factory.succeeds_pow hb.left) (Factory.succeeds_pow hb.right)).mono
      fun e e' w w' k k' h => ?_
    obtain ⟨⟨⟨n, rfl⟩, he⟩, ⟨n', rfl⟩, he'⟩ := h
    exact (hb.mono k k').pow he he'
  | .product a b, T, u, t, t', hknows, hT, hsup, hu, hscope => by
    obtain ⟨A, hA, B, hB, rfl⟩ := ArgTy.instantiate?_product.1 hT
    rw [TypeTree.supported_product] at hsup
    obtain ⟨v, hv, hprod⟩ := Option.bind_eq_some_iff.1 hu
    obtain ⟨w, hw, -⟩ := Option.map_eq_some_iff.1 hprod
    rw [ArgTy.setExpr, ArgTy.setExpr]
    have hleft := hknows.subset (List.subset_append_left a.givens b.givens)
    have hright := hknows.subset (List.subset_append_right a.givens b.givens)
    refine (ArgTy.twice_setExpr hreg hnames hS a A v t t' hleft hA hsup.1 hv hscope).bind
      fun c c' x x' k k' hc => ?_
    refine (ArgTy.twice_setExpr hreg hnames hS b B w x x' hright hB hsup.2 hw (hscope.mono k k')).bind
      fun d d' y y' l l' hd => ?_
    have hc := hc.mono l l'
    refine (Twice.both (Factory.succeeds_cprod hc.left hd.left) (Factory.succeeds_cprod hc.right
      hd.right)).mono fun e e' z z' m m' h => ?_
    obtain ⟨⟨⟨n, rfl⟩, he⟩, ⟨n', rfl⟩, he'⟩ := h
    exact (hc.mono m m').cprod (hd.mono m m') he he'
  | .data d as, T, u, t, t', hknows, hT, hsup, hu, hscope => by
    obtain ⟨Ts, hTs, rfl⟩ := ArgTy.instantiate?_data.1 hT
    have hd := (TypeTree.supported_data.1 hsup).1
    have hmem := hreg.known d (hS.encoding ▸ hS.coherent.provides.mem d hd.1.mem)
    obtain ⟨r, hr, -⟩ := Option.map_eq_some_iff.1 hu
    rw [ArgTy.setExpr, ArgTy.setExpr]
    refine (ArgTy.twice_setExprs hreg hnames hS as Ts r.params t t' hknows hTs (TypeTree.supported_data.1 hsup).2
      (hS.images_args hsup hr) hscope).bind fun es es' v v' _ _ hes => ?_
    rw [hreg.typeConstructor hmem]
    refine .bind_run (run_pure d.applied v) (run_pure d.applied v') ?_
    refine (Twice.both (Factory.succeeds_applied hreg hmem hd.2 hes.left)
      (Factory.succeeds_applied hreg hmem hd.2 hes.right)).mono fun e e' w w' k k' h => ?_
    obtain ⟨⟨⟨n, rfl⟩, he⟩, ⟨n', rfl⟩, he'⟩ := h
    exact .applied hnames rfl hsup hu (hes.mono k k') he he'

theorem ArgTy.twice_setExprs (hreg : Registered E.source.extensions E.source.datatypes)
    (hnames : ∀ r ∈ E.representations, ∀ e ∈ r.exprs, K e) (hS : S.Rests ds E s) :
    ∀ (as : List ArgTy) (Ts us : List Ty) (t t' : Store), Knows K (TypeTree.givensAll as) →
      as.mapM (ArgTy.instantiate? · i.args i.type) = some Ts → (∀ T ∈ Ts, T.Supported ds) →
      List.Forall₂ (fun T u => Ty.image? E.look T = some u) Ts us →
      SetScope ds E K i sets sets' own own' t t' → Twice Store.Later (ArgTy.setExprs E.source sets own as)
        (ArgTy.setExprs E.source sets' own' as) t t' fun es es' v v' => SetPairs ds E K v v' Ts es es'
  | [], Ts, us, t, t', _, hTs, _, _, _ => by
    cases hTs
    exact .pure .nil
  | a :: as, Ts, us, t, t', hknows, hTs, hsup, hus, hscope => by
    obtain ⟨T, Ts, hT, hrest, rfl⟩ := List.forall₂_cons_left_iff.1 (mapM_eq_some_iff.1 hTs)
    obtain ⟨u, us, hu, hus', rfl⟩ := List.forall₂_cons_left_iff.1 hus
    rw [List.forall_mem_cons] at hsup
    rw [ArgTy.setExprs, ArgTy.setExprs]
    have hhead := hknows.subset (List.subset_append_left a.givens (TypeTree.givensAll as))
    have htail := hknows.subset (List.subset_append_right a.givens (TypeTree.givensAll as))
    refine (ArgTy.twice_setExpr hreg hnames hS a T u t t' hhead hT hsup.1 hu hscope).bind
      fun e e' v v' k k' he => ?_
    refine (ArgTy.twice_setExprs hreg hnames hS as Ts us v v' htail (mapM_eq_some_iff.2 hrest) hsup.2 hus'
      (hscope.mono k k')).bind fun es es' w w' l l' hes => ?_
    exact .pure (.cons (he.mono l l') hes)

end
end
end SetLang
