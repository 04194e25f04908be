import SetLang.Proofs.Encoding.Plan
import SetLang.Proofs.Encoding.Traced

/-! What axioms are made of. They are comparisons and partitions of what is composed of leaves, and the definition of
a set constructor is a partition below the declarations of the sets of parameter values. -/

namespace SetLang

variable {E : Encoding} {s s' : Store} {f : Factory} {a e : Expr} {es : List Expr} {p : Pred} {n : Node} {ts : List Ty}
  {K K' : Expr → Prop} {L : List Ty → Expr → Prop}

namespace Expr

theorem Composed.bind (h : e.Composed K) (hK : ∀ a, K a → a.Composed K') : e.Composed K' := by
  induction h with
  | leaf h => exact hK _ h
  | node hcore hchildren hexplicit hdetermines _ ih => exact .node hcore hchildren hexplicit hdetermines ih

theorem Composed.unary {op : UnaryOp} (h : a.Composed K) : (Expr.unary n op a).Composed K :=
  .node rfl rfl rfl op.determines (List.forall_mem_singleton.2 h)

theorem Composed.singleton (h : a.Composed K) : (Expr.set n [a] none).Composed K :=
  .node rfl rfl rfl (Scheme.determines_one fun _ hv => hv) (List.forall_mem_singleton.2 h)

theorem Applied.composed {fs : List Expr} (h : e.Applied fs es) (hfs : ∀ a ∈ fs, K a)
    (hes : ∀ a ∈ es, a.Composed K) : e.Composed K := by
  cases h with
  | constant he => exact .leaf (hfs _ he)
  | applied _ he htuple => exact (Composed.leaf (hfs _ he)).binary (htuple.bind hes)

/-- The set of the truth values and the sets of some given types are leaves. -/
structure Knows (K : Expr → Prop) (gs : List String) : Prop where
  boolSet : ∀ n o, K (.atom n .boolSet o)
  given : ∀ g ∈ gs, ∀ n, K (.free n g (some (Ty.givenSet g)))

theorem Knows.subset {gs hs : List String} (h : Knows K gs) (k : hs ⊆ gs) : Knows K hs :=
  ⟨h.boolSet, fun g hg => h.given g (k hg)⟩

theorem Knows.append {gs hs : List String} (h : Knows K gs) (k : Knows K hs) : Knows K (gs ++ hs) :=
  ⟨h.boolSet, fun g hg => (List.mem_append.1 hg).elim (h.given g) (k.given g)⟩

end Expr

open SetLang.Expr (Knows)

theorem Factory.yields_composedType {t : Ty} (ht : t.Plain) (hK : Knows K t.givens) (s : Store) :
    Yields (f.typeExpr t) s fun e _ => e.Composed K := by
  induction t using TypeTree.ind generalizing s with
  | leaf v => exact v.elim
  | boolean =>
    rw [typeExpr]
    refine (Build.yields_expr f (.atom · .boolSet none)).mono fun e _ h => ?_
    obtain ⟨n, rfl⟩ := h
    exact .leaf (hK.boolSet n none)
  | given g =>
    rw [typeExpr]
    refine (Build.yields_expr f (.free · g (some (Ty.givenSet g)))).mono fun e _ h => ?_
    obtain ⟨n, rfl⟩ := h
    exact .leaf (hK.given g List.mem_cons_self n)
  | power a ih =>
    rw [typeExpr]
    refine (ih ht hK s).bind fun b s₁ hb => ?_
    refine (Build.yields_expr f (.unary · .pow b)).mono fun e _ h => ?_
    obtain ⟨n, rfl⟩ := h
    exact hb.unary
  | product a b iha ihb =>
    obtain ⟨ha, hb⟩ : a.Plain ∧ b.Plain := List.append_eq_nil_iff.1 ht
    have hka := hK.subset (List.subset_append_left a.givens b.givens)
    have hkb := hK.subset (List.subset_append_right a.givens b.givens)
    rw [typeExpr]
    refine (iha ha hka s).bind fun c s₁ hc => (ihb hb hkb s₁).bind fun d s₂ hd => ?_
    refine (Build.yields_expr f (.binary · .cprod c d)).mono fun e _ h => ?_
    obtain ⟨n, rfl⟩ := h
    exact hc.binary hd
  | data d as _ => cases ht

/-- What is planned over leaves and types that they know is composed of leaves. -/
theorem Expr.Plan.yields_composed (k : Expr.Plan) (s : Store) (h : k.All K fun t => t.Plain ∧ Knows K t.givens) :
    Yields (k.build f) s fun e _ => e.Composed K := by
  induction k generalizing s with
  | made e => exact Yields.pure (.leaf h)
  | type t => exact Factory.yields_composedType h.1 h.2 s
  | unary op a ih =>
    refine (ih s h).bind fun b s₁ hb => (Build.yields_expr f (.unary · op b)).mono fun e _ he => ?_
    obtain ⟨n, rfl⟩ := he
    exact hb.unary
  | binary op a b iha ihb =>
    refine (iha s h.1).bind fun c s₁ hc => (ihb s₁ h.2).bind fun d s₂ hd => ?_
    refine (Build.yields_expr f (.binary · op c d)).mono fun e _ he => ?_
    obtain ⟨n, rfl⟩ := he
    exact hc.binary hd
  | singleton a ih =>
    refine (ih s h).bind fun b s₁ hb => (Build.yields_expr f (.set · [b] none)).mono fun e _ he => ?_
    obtain ⟨n, rfl⟩ := he
    exact hb.singleton

/-- Comparisons, partitions and quantifications over sets of values of some types. Below declarations of such sets
there are leaves for their types. -/
inductive Pred.Stated (L : List Ty → Expr → Prop) (s : Store) : List Ty → Pred → Prop
  | comparison {n : Node} {op : Comparison} {a b : Expr} {ts : List Ty} : a.Composed (L ts) → b.Composed (L ts) →
    Stated L s ts (.comparison n op a b)
  | partition {n : Node} {es : List Expr} {ts : List Ty} : (∀ e ∈ es, e.Composed (L ts)) →
    Stated L s ts (.partition n es)
  | quantified {n : Node} {op : Quantifier} {bs : List Declaration} {p : Pred} {ts : List Ty} :
    List.Forall₂ (fun b t => b.type? s = some (.power t)) bs ts → (∀ t ∈ ts, Knows (L []) t.givens) →
    Stated L s ts p → Stated L s [] (.quantified n op bs p)

theorem Pred.Stated.mono (h : p.Stated L s ts) (k : s.Later s') : p.Stated L s' ts := by
  induction h with
  | comparison ha hb => exact .comparison ha hb
  | partition hes => exact .partition hes
  | quantified hbs hts _ ih => exact .quantified (hbs.imp fun _ _ h => k.type? _ _ h) hts ih

theorem Pred.Plan.yields_stated (k : Pred.Plan) (s t : Store)
    (h : k.All (L []) fun t => t.Plain ∧ Knows (L []) t.givens) : Yields (k.build f) s fun p _ => p.Stated L t [] := by
  cases k with
  | comparison op a b =>
    refine (a.yields_composed s h.1).bind fun c s₁ hc => (b.yields_composed s₁ h.2).bind fun d s₂ hd => ?_
    refine (Build.yields_pred f (.comparison · op c d)).mono fun p _ hp => ?_
    obtain ⟨n, rfl⟩ := hp
    exact .comparison hc hd
  | partition es =>
    refine (Yields.mapM fun e he s₁ => e.yields_composed s₁ (h e he)).bind fun es' s₁ hes => ?_
    refine (Build.yields_required (Build.yields_pred f (.partition · es'))).mono fun p _ hp => ?_
    obtain ⟨n, rfl⟩ := hp
    refine .partition fun e he => ?_
    obtain ⟨_, _, he⟩ := forall₂_exists_right hes.flip he
    exact he

/-- The leaves of axioms: what stands for instances, the identifiers that are bound to sets of values of some types,
the last of which is the innermost, and the sets of the truth values and of the given types that instances name. -/
structure Encoding.Leaves (E : Encoding) (L : List Ty → Expr → Prop) : Prop where
  names : ∀ r ∈ E.representations, ∀ e ∈ r.exprs, ∀ ts, L ts e
  bound : ∀ n i T ts, ts.reverse[i]? = some T → L ts (.bound n i (some (.power T)))
  params : ∀ r ∈ E.representations, ∀ t ∈ r.params, ∀ ts, Knows (L ts) t.givens
  argTypes : ∀ r ∈ E.representations, ∀ c ∈ r.constructors, ∀ t ∈ c.argTypes, ∀ ts, Knows (L ts) t.givens
  arguments : ∀ r ∈ E.representations, ∀ c ∈ r.source.datatype.constructors, ∀ a ∈ c.arguments, ∀ ts,
    Knows (L ts) a.type.givens

/-- Any expression may count as a leaf. -/
theorem Encoding.leaves_all (E : Encoding) : E.Leaves fun _ _ => True :=
  have hknows : ∀ gs, Knows (fun _ => True) gs := fun _ => ⟨fun _ _ => trivial, fun _ _ _ => trivial⟩
  ⟨fun _ _ _ _ _ => trivial, fun _ _ _ _ _ => trivial, fun _ _ _ _ _ => hknows _, fun _ _ _ _ _ _ _ => hknows _,
    fun _ _ _ _ _ _ _ => hknows _⟩

/-- The plans of the axioms of an instance are over leaves. -/
theorem Representation.all_knows {r : Representation} (hL : E.Leaves L) (hr : r ∈ E.representations)
    (hparams : ∀ t ∈ r.params, t.Plain) (hargs : ∀ c ∈ r.constructors, ∀ t ∈ c.argTypes, t.Plain) :
    ∀ k ∈ r.typingPlans ++ r.valuePlans, k.All (L []) fun t => t.Plain ∧ Knows (L []) t.givens := by
  have hproduct : ∀ a b : Ty, a.Plain ∧ Knows (L []) a.givens → b.Plain ∧ Knows (L []) b.givens →
      (TypeTree.product a b : Ty).Plain ∧ Knows (L []) (TypeTree.product a b).givens :=
    fun a b ha hb => ⟨List.append_eq_nil_iff.2 ⟨ha.1, hb.1⟩, ha.2.append hb.2⟩
  refine List.forall_mem_append.2 ⟨all_typingPlans hproduct (fun e he => hL.names r hr e he []) fun t ht => ?_,
    all_valuePlans hproduct (fun e he => hL.names r hr e he []) fun c hc t ht => ?_⟩
  · exact ⟨hparams t ht, hL.params r hr t ht []⟩
  · exact ⟨hargs c hc t ht, hL.argTypes r hr c hc t ht []⟩

end SetLang
