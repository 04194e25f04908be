import SetLang.Proofs.Encoding.Plan
import SetLang.Proofs.Semantics.Interpretation

/-! The meaning of formulas that are built. The expression of a type denotes the values of the type, and
combinations of expressions denote the combinations of what these denote. -/

namespace SetLang

universe u

variable {I : Interpretation.{u}} {s : Store} {f : Factory} {env : List ZFSet.{u}} {t : Ty} {α : Type}

theorem Ty.values_productOf? (ts : List Ty) : (Ty.productOf? ts).map (Ty.values I) =
    BinaryOp.cprod.combined? (ts.map (Ty.values I)) := by
  cases ts with
  | nil => rfl
  | cons t ts =>
    rw [productOf?, Option.map_some, List.map_cons, BinaryOp.combined?, Option.some_inj]
    induction ts generalizing t with
    | nil => rfl
    | cons u ts ih => rw [List.foldl_cons, ih, List.map_cons, List.foldl_cons]; rfl

namespace Interpretation.Whole

theorem product {a b : Ty} (h : I.Whole (.product a b)) : I.Whole a ∧ I.Whole b :=
  ⟨fun g hg => h g (List.mem_append_left _ hg), fun g hg => h g (List.mem_append_right _ hg)⟩

theorem of_product {a b : Ty} (ha : I.Whole a) (hb : I.Whole b) : I.Whole (.product a b) :=
  fun g hg => (List.mem_append.1 hg).elim (ha g) (hb g)

end Interpretation.Whole

namespace Build

variable {s : Store}

theorem yields_unary (op : UnaryOp) (a : Expr) : Yields (f.unary op a) s fun e _ =>
    ∀ (I : Interpretation.{u}) s env, e.value I s env = op.value (a.value I s env) := by
  refine (yields_expr f (.unary · op a)).mono fun e _ he I s env => ?_
  obtain ⟨n, rfl⟩ := he
  rw [Expr.value]

theorem yields_binary (op : BinaryOp) (a b : Expr) : Yields (f.binary op a b) s fun e _ =>
    ∀ (I : Interpretation.{u}) s env,
      e.value I s env = op.value (a.value I s env) (b.value I s env) := by
  refine (yields_expr f (.binary · op a b)).mono fun e _ he I s env => ?_
  obtain ⟨n, rfl⟩ := he
  rw [Expr.value]

theorem yields_singleton (a : Expr) : Yields (f.singleton a) s fun e _ =>
    ∀ (I : Interpretation.{u}) s env, e.value I s env = {a.value I s env} := by
  refine (yields_expr f (.set · [a] none)).mono fun e _ he I s env => ?_
  obtain ⟨n, rfl⟩ := he
  rw [Expr.value, Expr.values_eq]
  exact LawfulSingleton.insert_empty_eq _

theorem yields_comparison (op : Comparison) (a b : Expr) : Yields (f.comparison op a b) s fun p _ =>
    ∀ (I : Interpretation.{u}) s env,
      p.Holds I s env ↔ op.Holds (a.value I s env) (b.value I s env) := by
  refine (yields_pred f (.comparison · op a b)).mono fun p _ hp I s env => ?_
  obtain ⟨n, rfl⟩ := hp
  rw [Pred.holds_comparison]

theorem yields_partition (es : List Expr) : Yields (f.partition es) s fun p _ =>
    ∀ (I : Interpretation.{u}) s env,
      p.Holds I s env ↔ Partitions (es.map (Expr.value I s env)) := by
  refine Yields.bind_any fun _ s' => ?_
  refine (yields_pred f (.partition · es)).mono fun p _ hp I s env => ?_
  obtain ⟨n, rfl⟩ := hp
  rw [Pred.holds_partition]

/-- The expression of a type denotes the values of the type. -/
theorem yields_typeExpr (t : Ty) (s : Store) (ht : t.Plain) : Yields (f.typeExpr t) s fun e _ =>
    ∀ (I : Interpretation.{u}) s env, I.Whole t → e.value I s env = t.values I := by
  induction t using TypeTree.ind generalizing s with
  | leaf v => exact v.elim
  | boolean =>
    rw [Factory.typeExpr]
    refine (yields_expr f (.atom · .boolSet none)).mono fun e _ he I s env _ => ?_
    obtain ⟨n, rfl⟩ := he
    rw [Expr.value]
    rfl
  | given g =>
    rw [Factory.typeExpr]
    refine (yields_expr f (.free · g (some (Ty.givenSet g)))).mono fun e _ he I s env hI => ?_
    obtain ⟨n, rfl⟩ := he
    rw [Expr.value]
    exact hI g List.mem_cons_self
  | power a ih =>
    rw [Factory.typeExpr]
    refine (ih s ht).bind fun e s₁ he => (yields_unary.{u} .pow e).mono fun _ _ h I s env hI => ?_
    rw [h I s env, he I s env hI]
    rfl
  | product a b iha ihb =>
    have hplain := List.append_eq_nil_iff.1 ht
    rw [Factory.typeExpr]
    refine (iha s hplain.1).bind fun e s₁ he => (ihb s₁ hplain.2).bind fun e' s₂ he' => ?_
    refine (yields_binary.{u} .cprod e e').mono fun _ _ h I s env hI => ?_
    rw [h I s env, he I s env hI.product.1, he' I s env hI.product.2]
    rfl
  | data d as _ => cases ht

end Build

namespace Expr.Plan

noncomputable def value (I : Interpretation.{u}) (s : Store) (env : List ZFSet.{u}) : Plan → ZFSet.{u}
  | made e => e.value I s env
  | type t => t.values I
  | unary op a => op.value (a.value I s env)
  | binary op a b => op.value (a.value I s env) (b.value I s env)
  | singleton a => {a.value I s env}

theorem value_foldl (op : BinaryOp) (a : Plan) (es : List Expr) : (foldl op a es).value I s env =
    (es.map (Expr.value I s env)).foldl (fun x y => op.value x y) (a.value I s env) := by
  induction es generalizing a with
  | nil => rfl
  | cons e es ih => exact ih (.binary op a (.made e))

theorem value_combined? (op : BinaryOp) (es : List Expr) :
    (combined? op es).map (value I s env) = op.combined? (es.map (Expr.value I s env)) := by
  cases es with
  | nil => rfl
  | cons e es => exact congrArg some (value_foldl op (.made e) es)

/-- What is built denotes what is planned, in interpretations where the types stand for whole carriers. -/
theorem yields_value (k : Plan) (t : Store) (hk : k.All (fun _ => True) TypeTree.Plain) :
    Yields (k.build f) t fun e _ => ∀ (I : Interpretation.{u}) s env, k.All (fun _ => True) I.Whole →
      e.value I s env = k.value I s env := by
  induction k generalizing t with
  | made e => exact Yields.pure fun _ _ _ _ => rfl
  | type a => exact (Build.yields_typeExpr.{u} a t hk).mono fun _ _ h I s env hI => h I s env hI
  | unary op a ih =>
    refine (ih t hk).bind fun e s₁ he => (Build.yields_unary.{u} op e).mono fun _ _ h I s env hI => ?_
    rw [h I s env, he I s env hI, value]
  | binary op a b iha ihb =>
    refine (iha t hk.1).bind fun e s₁ he => (ihb s₁ hk.2).bind fun e' s₂ he' => ?_
    refine (Build.yields_binary.{u} op e e').mono fun _ _ h I s env hI => ?_
    rw [h I s env, he I s env hI.1, he' I s env hI.2, value]
  | singleton a ih =>
    refine (ih t hk).bind fun e s₁ he => (Build.yields_singleton.{u} e).mono fun _ _ h I s env hI => ?_
    rw [h I s env, he I s env hI, value]

end Expr.Plan

namespace Pred.Plan

def Holds (I : Interpretation.{u}) (s : Store) (env : List ZFSet.{u}) : Plan → Prop
  | comparison op a b => op.Holds (a.value I s env) (b.value I s env)
  | partition es => Partitions (es.map (Expr.Plan.value I s env))

theorem yields_holds (k : Plan) (t : Store) (hk : k.All (fun _ => True) TypeTree.Plain) :
    Yields (k.build f) t fun p _ => ∀ (I : Interpretation.{u}) s env, k.All (fun _ => True) I.Whole →
      (p.Holds I s env ↔ k.Holds I s env) := by
  cases k with
  | comparison op a b =>
    refine (a.yields_value.{u} t hk.1).bind fun e s₁ he => (b.yields_value.{u} s₁ hk.2).bind fun e' s₂ he' => ?_
    refine (Build.yields_comparison.{u} op e e').mono fun p _ h I s env hI => ?_
    rw [h I s env, he I s env hI.1, he' I s env hI.2, Holds]
  | partition es =>
    refine (Yields.mapM fun e he s' => e.yields_value.{u} s' (hk e he)).bind fun es' s₁ hes => ?_
    refine (Build.yields_partition.{u} es').mono fun p _ h I s env hI => ?_
    have hvalues : es'.map (Expr.value I s env) = es.map (Expr.Plan.value I s env) := by
      rw [← List.forall₂_eq_eq_eq, List.forall₂_map_left_iff, List.forall₂_map_right_iff]
      exact ((List.forall₂_and_left _ _).2 ⟨hI, hes⟩).flip.imp fun _ _ h => h.2 I s env h.1
    rw [h I s env, hvalues, Holds]

end Pred.Plan

end SetLang
