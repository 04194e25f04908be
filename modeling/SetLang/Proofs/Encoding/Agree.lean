import SetLang.Proofs.Encoding.Plan
import SetLang.Proofs.Equality

/-! Constructions that agree. Structural equality does not see slots and types, so that equal formulas are
built from equal parts, whatever the stores are in which this is done. -/

namespace SetLang

variable {α β γ δ : Type} {f : Factory}

namespace Build

/-- What the two computations give is as stated, whatever the stores are. -/
def Agree (R : α → β → Prop) (x : Build α) (y : Build β) : Prop :=
  ∀ s s', Yields x s fun a _ => Yields y s' fun b _ => R a b

namespace Agree

variable {R R' : α → β → Prop} {Q : γ → δ → Prop} {x : Build α} {y : Build β}

theorem pure {a : α} {b : β} (h : R a b) : Agree R (pure a) (pure b) :=
  fun _ _ => Yields.pure (Yields.pure h)

theorem bind {k : α → Build γ} {l : β → Build δ} (h : Agree R x y)
    (hkl : ∀ a b, R a b → Agree Q (k a) (l b)) : Agree Q (x >>= k) (y >>= l) := by
  intro s s'
  refine (h s s').bind fun a t ha c t' hc d u' hd => ?_
  rw [run_bind] at hd
  rcases hy : y.run s' with ⟨b | b, u⟩ <;> rw [hy] at hd
  · cases hd
  · exact hkl a b (ha b u hy) t u c t' hc d u' hd

theorem mono (h : Agree R x y) (k : ∀ a b, R a b → R' a b) : Agree R' x y :=
  fun s s' => (h s s').mono fun a _ ha => ha.mono fun b _ hab => k a b hab

/-- Steps of which nothing is read. -/
theorem any (x : Build α) (y : Build β) : Agree (fun _ _ => True) x y := fun _ _ _ _ _ _ _ _ => trivial

theorem map {g : α → γ} {g' : β → δ} (h : Agree (fun a b => Q (g a) (g' b)) x y) :
    Agree Q (g <$> x) (g' <$> y) := by
  rw [map_eq_pure_bind, map_eq_pure_bind]
  exact h.bind fun a b hab => pure hab

theorem mapM {xs : List γ} {ys : List δ} {g : γ → Build α} {g' : δ → Build β}
    (hxs : List.Forall₂ Q xs ys) (h : ∀ a b, Q a b → Agree R (g a) (g' b)) :
    Agree (List.Forall₂ R) (xs.mapM g) (ys.mapM g') := by
  induction hxs with
  | nil => exact pure .nil
  | cons hab _ ih =>
    rw [List.mapM_cons, List.mapM_cons]
    exact (h _ _ hab).bind fun a b hR => ih.bind fun as bs hRs => pure (.cons hR hRs)

end Agree

theorem agree_expr {make make' : Node → Expr} (h : ∀ n n', (make n).same (make' n') = true) :
    Agree Expr.Same (Build.expr f make) (Build.expr f make') := by
  refine fun s s' => (yields_expr f make).mono fun e _ he => (yields_expr f make').mono fun e' _ he' => ?_
  obtain ⟨n, rfl⟩ := he
  obtain ⟨n', rfl⟩ := he'
  exact h n n'

theorem agree_pred {make make' : Node → Pred} (h : ∀ n n', (make n).same (make' n') = true) :
    Agree Pred.Same (Build.pred f make) (Build.pred f make') := by
  refine fun s s' => (yields_pred f make).mono fun p _ hp => (yields_pred f make').mono fun p' _ hp' => ?_
  obtain ⟨n, rfl⟩ := hp
  obtain ⟨n', rfl⟩ := hp'
  exact h n n'

theorem agree_lift (x : Except Misuse α) : Agree Eq (lift x) (lift x) := by
  cases x with
  | ok a => exact .pure rfl
  | error m => exact fun _ _ _ _ h => by cases h

/-- Copies of declarations have their names. -/
theorem agree_copies {bs bs' : List Declaration} (h : bs.map (·.name) = bs'.map (·.name)) :
    Agree (fun cs cs' => cs.map (·.name) = cs'.map (·.name)) (bs.mapM copy) (bs'.mapM copy) := by
  rw [← List.forall₂_eq_eq_eq, List.forall₂_map_left_iff, List.forall₂_map_right_iff] at h
  refine (Agree.mapM (R := fun c c' : Declaration => c.name = c'.name) h fun b b' hb => ?_).mono
    fun cs cs' hcs => ?_
  · rintro s s' c t ⟨⟩ c' t' ⟨⟩
    exact hb
  · rwa [← List.forall₂_eq_eq_eq, List.forall₂_map_left_iff, List.forall₂_map_right_iff]

end Build

open Build

namespace Factory

variable {a a' b b' : Expr} {es es' : List Expr}

theorem agree_binary (op : BinaryOp) (ha : a.Same a') (hb : b.Same b') :
    Agree Expr.Same (f.binary op a b) (f.binary op a' b') :=
  agree_expr fun _ _ => by simp [Expr.same, ha, hb]

theorem agree_unary (op : UnaryOp) (ha : a.Same a') : Agree Expr.Same (f.unary op a) (f.unary op a') :=
  agree_expr fun _ _ => by simp [Expr.same, ha]

theorem agree_singleton (ha : a.Same a') : Agree Expr.Same (f.singleton a) (f.singleton a') := by
  unfold singleton set
  exact agree_expr fun _ _ => by simp [Expr.same, Expr.sameAll, ha]

theorem agree_extendedExpr (ext : Extension) (t : Option Ty) (h : List.Forall₂ Expr.Same es es') :
    Agree Expr.Same (f.extendedExpr ext es [] t) (f.extendedExpr ext es' [] t) :=
  (Agree.any _ _).bind fun _ _ _ => agree_expr fun _ _ => by
    simp [Expr.same, Expr.sameAll_iff.2 h, Pred.sameAll, ext.beq_refl]

theorem agree_combine? (op : BinaryOp) (h : List.Forall₂ Expr.Same es es') :
    Agree (Option.Rel Expr.Same) (f.combine? op es) (f.combine? op es') := by
  cases h with
  | nil => exact .pure .none
  | @cons e e' es es' he hes =>
    refine .map (Agree.mono (R := Expr.Same) ?_ fun _ _ h => .some h)
    induction hes generalizing e e' with
    | nil => exact .pure he
    | cons ha _ ih =>
      rw [List.foldlM_cons, List.foldlM_cons]
      exact (agree_binary op he ha).bind fun _ _ h => ih h

theorem agree_image (ha : a.Same a') (h : List.Forall₂ Expr.Same es es') :
    Agree Expr.Same (f.image a es) (f.image a' es') := by
  refine (agree_combine? .cprod h).bind fun o o' ho => ?_
  cases ho with
  | none => exact .pure ha
  | some hb => exact agree_binary .relImage ha hb

mutual

theorem agree_typeExpr : ∀ t : Ty, Agree Expr.Same (f.typeExpr t) (f.typeExpr t)
  | .leaf v => v.elim
  | .boolean => by
    rw [typeExpr]
    exact agree_expr fun _ _ => by simp [Expr.same]
  | .given g => by
    rw [typeExpr]
    exact agree_expr fun _ _ => by simp [Expr.same]
  | .power a => by
    rw [typeExpr]
    exact (agree_typeExpr a).bind fun _ _ ha => agree_unary .pow ha
  | .product a b => by
    rw [typeExpr]
    exact (agree_typeExpr a).bind fun _ _ ha => (agree_typeExpr b).bind fun _ _ hb =>
      agree_binary .cprod ha hb
  | .data d as => by
    rw [typeExpr]
    refine (agree_lift _).bind fun ext _ hext => ?_
    obtain rfl := hext
    exact (agree_typeExprs as).bind fun _ _ has => agree_extendedExpr ext none has

theorem agree_typeExprs : ∀ ts : List Ty,
    Agree (List.Forall₂ Expr.Same) (f.typeExprs ts) (f.typeExprs ts)
  | [] => .pure .nil
  | t :: ts => by
    rw [typeExprs]
    exact (agree_typeExpr t).bind fun _ _ ht => (agree_typeExprs ts).bind fun _ _ hts =>
      .pure (.cons ht hts)

end

theorem agree_comparison (op : Comparison) (ha : a.Same a') (hb : b.Same b') :
    Agree Pred.Same (f.comparison op a b) (f.comparison op a' b') :=
  agree_pred fun _ _ => by simp [Pred.same, ha, hb]

theorem agree_partition (h : List.Forall₂ Expr.Same es es') :
    Agree Pred.Same (f.partition es) (f.partition es') :=
  (Agree.any _ _).bind fun _ _ _ => agree_pred fun _ _ => by simp [Pred.same, Expr.sameAll_iff.2 h]

theorem agree_quantifiedPred (op : Quantifier) {bs bs' : List Declaration} {p p' : Pred}
    (hbs : bs.map (·.name) = bs'.map (·.name)) (hp : p.Same p') :
    Agree Pred.Same (f.quantifiedPred op bs p) (f.quantifiedPred op bs' p') :=
  (Agree.any _ _).bind fun _ _ _ => (agree_copies hbs).bind fun _ _ hcs => agree_pred fun _ _ => by
    simp [Pred.same, Declaration.sameNames_iff.2 hcs, hp]

end Factory

/-! Whatever is planned is built alike. -/

theorem Expr.Plan.agree_build (k : Expr.Plan) : Agree Expr.Same (k.build f) (k.build f) := by
  induction k with
  | made e => exact .pure e.same_refl
  | type t => exact Factory.agree_typeExpr t
  | unary op a ih => exact ih.bind fun _ _ ha => Factory.agree_unary op ha
  | binary op a b iha ihb => exact iha.bind fun _ _ ha => ihb.bind fun _ _ hb => Factory.agree_binary op ha hb
  | singleton a ih => exact ih.bind fun _ _ ha => Factory.agree_singleton ha

theorem Pred.Plan.agree_build (k : Pred.Plan) : Agree Pred.Same (k.build f) (k.build f) := by
  cases k with
  | comparison op a b =>
    exact a.agree_build.bind fun _ _ ha => b.agree_build.bind fun _ _ hb => Factory.agree_comparison op ha hb
  | partition es =>
    refine (Agree.mapM (List.forall₂_same.2 fun _ _ => rfl) fun e e' he => ?_).bind fun _ _ =>
      Factory.agree_partition
    exact he ▸ e.agree_build

theorem Build.agree_plans (ks : List Pred.Plan) :
    Agree (List.Forall₂ Pred.Same) (ks.mapM (·.build f)) (ks.mapM (·.build f)) :=
  .mapM (List.forall₂_same.2 fun _ _ => rfl) fun k _ hk => hk ▸ k.agree_build

end SetLang
