import SetLang.Proofs.Encoding.Encodes
import SetLang.Proofs.Encoding.Sound

/-! What has become of each node of a formula. A node of the core language stays over what has become of its parts. An
application of an extension is replaced by a formula of the representation of an instance, applied to what has become
of the operands. -/

namespace SetLang

variable {ds : List Datatype} {s : Store} {f : Factory} {S S' : EncodingState} {g g' : Formula} {L : Expr → Prop}
  {op : BinaryOp} {t : Store} {r : Representation} {e : Expr} {es : List Expr}

/-- Expressions that operators which bind nothing make of some others. Their types are left by their operands. -/
inductive Expr.Composed (L : Expr → Prop) : Expr → Prop
  | leaf {e : Expr} : L e → Expr.Composed L e
  | node {e : Expr} : (Formula.expr e).extension? = none → e.children = e.operands.map .expr → e.explicit? = none →
    e.scheme.Determines e.operands.length → (∀ a ∈ e.operands, a.Composed L) → Expr.Composed L e

namespace Expr

theorem Composed.binary {n : Node} {a b : Expr} (ha : a.Composed L) (hb : b.Composed L) :
    (Expr.binary n op a b).Composed L :=
  .node rfl rfl rfl op.determines (List.forall_mem_cons.2 ⟨ha, List.forall_mem_singleton.2 hb⟩)

/-- One of some functions, or the value or the image of what is composed of the arguments. -/
inductive Applied (functions arguments : List Expr) : Expr → Prop
  | constant {e : Expr} : e ∈ functions → Applied functions arguments e
  | applied {n : Node} {op : BinaryOp} {e tuple : Expr} : op = .funImage ∨ op = .relImage → e ∈ functions →
    tuple.Composed (· ∈ arguments) → Applied functions arguments (.binary n op e tuple)

end Expr

namespace Factory

theorem yields_composed (ha : e.Composed L) (hes : ∀ e ∈ es, e.Composed L) :
    Yields (es.foldlM (f.binary op) e) t fun e' _ => e'.Composed L := by
  induction es generalizing e t with
  | nil => exact Yields.pure ha
  | cons a es ih =>
    rw [List.forall_mem_cons] at hes
    rw [List.foldlM_cons]
    refine (Build.yields_expr f (.binary · op e a)).bind fun e' t' h => ?_
    obtain ⟨n, rfl⟩ := h
    exact ih (ha.binary hes.1) hes.2

theorem yields_combined (es : List Expr) : Yields (f.combine? op es) t fun o _ => ∀ e, o = some e →
    e.Composed (· ∈ es) := by
  cases es with
  | nil => exact Yields.pure fun _ h => by cases h
  | cons e es =>
    have hes : ∀ a ∈ e :: es, a.Composed (· ∈ e :: es) := fun a ha => .leaf ha
    rw [List.forall_mem_cons] at hes
    exact Yields.map ((yields_composed hes.1 hes.2).mono fun e' _ h e'' he => Option.some_inj.1 he ▸ h)

variable {functions : List Expr} (he : e ∈ functions)
include he

theorem yields_imageApplied (es : List Expr) : Yields (f.image e es) t fun e' _ => e'.Applied functions es := by
  unfold image
  refine (yields_combined es).bind fun o t' ho => ?_
  cases o with
  | none => exact Yields.pure (.constant he)
  | some tuple =>
    refine (Build.yields_expr f (.binary · .relImage e tuple)).mono fun e' _ h => ?_
    obtain ⟨n, rfl⟩ := h
    exact .applied (.inr rfl) he (ho _ rfl)

theorem yields_applied (es : List Expr) : Yields (f.apply e es) t fun e' _ => e'.Applied functions es := by
  unfold apply
  refine (yields_combined es).bind fun o t' ho => ?_
  cases o with
  | none => exact Yields.pure (.constant he)
  | some tuple =>
    refine (Build.yields_expr f (.binary · .funImage e tuple)).mono fun e' _ h => ?_
    obtain ⟨n, rfl⟩ := h
    exact .applied (.inl rfl) he (ho _ rfl)

end Factory

namespace Representation

/-- What an application is replaced by. -/
theorem yields_replace (r : Representation) (e : Expr) (ext : Extension) (es : List Expr) (S : EncodingState) :
    Yields (r.replace e ext es) S fun e' _ => e'.Applied r.exprs es := by
  unfold replace
  refine Yields.bind_any fun f S₁ => ?_
  match ext.role? with
  | none => exact Yields.throw
  | some (_, .typeConstructor) =>
    cases hset : r.setConstructor with
    | none => exact Yields.pure (.constant r.typeExpr_mem_exprs)
    | some set =>
      refine Yields.bind_any fun s S₂ => ?_
      split_ifs
      · exact Yields.pure (.constant r.typeExpr_mem_exprs)
      · exact Encode.yields_liftM (Factory.yields_imageApplied (setConstructor_mem_exprs hset) es)
  | some (_, .constructor i) =>
    dsimp only
    cases hc : r.constructors[i]? with
    | none => exact Yields.throw
    | some c =>
      have hmem := mem_exprs_of_constructor (List.mem_of_getElem? hc) (e := c.function) List.mem_cons_self
      exact Encode.yields_liftM (Factory.yields_applied hmem es)
  | some (_, .destructor i j) =>
    dsimp only
    cases hd : (r.constructors[i]?).bind (·.destructors[j]?) with
    | none => exact Yields.throw
    | some d =>
      obtain ⟨c, hc, hj⟩ := Option.bind_eq_some_iff.1 hd
      have hmem := mem_exprs_of_constructor (List.mem_of_getElem? hc)
        (List.mem_cons_of_mem _ (List.mem_of_getElem? hj))
      exact Encode.yields_liftM (Factory.yields_applied hmem es)

end Representation

namespace Formula

inductive Traced (ds : List Datatype) (s : Store) (S : EncodingState) : Formula → Formula → Prop
  | node {R : Formula → Formula → Prop} {g g' : Formula} : g.Became ds s S g' → g.Alike g' →
    List.Forall₂ R g.components g'.components → (∀ k k', R k k' → Traced ds s S k k') → Traced ds s S g g'
  | replaced {R : Expr → Expr → Prop} {n : Node} {ext : Extension} {es es' : List Expr} {t : Option Ty} {e' : Expr}
    {r : Representation} : (expr (.extended n ext es [] t)).Became ds s S (.expr e') → List.Forall₂ R es es' →
    (∀ a a', R a a' → Traced ds s S (.expr a) (.expr a')) → r ∈ S.encoding.representations → e'.Applied r.exprs es' →
    Traced ds s S (.expr (.extended n ext es [] t)) (.expr e')

namespace Traced

theorem became (h : g.Traced ds s S g') : g.Became ds s S g' := by
  cases h with
  | node h _ _ _ => exact h
  | replaced h _ _ _ _ => exact h

theorem mono (h : g.Traced ds s S g') (hS : S.Coherent ds) (k : S.Continues ds S') : g.Traced ds s S' g' := by
  induction h with
  | node h ha hparts _ ih => exact .node (h.mono hS k) ha hparts ih
  | replaced h hes _ hr he ih => exact .replaced (h.mono hS k) hes ih (k.later.representations.subset hr) he

end Traced

/-- What has become of a declaration has its name. -/
theorem Became.traced {b b' : Declaration} (h : (decl b).Became ds s S (decl b')) (hS : S.Coherent ds) :
    (decl b).Traced ds s S (decl b') := by
  cases h.encodes S (.refl hS) with
  | node halike _ hparts => exact .node (R := fun _ _ => False) h halike .nil nofun

end Formula
end SetLang
