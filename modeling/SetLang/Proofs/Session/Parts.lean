import SetLang.Encoding.Formulas
import SetLang.Proofs.Session

/-! Construction of formulas by way of their parts: combinations of expressions, and the expressions that
denote types. All that is made is held afterwards. -/

namespace SetLang

variable {s : Store} {held : Set Formula} {f : Factory} {e l r : Expr} {es : List Expr}

namespace Build

theorem preserves_free (x : String) (t : Option Ty) :
    Preserves Store.soundness (f.free x t) s held fun e _ held' => .expr e ∈ held' :=
  preserves_makeExpr (.free ⟨f, 0⟩ x t) (fun _ h => by cases h) trivial

theorem preserves_bound (i : Nat) (t : Option Ty) :
    Preserves Store.soundness (f.bound i t) s held fun e _ held' => .expr e ∈ held' :=
  preserves_makeExpr (.bound ⟨f, 0⟩ i t) (fun _ h => by cases h) trivial

theorem preserves_atom (a : Atom) (t : Option Ty) :
    Preserves Store.soundness (f.atom a t) s held fun e _ held' => .expr e ∈ held' :=
  preserves_makeExpr (.atom ⟨f, 0⟩ a t) (fun _ h => by cases h) trivial

theorem preserves_unary (op : UnaryOp) (he : .expr e ∈ held) :
    Preserves Store.soundness (f.unary op e) s held fun e _ held' => .expr e ∈ held' :=
  preserves_makeExpr (.unary ⟨f, 0⟩ op e) (by simpa [Expr.children] using he) trivial

theorem preserves_binary (op : BinaryOp) (hl : .expr l ∈ held) (hr : .expr r ∈ held) :
    Preserves Store.soundness (f.binary op l r) s held fun e _ held' => .expr e ∈ held' :=
  preserves_makeExpr (.binary ⟨f, 0⟩ op l r) (by simpa [Expr.children] using ⟨hl, hr⟩) trivial

theorem preserves_set (t : Option Ty) (hes : ∀ e ∈ es, .expr e ∈ held) :
    Preserves Store.soundness (f.set es t) s held fun e _ held' => .expr e ∈ held' :=
  preserves_makeExpr (.set ⟨f, 0⟩ es t) (by simpa [Expr.children] using hes) trivial

theorem preserves_extendedExpr {ext : Extension} (hext : ext.Genuine) (t : Option Ty)
    (hes : ∀ e ∈ es, .expr e ∈ held) :
    Preserves Store.soundness (f.extendedExpr ext es [] t) s held fun e _ held' =>
      .expr e ∈ held' :=
  preserves_makeExpr (.extended ⟨f, 0⟩ ext es [] t) (by simpa [Expr.children] using hes) hext

theorem preserves_comparison (op : Comparison) (hl : .expr l ∈ held) (hr : .expr r ∈ held) :
    Preserves Store.soundness (f.comparison op l r) s held fun p _ held' => .pred p ∈ held' :=
  preserves_makePred (.comparison ⟨f, 0⟩ op l r) (by simpa [Pred.children] using ⟨hl, hr⟩) trivial

theorem preserves_partition (hes : ∀ e ∈ es, .expr e ∈ held) :
    Preserves Store.soundness (f.partition es) s held fun p _ held' => .pred p ∈ held' :=
  preserves_makePred (.partition ⟨f, 0⟩ es) (by simpa [Pred.children] using hes) trivial

theorem preserves_foldlM_binary (op : BinaryOp) (he : .expr e ∈ held)
    (hes : ∀ e ∈ es, .expr e ∈ held) :
    Preserves Store.soundness (es.foldlM (f.binary op) e) s held fun e _ held' =>
      .expr e ∈ held' := by
  induction es generalizing e s held with
  | nil => exact Preserves.pure fun _ => he
  | cons a es ih =>
    rw [List.forall_mem_cons] at hes
    rw [List.foldlM_cons]
    refine (preserves_binary op he hes.1).bind fun e' s' held' hsub _ he' => ?_
    exact ih he' fun e he => hsub (hes.2 e he)

theorem preserves_combine? (op : BinaryOp) (hes : ∀ e ∈ es, .expr e ∈ held) :
    Preserves Store.soundness (f.combine? op es) s held fun o _ held' =>
      ∀ e, o = some e → .expr e ∈ held' := by
  cases es with
  | nil => exact Preserves.pure fun _ _ h => by cases h
  | cons e es =>
    rw [List.forall_mem_cons] at hes
    refine Preserves.map ((preserves_foldlM_binary op hes.1 hes.2).mono fun e s' held' _ _ he => ?_)
    rintro _ ⟨⟩
    exact he

theorem preserves_image (he : .expr e ∈ held) (hes : ∀ e ∈ es, .expr e ∈ held) :
    Preserves Store.soundness (f.image e es) s held fun e _ held' => .expr e ∈ held' := by
  refine (preserves_combine? .cprod hes).bind fun o s' held' hsub _ ho => ?_
  cases o with
  | none => exact Preserves.pure fun _ => hsub he
  | some product => exact preserves_binary _ (hsub he) (ho product rfl)

theorem preserves_apply (he : .expr e ∈ held) (hes : ∀ e ∈ es, .expr e ∈ held) :
    Preserves Store.soundness (f.apply e es) s held fun e _ held' => .expr e ∈ held' := by
  refine (preserves_combine? .maplet hes).bind fun o s' held' hsub _ ho => ?_
  cases o with
  | none => exact Preserves.pure fun _ => hsub he
  | some tuple => exact preserves_binary _ (hsub he) (ho tuple rfl)

theorem preserves_typeConstructor {I : Invariant Store Formula}
    (hf : ∀ e ∈ f.extensions, e.Genuine) (d : Datatype) :
    Preserves I (lift (f.typeConstructor d)) s held fun e _ _ => e.Genuine := by
  refine (preserves_lift _).mono fun e s' held' _ _ h => ?_
  obtain ⟨-, -, hok⟩ := h
  unfold Language.typeConstructor at hok
  split at hok
  · cases hok
    rename_i hfilter
    exact hf _ (List.mem_of_find?_eq_some (Option.eq_some_of_filter_eq_some hfilter))
  · cases hok

mutual

theorem preserves_typeExpr (hf : ∀ e ∈ f.extensions, e.Genuine) : ∀ (t : Ty) (s : Store)
    (held : Set Formula), Preserves Store.soundness (f.typeExpr t) s held fun e _ held' =>
      .expr e ∈ held'
  | .leaf v, _, _ => v.elim
  | .boolean, _, _ => preserves_atom _ _
  | .given _, _, _ => preserves_free _ _
  | .power a, _, _ => (preserves_typeExpr hf a _ _).bind fun _ _ _ _ _ ha => preserves_unary _ ha
  | .product a b, _, _ => (preserves_typeExpr hf a _ _).bind fun _ _ _ _ _ ha =>
      (preserves_typeExpr hf b _ _).bind fun _ _ _ hsub _ hb => preserves_binary _ (hsub ha) hb
  | .data d as, _, _ => (preserves_typeConstructor hf d).bind fun _ _ _ _ _ hext =>
      (preserves_typeExprs hf as _ _).bind fun _ _ _ _ _ has =>
        preserves_extendedExpr hext none has

theorem preserves_typeExprs (hf : ∀ e ∈ f.extensions, e.Genuine) : ∀ (ts : List Ty) (s : Store)
    (held : Set Formula), Preserves Store.soundness (f.typeExprs ts) s held fun es _ held' =>
      ∀ e ∈ es, .expr e ∈ held'
  | [], _, _ => Preserves.pure fun _ _ h => by cases h
  | t :: ts, _, _ => (preserves_typeExpr hf t _ _).bind fun _ _ _ _ _ ht =>
      (preserves_typeExprs hf ts _ _).bind fun _ _ _ hsub _ hts =>
        Preserves.pure fun _ => List.forall_mem_cons.2 ⟨hsub ht, hts⟩

end

mutual

theorem preserves_setExpr (hf : ∀ e ∈ f.extensions, e.Genuine) {sets : List Expr} {own : Expr} :
    ∀ (t : ArgTy) (s : Store) (held : Set Formula), (∀ e ∈ sets, .expr e ∈ held) →
      .expr own ∈ held → Preserves Store.soundness (ArgTy.setExpr f sets own t) s held
        fun e _ held' => .expr e ∈ held'
  | .leaf (.param i), _, _, hsets, _ => by
    unfold ArgTy.setExpr
    cases hi : sets[i]? with
    | none => exact Preserves.throw
    | some e => exact Preserves.pure fun _ => hsets e (List.mem_of_getElem? hi)
  | .leaf .self, _, _, _, hown => Preserves.pure fun _ => hown
  | .boolean, _, _, _, _ => preserves_atom _ _
  | .given s, _, _, _, _ => preserves_typeExpr hf (.given s) _ _
  | .power a, _, _, hsets, hown =>
    (preserves_setExpr hf a _ _ hsets hown).bind fun _ _ _ _ _ ha => preserves_unary _ ha
  | .product a b, _, _, hsets, hown =>
    (preserves_setExpr hf a _ _ hsets hown).bind fun _ _ _ hsub _ ha =>
      (preserves_setExpr hf b _ _ (fun e he => hsub (hsets e he)) (hsub hown)).bind
        fun _ _ _ hsub _ hb => preserves_binary _ (hsub ha) hb
  | .data d as, _, _, hsets, hown =>
    (preserves_setExprs hf as _ _ hsets hown).bind fun _ _ _ _ _ has =>
      (preserves_typeConstructor hf d).bind fun _ _ _ hsub _ hext =>
        preserves_extendedExpr hext none fun e he => hsub (has e he)

theorem preserves_setExprs (hf : ∀ e ∈ f.extensions, e.Genuine) {sets : List Expr} {own : Expr} :
    ∀ (ts : List ArgTy) (s : Store) (held : Set Formula), (∀ e ∈ sets, .expr e ∈ held) →
      .expr own ∈ held → Preserves Store.soundness (ArgTy.setExprs f sets own ts) s held
        fun es _ held' => ∀ e ∈ es, .expr e ∈ held'
  | [], _, _, _, _ => Preserves.pure fun _ _ h => by cases h
  | t :: ts, _, _, hsets, hown =>
    (preserves_setExpr hf t _ _ hsets hown).bind fun _ _ _ hsub _ ht =>
      (preserves_setExprs hf ts _ _ (fun e he => hsub (hsets e he)) (hsub hown)).bind
        fun _ _ _ hsub _ hts =>
          Preserves.pure fun _ => List.forall_mem_cons.2 ⟨hsub ht, hts⟩

end

end Build
end SetLang
