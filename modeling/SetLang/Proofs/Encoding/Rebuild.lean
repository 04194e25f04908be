import SetLang.Proofs.Encoding.Replace

/-! Encoding of formulas, node by node. The encoding of a typed formula over supported types succeeds: each
node is built anew over its encoded parts, or replaced by a formula over them. -/

namespace SetLang

variable {ds : List Datatype} {s : Store} {f : Factory} {S S' : EncodingState} {α β : Type}
  {held : Set Formula} {e e' : Expr} {es es' : List Expr} {ps ps' : List Pred} {bs bs' : List Declaration}

open Formula

theorem traced_exprs (h : List.Forall₂ (fun e e' => (Formula.expr e).Traced ds s S (.expr e')) es es') :
    List.Forall₂ (Traced ds s S) (es.map .expr) (es'.map .expr) :=
  List.forall₂_map_left_iff.2 (List.forall₂_map_right_iff.2 h)

theorem traced_preds (h : List.Forall₂ (fun p p' => (Formula.pred p).Traced ds s S (.pred p')) ps ps') :
    List.Forall₂ (Traced ds s S) (ps.map .pred) (ps'.map .pred) :=
  List.forall₂_map_left_iff.2 (List.forall₂_map_right_iff.2 h)

theorem traced_decls (hS : S.Coherent ds)
    (h : List.Forall₂ (fun b b' => (Formula.decl b).Became ds s S (.decl b')) bs bs') :
    List.Forall₂ (Traced ds s S) (bs.map .decl) (bs'.map .decl) :=
  List.forall₂_map_left_iff.2 (List.forall₂_map_right_iff.2 (h.imp fun _ _ hb => hb.traced hS))

namespace Encode

/-- Steps of an encoding, one after the other. -/
theorem succeeds_bind {x : Encode α} {y : α → Encode β} {P : α → EncodingState → Prop}
    {Q : β → EncodingState → Prop} (hx : Succeeds x S fun a S' => S.Continues ds S' ∧ P a S')
    (hy : ∀ a S', S.Continues ds S' → P a S' → Succeeds (y a) S' fun b S'' =>
      S'.Continues ds S'' ∧ Q b S'') :
    Succeeds (x >>= y) S fun b S' => S.Continues ds S' ∧ Q b S' :=
  hx.chain (fun h k => h.trans k) hy

mutual

theorem succeeds_rebuildExpr (hK : ClosedSet held) (hsource : ∀ g ∈ held, g.Source ds s) :
    ∀ (e : Expr) (depth : Nat) (S : EncodingState), S.Underway ds s f → .expr e ∈ held →
      Succeeds ((rebuilder f).expr s depth e) S fun e' S' =>
        S.Continues ds S' ∧ (Formula.expr e).Traced ds s S' (.expr e')
  | .binary n op a b, depth, S, hS, he => by
    have ha := hK _ he (.expr a) List.mem_cons_self
    have hb := hK _ he (.expr b) (List.mem_cons_of_mem _ List.mem_cons_self)
    refine succeeds_bind (succeeds_nodeType hS (hsource _ he)) fun o S₁ k₁ ho => ?_
    have hS₁ := hS.continue k₁
    refine succeeds_bind (succeeds_rebuildExpr hK hsource a depth S₁ hS₁ ha) fun a' S₂ k₂ ha' => ?_
    have hS₂ := hS₁.continue k₂
    refine succeeds_bind (succeeds_rebuildExpr hK hsource b depth S₂ hS₂ hb) fun b' S₃ k₃ hb' => ?_
    have hS₃ := hS₂.continue k₃
    have ho := ho.mono hS₁.coherent (k₂.trans k₃)
    have ha' := ha'.mono hS₂.coherent k₃
    -- what was encoded first is still an encoding in the state that the later parts leave
    exact succeeds_made hS₃.coherent (Build.succeeds_alike (.binary · op a' b') hS₃ (hsource _ he) ho
      (fun _ => rfl) (fun _ => rfl) (fun _ => .cons ha' (.cons hb' .nil))
      (fun _ => .cons ha' (.cons hb' .nil)) fun _ => .inl ⟨id, trivial⟩)
  | .unary n op a, depth, S, hS, he => by
    have ha := hK _ he (.expr a) List.mem_cons_self
    refine succeeds_bind (succeeds_nodeType hS (hsource _ he)) fun o S₁ k₁ ho => ?_
    have hS₁ := hS.continue k₁
    refine succeeds_bind (succeeds_rebuildExpr hK hsource a depth S₁ hS₁ ha) fun a' S₂ k₂ ha' => ?_
    have hS₂ := hS₁.continue k₂
    have ho := ho.mono hS₁.coherent k₂
    exact succeeds_made hS₂.coherent (Build.succeeds_alike (.unary · op a') hS₂ (hsource _ he) ho
      (fun _ => rfl) (fun _ => rfl) (fun _ => .cons ha' .nil) (fun _ => .cons ha' .nil)
      fun _ => .inl ⟨id, trivial⟩)
  | .assoc n op es, depth, S, hS, he => by
    have hes : ∀ e ∈ es, .expr e ∈ held := fun e h => hK _ he _ (List.mem_map_of_mem h)
    refine succeeds_bind (succeeds_nodeType hS (hsource _ he)) fun o S₁ k₁ ho => ?_
    have hS₁ := hS.continue k₁
    refine succeeds_bind (succeeds_rebuildExprs hK hsource es depth S₁ hS₁ hes) fun es' S₂ k₂ hes' => ?_
    have hS₂ := hS₁.continue k₂
    have ho := ho.mono hS₁.coherent k₂
    have hlen : 2 ≤ es'.length := hes'.length_eq ▸ (hsource _ he).formed
    refine succeeds_made hS₂.coherent (Build.succeeds_required (decide_eq_true hlen) ?_)
    exact Build.succeeds_alike (.assoc · op es') hS₂ (hsource _ he) ho (fun _ => rfl) (fun _ => rfl)
      (fun _ => traced_exprs hes') (fun _ => hes') fun _ => .inl ⟨id, hlen⟩
  | .atom n a t, depth, S, hS, he => by
    refine succeeds_bind (succeeds_nodeType hS (hsource _ he)) fun o S₁ k₁ ho => ?_
    have hS₁ := hS.continue k₁
    exact succeeds_made hS₁.coherent (Build.succeeds_alike (.atom · a o) hS₁ (hsource _ he) ho
      (fun _ => rfl) (fun _ => rfl) (fun _ => .nil) (fun _ => .nil) fun _ => .inr rfl)
  | .set n es t, depth, S, hS, he => by
    have hes : ∀ e ∈ es, .expr e ∈ held := fun e h => hK _ he _ (List.mem_map_of_mem h)
    refine succeeds_bind (succeeds_nodeType hS (hsource _ he)) fun o S₁ k₁ ho => ?_
    have hS₁ := hS.continue k₁
    refine succeeds_bind (succeeds_rebuildExprs hK hsource es depth S₁ hS₁ hes) fun es' S₂ k₂ hes' => ?_
    have hS₂ := hS₁.continue k₂
    have ho := ho.mono hS₁.coherent k₂
    exact succeeds_made hS₂.coherent (Build.succeeds_alike (.set · es' o) hS₂ (hsource _ he) ho
      (fun _ => rfl) (fun _ => trivial) (fun _ => traced_exprs hes') (fun _ => hes') fun _ => .inr rfl)
  | .bool n p, depth, S, hS, he => by
    have hp := hK _ he (.pred p) List.mem_cons_self
    refine succeeds_bind (succeeds_nodeType hS (hsource _ he)) fun o S₁ k₁ ho => ?_
    have hS₁ := hS.continue k₁
    refine succeeds_bind (succeeds_rebuildPred hK hsource p depth S₁ hS₁ hp) fun p' S₂ k₂ hp' => ?_
    have hS₂ := hS₁.continue k₂
    have ho := ho.mono hS₁.coherent k₂
    exact succeeds_made hS₂.coherent (Build.succeeds_alike (.bool · p') hS₂ (hsource _ he) ho
      (fun _ => rfl) (fun _ => trivial) (fun _ => .cons hp' .nil) (fun _ => .nil)
      fun _ => .inl ⟨id, trivial⟩)
  | .quantified n op bs p e, depth, S, hS, he => by
    have hbs : ∀ b ∈ bs, .decl b ∈ held := fun b h =>
      hK _ he _ (List.mem_append_left _ (List.mem_map_of_mem h))
    have hp := hK _ he (.pred p) (List.mem_append_right _ List.mem_cons_self)
    have hbody := hK _ he (.expr e)
      (List.mem_append_right _ (List.mem_cons_of_mem _ List.mem_cons_self))
    refine succeeds_bind (succeeds_nodeType hS (hsource _ he)) fun o S₁ k₁ ho => ?_
    have hS₁ := hS.continue k₁
    refine succeeds_bind (succeeds_decls hS₁ fun b hb => hsource _ (hbs b hb)) fun bs' S₂ k₂ hbs' => ?_
    have hS₂ := hS₁.continue k₂
    refine succeeds_bind (succeeds_rebuildPred hK hsource p _ S₂ hS₂ hp) fun p' S₃ k₃ hp' => ?_
    have hS₃ := hS₂.continue k₃
    refine succeeds_bind (succeeds_rebuildExpr hK hsource e _ S₃ hS₃ hbody) fun e' S₄ k₄ he' => ?_
    have hS₄ := hS₃.continue k₄
    have hbs' := hbs'.imp fun _ _ hb => hb.mono hS₂.coherent (k₃.trans k₄)
    refine succeeds_declaring (fun bs'' => Build.expr f (.quantified · op bs'' p' e')) hS₄.coherent
      (hsource _ he).formed hbs' fun bs'' S₅ k₅ hne hbs'' => ?_
    have ho := ho.mono hS₁.coherent (((k₂.trans k₃).trans k₄).trans k₅)
    have hp' := hp'.mono hS₃.coherent (k₄.trans k₅)
    have he' := he'.mono hS₄.coherent k₅
    have hparts := List.rel_append (traced_decls k₅.coherent hbs'') (.cons hp' (.cons he' .nil))
    exact Build.succeeds_alike (.quantified · op bs'' p' e') (hS₄.continue k₅) (hsource _ he) ho
      (fun _ => rfl) (fun _ => rfl) (fun _ => hparts) (fun _ => .cons he' .nil) fun _ => .inl ⟨id, hne⟩
  | .bound n i t, depth, S, hS, he => by
    refine succeeds_bind (succeeds_nodeType hS (hsource _ he)) fun o S₁ k₁ ho => ?_
    have hS₁ := hS.continue k₁
    exact succeeds_made hS₁.coherent (Build.succeeds_alike (.bound · i o) hS₁ (hsource _ he) ho
      (fun _ => rfl) (fun _ => rfl) (fun _ => .nil) (fun _ => .nil) fun _ => .inr rfl)
  | .free n x t, depth, S, hS, he => by
    refine succeeds_bind (succeeds_nodeType hS (hsource _ he)) fun o S₁ k₁ ho => ?_
    have hS₁ := hS.continue k₁
    exact succeeds_made hS₁.coherent (Build.succeeds_alike (.free · x o) hS₁ (hsource _ he) ho
      (fun _ => rfl) (fun _ => rfl) (fun _ => .nil) (fun _ => .nil) fun _ => .inr rfl)
  | .extended n ext es ps t, depth, S, hS, he => by
    have hes : ∀ e ∈ es, .expr e ∈ held := fun e h =>
      hK _ he _ (List.mem_append_left _ (List.mem_map_of_mem h))
    have hps : ∀ p ∈ ps, .pred p ∈ held := fun p h =>
      hK _ he _ (List.mem_append_right _ (List.mem_map_of_mem h))
    refine succeeds_bind (succeeds_nodeType hS (hsource _ he)) fun o S₁ k₁ _ => ?_
    have hS₁ := hS.continue k₁
    refine succeeds_bind (succeeds_rebuildExprs hK hsource es depth S₁ hS₁ hes) fun es' S₂ k₂ hes' => ?_
    have hS₂ := hS₁.continue k₂
    refine succeeds_bind (succeeds_rebuildPreds hK hsource ps depth S₂ hS₂ hps) fun ps' S₃ k₃ _ => ?_
    exact succeeds_extended (hS₂.continue k₃) (hsource _ he)
      (hes'.imp fun _ _ h => h.mono hS₂.coherent k₃)

theorem succeeds_rebuildExprs (hK : ClosedSet held) (hsource : ∀ g ∈ held, g.Source ds s) :
    ∀ (es : List Expr) (depth : Nat) (S : EncodingState), S.Underway ds s f →
      (∀ e ∈ es, .expr e ∈ held) → Succeeds ((rebuilder f).exprs s depth es) S fun es' S' =>
        S.Continues ds S' ∧ List.Forall₂ (fun e e' => (Formula.expr e).Traced ds s S' (.expr e')) es es'
  | [], _, _, hS, _ => Succeeds.pure ⟨.refl hS.coherent, .nil⟩
  | e :: es, depth, S, hS, hes => by
    rw [List.forall_mem_cons] at hes
    refine succeeds_bind (succeeds_rebuildExpr hK hsource e depth S hS hes.1) fun e' S₁ k₁ he' => ?_
    have hS₁ := hS.continue k₁
    refine succeeds_bind (succeeds_rebuildExprs hK hsource es depth S₁ hS₁ hes.2)
      fun es' S₂ k₂ hes' => ?_
    exact Succeeds.pure ⟨.refl k₂.coherent, .cons (he'.mono hS₁.coherent k₂) hes'⟩

theorem succeeds_rebuildPred (hK : ClosedSet held) (hsource : ∀ g ∈ held, g.Source ds s) :
    ∀ (p : Pred) (depth : Nat) (S : EncodingState), S.Underway ds s f → .pred p ∈ held →
      Succeeds ((rebuilder f).pred s depth p) S fun p' S' =>
        S.Continues ds S' ∧ (Formula.pred p).Traced ds s S' (.pred p')
  | .literal n b, _, S, hS, hp => succeeds_made hS.coherent (Build.succeeds_alikePred (.literal · b) hS
      (hsource _ hp) (fun _ => rfl) (fun _ => rfl) (fun _ => .nil) fun _ => .nil)
  | .not n p, depth, S, hS, hp => by
    have hq := hK _ hp (.pred p) List.mem_cons_self
    refine succeeds_bind (succeeds_rebuildPred hK hsource p depth S hS hq) fun p' S₁ k₁ hp' => ?_
    have hS₁ := hS.continue k₁
    exact succeeds_made hS₁.coherent (Build.succeeds_alikePred (.not · p') hS₁ (hsource _ hp)
      (fun _ => rfl) (fun _ => trivial) (fun _ => .cons hp' .nil) fun _ => .nil)
  | .connective n op p q, depth, S, hS, hpq => by
    have hp := hK _ hpq (.pred p) List.mem_cons_self
    have hq := hK _ hpq (.pred q) (List.mem_cons_of_mem _ List.mem_cons_self)
    refine succeeds_bind (succeeds_rebuildPred hK hsource p depth S hS hp) fun p' S₁ k₁ hp' => ?_
    have hS₁ := hS.continue k₁
    refine succeeds_bind (succeeds_rebuildPred hK hsource q depth S₁ hS₁ hq) fun q' S₂ k₂ hq' => ?_
    have hS₂ := hS₁.continue k₂
    have hp' := hp'.mono hS₁.coherent k₂
    exact succeeds_made hS₂.coherent (Build.succeeds_alikePred (.connective · op p' q') hS₂
      (hsource _ hpq) (fun _ => rfl) (fun _ => rfl) (fun _ => .cons hp' (.cons hq' .nil)) fun _ => .nil)
  | .junction n op ps, depth, S, hS, hp => by
    have hps : ∀ p ∈ ps, .pred p ∈ held := fun p h => hK _ hp _ (List.mem_map_of_mem h)
    refine succeeds_bind (succeeds_rebuildPreds hK hsource ps depth S hS hps) fun ps' S₁ k₁ hps' => ?_
    have hS₁ := hS.continue k₁
    have hlen : 2 ≤ ps'.length := hps'.length_eq ▸ (hsource _ hp).formed
    refine succeeds_made hS₁.coherent (Build.succeeds_required (decide_eq_true hlen) ?_)
    exact Build.succeeds_alikePred (.junction · op ps') hS₁ (hsource _ hp) (fun _ => rfl) (fun _ => rfl)
      (fun _ => traced_preds hps') fun _ => .nil
  | .comparison n op a b, depth, S, hS, hp => by
    have ha := hK _ hp (.expr a) List.mem_cons_self
    have hb := hK _ hp (.expr b) (List.mem_cons_of_mem _ List.mem_cons_self)
    refine succeeds_bind (succeeds_rebuildExpr hK hsource a depth S hS ha) fun a' S₁ k₁ ha' => ?_
    have hS₁ := hS.continue k₁
    refine succeeds_bind (succeeds_rebuildExpr hK hsource b depth S₁ hS₁ hb) fun b' S₂ k₂ hb' => ?_
    have hS₂ := hS₁.continue k₂
    have ha' := ha'.mono hS₁.coherent k₂
    exact succeeds_made hS₂.coherent (Build.succeeds_alikePred (.comparison · op a' b') hS₂
      (hsource _ hp) (fun _ => rfl) (fun _ => rfl) (fun _ => .cons ha' (.cons hb' .nil))
      fun _ => .cons ha' (.cons hb' .nil))
  | .partition n es, depth, S, hS, hp => by
    have hes : ∀ e ∈ es, .expr e ∈ held := fun e h => hK _ hp _ (List.mem_map_of_mem h)
    refine succeeds_bind (succeeds_rebuildExprs hK hsource es depth S hS hes) fun es' S₁ k₁ hes' => ?_
    have hS₁ := hS.continue k₁
    have hne : es' ≠ [] := ne_nil_of_forall₂ hes' (hsource _ hp).formed
    refine succeeds_made hS₁.coherent (Build.succeeds_required (by simpa using hne) ?_)
    exact Build.succeeds_alikePred (.partition · es') hS₁ (hsource _ hp) (fun _ => rfl) (fun _ => trivial)
      (fun _ => traced_exprs hes') fun _ => hes'
  | .quantified n op bs p, depth, S, hS, hq => by
    have hbs : ∀ b ∈ bs, .decl b ∈ held := fun b h =>
      hK _ hq _ (List.mem_append_left _ (List.mem_map_of_mem h))
    have hp := hK _ hq (.pred p) (List.mem_append_right _ List.mem_cons_self)
    refine succeeds_bind (succeeds_decls hS fun b hb => hsource _ (hbs b hb)) fun bs' S₁ k₁ hbs' => ?_
    have hS₁ := hS.continue k₁
    refine succeeds_bind (succeeds_rebuildPred hK hsource p _ S₁ hS₁ hp) fun p' S₂ k₂ hp' => ?_
    have hS₂ := hS₁.continue k₂
    have hbs' := hbs'.imp fun _ _ hb => hb.mono hS₁.coherent k₂
    refine succeeds_declaring (fun bs'' => Build.pred f (.quantified · op bs'' p')) hS₂.coherent
      (hsource _ hq).formed hbs' fun bs'' S₃ k₃ _ hbs'' => ?_
    have hp' := hp'.mono hS₂.coherent k₃
    have hparts := List.rel_append (traced_decls k₃.coherent hbs'') (.cons hp' .nil)
    exact Build.succeeds_alikePred (.quantified · op bs'' p') (hS₂.continue k₃) (hsource _ hq)
      (fun _ => rfl) (fun _ => rfl) (fun _ => hparts) fun _ => .nil
  | .extended n ext es ps, _, _, _, hp => by
    obtain ⟨d, -, hext⟩ := (hsource _ hp).extension ext rfl
    have hkind : ext.kind = .predicate := (hsource _ hp).formed.2.1
    rw [(Datatype.kind_of_mem_extensions hext).1] at hkind
    cases hkind

theorem succeeds_rebuildPreds (hK : ClosedSet held) (hsource : ∀ g ∈ held, g.Source ds s) :
    ∀ (ps : List Pred) (depth : Nat) (S : EncodingState), S.Underway ds s f →
      (∀ p ∈ ps, .pred p ∈ held) → Succeeds ((rebuilder f).preds s depth ps) S fun ps' S' =>
        S.Continues ds S' ∧ List.Forall₂ (fun p p' => (Formula.pred p).Traced ds s S' (.pred p')) ps ps'
  | [], _, _, hS, _ => Succeeds.pure ⟨.refl hS.coherent, .nil⟩
  | p :: ps, depth, S, hS, hps => by
    rw [List.forall_mem_cons] at hps
    refine succeeds_bind (succeeds_rebuildPred hK hsource p depth S hS hps.1) fun p' S₁ k₁ hp' => ?_
    have hS₁ := hS.continue k₁
    refine succeeds_bind (succeeds_rebuildPreds hK hsource ps depth S₁ hS₁ hps.2)
      fun ps' S₂ k₂ hps' => ?_
    exact Succeeds.pure ⟨.refl k₂.coherent, .cons (hp'.mono hS₁.coherent k₂) hps'⟩

end

end Encode
end SetLang
