import SetLang.Proofs.Encoding.Traced

/-! Encoding of a node over encoded parts. The rule of a node of the core language holds of the images of
the types in it, and leaves no other type. -/

namespace SetLang

variable {ds : List Datatype} {s : Store} {f : Factory} {S S' : EncodingState} {T t : Ty} {α : Type}
  {e : Expr} {p : Pred}

open Formula

theorem Encode.succeeds_made {x : Build α} {P : α → EncodingState → Prop} (hS : S.Coherent ds)
    (h : Succeeds x S.store fun a s' => S.store.Later s' ∧ P a ⟨s', S.encoding⟩) :
    Succeeds (liftM x : Encode α) S fun a S' => S.Continues ds S' ∧ P a S' := by
  refine (succeeds_liftM h).mono fun a S' h => ?_
  obtain ⟨store, encoding⟩ := S'
  obtain ⟨rfl, hlater, hP⟩ := h
  exact ⟨EncodingState.Quiet.continues (.of_store hlater) hS, hP⟩

theorem map_typing_of_became {es es' : List Expr}
    (h : List.Forall₂ (fun e e' => (Formula.expr e).Became ds s S (.expr e')) es es') :
    es'.map S.store.typing.ofExpr = (es.map s.typing.ofExpr).map S.encoding.groundImage := by
  induction h with
  | nil => rfl
  | @cons e e' _ _ he _ ih =>
    obtain ⟨T, t, hT, -, ht, ht'⟩ := he.type _ rfl
    rw [List.map_cons, List.map_cons, List.map_cons, ih]
    refine congrArg (· :: _) ?_
    refine (Store.typing_slot ht').trans ((Encoding.groundImage_named ht).symm.trans ?_)
    exact congrArg _ (Store.typing_slot hT).symm

def Expr.TypeBecame (ds : List Datatype) (s : Store) (S : EncodingState) (e : Expr) (o : Option Ty) : Prop :=
  ∃ T t, e.type? s = some T ∧ T.Supported ds ∧ o = some t ∧ Ty.image? S.encoding.look T = some t

theorem Expr.TypeBecame.mono {o : Option Ty} (h : e.TypeBecame ds s S o) (hS : S.Coherent ds)
    (k : S.Continues ds S') : e.TypeBecame ds s S' o := by
  obtain ⟨T, t, hT, hsup, rfl, ht⟩ := h
  exact ⟨T, t, hT, hsup, rfl, k.image? hS hsup ht⟩

namespace Build

/-- A node of the core language that is made like a source node, over the encodings of its parts. The
image of the type of the source node is given to it, or its operands leave no other type. -/
theorem succeeds_alike (make : Node → Expr) {o : Option Ty} (hS : S.Underway ds s f)
    (he : (Formula.expr e).Source ds s) (ho : e.TypeBecame ds s S o)
    (hnode : ∀ n, (make n).node = n) (halike : ∀ n, e.Alike (make n))
    (hparts : ∀ n, List.Forall₂ (Traced ds s S) e.children (make n).children)
    (hoperands : ∀ n, List.Forall₂ (fun e e' => (Formula.expr e).Traced ds s S (.expr e')) e.operands
      (make n).operands)
    (hone : ∀ n, ¬ (make n).TakesType ∧ (make n).Formed ∨ (make n).explicit? = o) :
    Succeeds (Build.expr f make) S.store fun e' s' =>
      S.store.Later s' ∧ (Formula.expr e).Traced ds s ⟨s', S.encoding⟩ (.expr e') := by
  obtain ⟨T, t, hT, hsup, rfl, ht⟩ := ho
  have hclean : ∀ n, ∀ g ∈ (make n).children, g.Throughout (Clean f S.store) := by
    intro n g hg
    obtain ⟨c, -, hc⟩ := forall₂_exists_right (hparts n).flip hg
    exact hS.target ▸ hc.became.clean
  have hplain := hS.coherent.plain hsup ht
  have hone' : ∀ n, (make n).explicit? = none ∧ (make n).scheme.Determines (make n).operands.length ∨
      (make n).explicit? = some t := fun n => (hone n).imp_left fun h =>
    ⟨Expr.explicit?_eq_none h.1, Expr.determines h.1 h.2⟩
  refine (succeeds_clean make hplain hnode (fun n => (halike n).core.2.1) hclean (fun n => ?_) hone').mono
    fun e' s' h => ?_
  · have hholds := he.obeys.1.map (Expr.plain_scheme (halike n).core.1) S.encoding.homomorphism_groundImage
    rw [(halike n).core.2.2, map_typing_of_became ((hoperands n).imp fun _ _ h => h.became),
      ← Encoding.groundImage_named ht, ← Store.typing_slot hT]
    exact hholds
  · obtain ⟨⟨n, rfl⟩, hlater, htype⟩ := h
    have hquiet : S.Continues ds ⟨s', S.encoding⟩ := EncodingState.Quiet.continues (.of_store hlater) hS.coherent
    refine ⟨hlater, .node ⟨fun x hx => ?_, hS.target.symm ▸ htype.clean, fun S' k => ?_⟩ (halike n) (hparts n)
      fun _ _ hc => hc.mono hS.coherent hquiet⟩
    · cases hx
      exact ⟨T, t, hT, hsup, ht, htype.type⟩
    · have hcontinues := hquiet.trans k
      refine .node (halike n) (.of_image (isTyped_mono htype.clean.self.typed k.later.store)
        fun x hx => ?_) ((hparts n).imp fun _ _ hc => hc.became.encodes S' hcontinues)
      cases hx
      exact ⟨T, t, hT, hcontinues.image? hS.coherent hsup ht, type?_later htype.type k.later.store⟩

/-- A predicate of the core language that is made like a source node, over the encodings of its parts. -/
theorem succeeds_alikePred (make : Node → Pred) (hS : S.Underway ds s f)
    (hp : (Formula.pred p).Source ds s) (hnode : ∀ n, (make n).node = n)
    (halike : ∀ n, p.Alike (make n))
    (hparts : ∀ n, List.Forall₂ (Traced ds s S) p.children (make n).children)
    (hoperands : ∀ n, List.Forall₂ (fun e e' => (Formula.expr e).Traced ds s S (.expr e')) p.operands
      (make n).operands) :
    Succeeds (Build.pred f make) S.store fun p' s' =>
      S.store.Later s' ∧ (Formula.pred p).Traced ds s ⟨s', S.encoding⟩ (.pred p') := by
  have hclean : ∀ n, ∀ g ∈ (make n).children, g.Throughout (Clean f S.store) := by
    intro n g hg
    obtain ⟨c, -, hc⟩ := forall₂_exists_right (hparts n).flip hg
    exact hS.target ▸ hc.became.clean
  refine (succeeds_cleanPred make hnode (fun n => (halike n).core.2.1) hclean fun n => ?_).mono
    fun p' s' h => ?_
  · rw [(halike n).core.2.2, map_typing_of_became ((hoperands n).imp fun _ _ h => h.became)]
    exact hp.obeys.map_none (Pred.plain_scheme (halike n).core.1) S.encoding.homomorphism_groundImage
  · obtain ⟨⟨n, rfl⟩, hlater, hclean'⟩ := h
    have hquiet : S.Continues ds ⟨s', S.encoding⟩ := EncodingState.Quiet.continues (.of_store hlater) hS.coherent
    refine ⟨hlater, .node ⟨fun x hx => (by cases hx), hS.target.symm ▸ hclean', fun S' k => ?_⟩ (halike n) (hparts n)
      fun _ _ hc => hc.mono hS.coherent hquiet⟩
    exact .node (halike n) (.of_image (isTyped_mono hclean'.self.typed k.later.store)
      fun x hx => (by cases hx)) ((hparts n).imp fun _ _ hc => hc.became.encodes S' (hquiet.trans k))

end Build

theorem Formula.became_decl {d d' : Declaration} (hS : S.Coherent ds) (hT : d.type? s = some T)
    (hsup : T.Supported ds) (ht : Ty.image? S.encoding.look T = some t) (hname : d'.name = d.name)
    (ht' : d'.type? S.store = some t) : (Formula.decl d).Became ds s S (.decl d') := by
  have htyped : (Formula.decl d').isTyped S.store := Option.isSome_iff_exists.2 ⟨t, ht'⟩
  refine ⟨fun x hx => ?_, .intro ⟨fun _ h => (by cases h), rfl, htyped, fun x hx u hu => ?_⟩
    fun _ h => (by cases h), fun S' k => .node hname (.of_image ?_ fun x hx => ?_) .nil⟩
  · cases hx
    exact ⟨T, t, hT, hsup, ht, ht'⟩
  · cases hx
    obtain rfl := Option.some_inj.1 (ht'.symm.trans hu)
    exact hS.plain hsup ht
  · exact isTyped_mono htyped k.later.store
  · cases hx
    exact ⟨T, t, hT, k.image? hS hsup ht, k.later.store.type? _ t ht'⟩

namespace Encode

theorem succeeds_optType (hS : S.Coherent ds) (hT : T.Supported ds) :
    Succeeds ((rebuilder f).optType (some T)) S fun o S' => S.Continues ds S' ∧
      ∃ t, o = some t ∧ Ty.image? S'.encoding.look T = some t :=
  Succeeds.map ((succeeds_type hS hT).mono fun t _ h => ⟨h.1.continues hS, t, rfl, h.2⟩)

/-- The type of a source node is encoded before its children. -/
theorem succeeds_nodeType (hS : S.Underway ds s f) (he : (Formula.expr e).Source ds s) :
    Succeeds ((rebuilder f).nodeType s e) S fun o S' =>
      S.Continues ds S' ∧ e.TypeBecame ds s S' o := by
  obtain ⟨T, hT⟩ : ∃ T, e.type? s = some T := exists_type? he.typed rfl
  have hsup := he.supported T hT
  unfold Rebuilder.nodeType
  rw [hT]
  refine (succeeds_optType hS.coherent hsup).mono fun o S' h => ?_
  obtain ⟨k, t, rfl, ht⟩ := h
  exact ⟨k, T, t, hT, hsup, rfl, ht⟩

theorem succeeds_decl {b : Declaration} (hS : S.Underway ds s f) (hb : (Formula.decl b).Source ds s) :
    Succeeds ((rebuilder f).decl s b) S fun b' S' => S.Continues ds S' ∧
      (Formula.decl b).Became ds s S' (.decl b') := by
  obtain ⟨T, hT⟩ : ∃ T, b.type? s = some T := exists_type? hb.typed rfl
  have hsup := hb.supported T hT
  unfold Rebuilder.decl
  rw [hT]
  refine (succeeds_optType hS.coherent hsup).bind fun o S₁ h₁ => ?_
  obtain ⟨hcontinues, t, rfl, ht⟩ := h₁
  have hdeclare : Succeeds (Build.declare b.name (some t)) S₁.store fun b' s' =>
      S₁.store.Later s' ∧ b'.name = b.name ∧ b'.type? s' = some t :=
    (Build.succeeds_declare b.name t S₁.store).mono fun _ _ h => ⟨h.2.1, h.1, h.2.2⟩
  refine (succeeds_quietly hdeclare).mono fun b' S₂ h₂ => ?_
  obtain ⟨hquiet, hname, ht'⟩ := h₂
  have hcontinues₂ := hquiet.continues hcontinues.coherent
  exact ⟨hcontinues.trans hcontinues₂, became_decl hcontinues₂.coherent hT hsup
    (hcontinues₂.image? hcontinues.coherent hsup ht) hname ht'⟩

theorem succeeds_decls (hS : S.Underway ds s f) {bs : List Declaration}
    (hbs : ∀ b ∈ bs, (Formula.decl b).Source ds s) :
    Succeeds ((rebuilder f).decls s bs) S fun bs' S' => S.Continues ds S' ∧
      List.Forall₂ (fun b b' => (Formula.decl b).Became ds s S' (.decl b')) bs bs' := by
  induction bs generalizing S with
  | nil => exact Succeeds.pure ⟨.refl hS.coherent, .nil⟩
  | cons b bs ih =>
    rw [List.forall_mem_cons] at hbs
    rw [Rebuilder.decls]
    refine (succeeds_decl hS hbs.1).bind fun b' S₁ h₁ => ?_
    refine (ih (hS.continue h₁.1) hbs.2).bind fun bs' S₂ h₂ => ?_
    exact Succeeds.pure ⟨h₁.1.trans h₂.1, .cons (h₁.2.mono h₁.1.coherent h₂.1) h₂.2⟩

end Encode

namespace Build

open EncodingState

theorem succeeds_copies {bs bs' : List Declaration} (hS : S.Coherent ds)
    (h : List.Forall₂ (fun b b' => (Formula.decl b).Became ds s S (.decl b')) bs bs') :
    Succeeds (bs'.mapM copy) S.store fun bs'' s' => S.store.Later s' ∧
      List.Forall₂ (fun b b' => (Formula.decl b).Became ds s ⟨s', S.encoding⟩ (.decl b')) bs bs'' := by
  induction bs' generalizing S bs with
  | nil =>
    cases h
    exact Succeeds.pure ⟨.refl _, .nil⟩
  | cons b' bs' ih =>
    obtain ⟨b, bs, hb, hrest, rfl⟩ := List.forall₂_cons_right_iff.1 h
    obtain ⟨T, t, hT, hsup, ht, ht'⟩ := hb.type _ rfl
    rw [List.mapM_cons]
    refine (succeeds_copy ht').bind fun b'' s₁ h₁ => ?_
    obtain ⟨hname, hlater₁, htype⟩ := h₁
    have hquiet : S.Quiet ⟨s₁, S.encoding⟩ := .of_store hlater₁
    have hcontinues := hquiet.continues hS
    refine (ih hcontinues.coherent (hrest.imp fun _ _ hc => hc.mono hS hcontinues)).bind
      fun bs'' s₂ h₂ => Succeeds.pure ⟨hlater₁.trans h₂.1, .cons ?_ h₂.2⟩
    have hname' : b'.name = b.name := by
      cases hb.encodes S (.refl hS) with
      | node halike _ _ => exact halike
    exact became_decl (Quiet.coherent hS (.of_store (hlater₁.trans h₂.1))) hT hsup ht
      (hname.trans hname') (h₂.1.type? _ _ htype)

end Build

namespace Encode

theorem succeeds_declaring (make : List Declaration → Build α) {P : α → EncodingState → Prop}
    {bs bs' : List Declaration} (hS : S.Coherent ds) (hne : bs ≠ [])
    (h : List.Forall₂ (fun b b' => (Formula.decl b).Became ds s S (.decl b')) bs bs')
    (hmake : ∀ bs'' S', S.Continues ds S' → bs'' ≠ [] →
      List.Forall₂ (fun b b' => (Formula.decl b).Became ds s S' (.decl b')) bs bs'' →
        Succeeds (make bs'') S'.store fun a s' => S'.store.Later s' ∧ P a ⟨s', S'.encoding⟩) :
    Succeeds (liftM (do
      Build.require (!bs'.isEmpty) .noDeclaration
      let bs'' ← bs'.mapM Build.copy
      make bs'') : Encode α) S fun a S' => S.Continues ds S' ∧ P a S' := by
  have hne' : bs' ≠ [] := by
    rintro rfl
    exact hne (List.forall₂_nil_right_iff.1 h)
  refine succeeds_made hS (Build.succeeds_required (by simpa using hne') ?_)
  refine (Build.succeeds_copies hS h).bind fun bs'' s₁ h₁ => ?_
  have hquiet : S.Quiet ⟨s₁, S.encoding⟩ := .of_store h₁.1
  have hne'' : bs'' ≠ [] := by
    rintro rfl
    exact hne (List.forall₂_nil_right_iff.1 h₁.2)
  exact (hmake bs'' _ (hquiet.continues hS) hne'' h₁.2).mono fun _ _ k => ⟨h₁.1.trans k.1, k.2⟩

end Encode
end SetLang
