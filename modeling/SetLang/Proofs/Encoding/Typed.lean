import SetLang.Encoding.Formulas
import SetLang.Proofs.Encoding.Construct
import SetLang.Proofs.Encoding.Homomorphism
import SetLang.Proofs.Encoding.Run

/-! Typed formulas of a factory without datatypes. They are built over typed parts by the rules of the core
language: an image or a value of a function has the type that the function gives it. -/

namespace SetLang

variable {f : Factory} {s s' : Store} {t u : Ty} {e a b : Expr} {es : List Expr} {ts : List Ty}

namespace Formula

/-- A typed node of a factory that neither is extended nor has datatypes in its type. -/
structure Clean (f : Factory) (s : Store) (g : Formula) : Prop where
  factory : ∀ h ∈ g.factory?, h = f
  core : g.extension? = none
  typed : g.isTyped s
  plain : ∀ x ∈ g.slot?, ∀ t ∈ s.type? x, t.Plain

theorem Clean.mono {g : Formula} (h : g.Clean f s) (k : s.Later s') : g.Clean f s' := by
  refine ⟨h.factory, h.core, isTyped_mono h.typed k, fun x hx t ht => ?_⟩
  obtain ⟨u, hu⟩ := exists_type? h.typed hx
  obtain rfl := Option.some_inj.1 ((k.type? x u hu).symm.trans ht)
  exact h.plain x hx u hu

end Formula

open Formula

structure Expr.Has (f : Factory) (s : Store) (t : Ty) (e : Expr) : Prop where
  clean : (Formula.expr e).Throughout (Formula.Clean f s)
  type : e.type? s = some t

namespace Expr.Has

theorem plain (h : e.Has f s t) : t.Plain := h.clean.self.plain _ rfl t h.type

theorem mono (h : e.Has f s t) (k : s.Later s') : e.Has f s' t :=
  ⟨h.clean.mono fun _ hg => hg.mono k, k.type? _ _ h.type⟩

theorem typing (h : e.Has f s t) : s.typing.ofExpr e = t.named := Store.typing_slot h.type

end Expr.Has

theorem Expr.Names.has (h : e.Names f s t) (ht : t.Plain) : e.Has f s t := by
  obtain ⟨n, x, rfl, hn, htype⟩ := h
  refine ⟨.intro ⟨?_, rfl, Option.isSome_iff_exists.2 ⟨t, htype⟩, ?_⟩
    fun g hg => (List.not_mem_nil hg).elim, htype⟩
  · rintro _ ⟨⟩
    exact hn
  · rintro _ ⟨⟩ u hu
    obtain rfl := Option.some_inj.1 (htype.symm.trans hu)
    exact ht

namespace Build

/-- A new expression over clean parts whose rule allows a type without datatypes. The type is given to the
expression, or its operands leave no other type. -/
theorem succeeds_clean (make : Node → Expr) (ht : t.Plain) (hnode : ∀ n, (make n).node = n)
    (hcore : ∀ n, (Formula.expr (make n)).extension? = none)
    (hparts : ∀ n, ∀ g ∈ (make n).children, g.Throughout (Clean f s))
    (hrule : ∀ n, (make n).scheme.Holds ((make n).operands.map s.typing.ofExpr) (some t.named))
    (hone : ∀ n, (make n).explicit? = none ∧ (make n).scheme.Determines (make n).operands.length ∨
      (make n).explicit? = some t) :
    Succeeds (Build.expr f make) s fun e s' =>
      (∃ n, e = make n) ∧ s.Later s' ∧ e.Has f s' t := by
  have hfits : ∀ n, (make n).Fitting := by
    intro n
    have hn := hcore n
    revert hn
    cases make n <;> first | exact fun _ => trivial | (intro hn; cases hn)
  have hadmits : ∀ n g, (make n).Admits s g ↔ g = t.named := fun n =>
    Expr.admits_iff_eq (hrule n) (hone n)
  refine (Build.succeeds_expr make ht hnode (fun n g hg => ?_) hfits
    (fun n g hg => (hparts n g hg).self.typed) hadmits).mono fun e s' h => ?_
  · rw [Expr.partFactories_eq] at hg
    obtain ⟨c, hc, hfactory⟩ := List.mem_filterMap.1 hg
    exact (hparts n c hc).self.factory g hfactory
  · obtain ⟨⟨n, rfl, hn⟩, hlater, htype⟩ := h
    refine ⟨⟨n, rfl⟩, hlater, .intro ⟨?_, hcore n, Option.isSome_iff_exists.2 ⟨t, htype⟩, ?_⟩
      fun g hg => (hparts n g hg).mono fun _ hg => hg.mono hlater, htype⟩
    · rintro _ ⟨⟩
      exact (congrArg Node.factory (hnode n)).trans hn
    · rintro _ ⟨⟩ u hu
      obtain rfl := Option.some_inj.1 (htype.symm.trans hu)
      exact ht

theorem succeeds_cleanPred (make : Node → Pred) (hnode : ∀ n, (make n).node = n)
    (hcore : ∀ n, (Formula.pred (make n)).extension? = none)
    (hparts : ∀ n, ∀ g ∈ (make n).children, g.Throughout (Clean f s))
    (hrule : ∀ n, (make n).scheme.Holds ((make n).operands.map s.typing.ofExpr) none) :
    Succeeds (Build.pred f make) s fun p s' =>
      (∃ n, p = make n) ∧ s.Later s' ∧ (Formula.pred p).Throughout (Clean f s') := by
  have hfits : ∀ n, (make n).Fitting := by
    intro n
    have hn := hcore n
    revert hn
    cases make n <;> first | exact fun _ => trivial | (intro hn; cases hn)
  refine (Build.succeeds_pred make hnode (fun n g hg => ?_) hfits
    (fun n g hg => (hparts n g hg).self.typed) hrule).mono fun p s' h => ?_
  · rw [Pred.partFactories_eq] at hg
    obtain ⟨c, hc, hfactory⟩ := List.mem_filterMap.1 hg
    exact (hparts n c hc).self.factory g hfactory
  · obtain ⟨⟨n, rfl, hn⟩, hlater, htyped⟩ := h
    refine ⟨⟨n, rfl⟩, hlater, .intro ⟨?_, hcore n, htyped, fun x hx => by cases hx⟩
      fun g hg => (hparts n g hg).mono fun _ hg => hg.mono hlater⟩
    rintro _ ⟨⟩
    exact (congrArg Node.factory (hnode n)).trans hn

theorem succeeds_declare (name : String) (t : Ty) (s : Store) :
    Succeeds (declare name (some t)) s fun d s' =>
      d.name = name ∧ s.Later s' ∧ d.type? s' = some t :=
  ⟨_, _, rfl, rfl, (s.grown_push _).later, by simp [Declaration.type?, Store.type?]⟩

theorem succeeds_copy {d : Declaration} (h : d.type? s = some t) :
    Succeeds (copy d) s fun d' s' => d'.name = d.name ∧ s.Later s' ∧ d'.type? s' = some t := by
  refine Succeeds.bind_run (run_get s) ?_
  rw [h]
  exact succeeds_declare d.name t s

/-- A quantified predicate has declarations of the types that those have which it is made of. -/
theorem yields_quantified {bs : List Declaration} (op : Quantifier) (p : Pred)
    (hbs : List.Forall₂ (fun b t => b.type? s = some t) bs ts) :
    Yields (f.quantifiedPred op bs p) s fun q s' => ∃ n bs', q = .quantified n op bs' p ∧
      List.Forall₂ (fun b t => b.type? s' = some t) bs' ts := by
  refine yields_required ?_
  have hcopies : Succeeds (bs.mapM copy) s fun bs' s' => s.Later s' ∧
      List.Forall₂ (fun b b' => ∀ t, b.type? s = some t → b'.type? s' = some t) bs bs' := by
    refine succeeds_mapM (fun _ _ _ _ k h t ht => k.type? _ _ (h t ht)) fun b hb s₁ k => ?_
    obtain ⟨t, -, ht⟩ := forall₂_exists_right hbs hb
    refine (succeeds_copy (k.type? _ _ ht)).mono fun b' s₂ h => ⟨h.2.1, fun t' ht' => ?_⟩
    rw [h.2.2, ← ht, ht']
  refine hcopies.yields.bind fun bs' s₁ h₁ => (yields_predNode f (.quantified · op bs' p)).mono ?_
  rintro _ s₂ ⟨⟨n, rfl, -⟩, htypes⟩
  refine ⟨n, bs', rfl, forall₂_join h₁.2 hbs fun b _ b' t hb' ht => ?_⟩
  rw [← hb' t ht]
  unfold Declaration.type? Store.type?
  rw [htypes]

end Build

namespace Encode

variable {S : EncodingState}

theorem succeeds_declares (xs : List (String × Ty)) : Succeeds
    (xs.mapM fun (name, t) => (liftM (Build.declare name (some (.power t))) : Encode Declaration)) S
    fun ds S' => S.Still S' ∧ ds.map (·.name) = xs.map Prod.fst ∧
      List.Forall₂ (fun d t => d.type? S'.store = some (.power t)) ds (xs.map Prod.snd) := by
  induction xs generalizing S with
  | nil => exact Succeeds.pure ⟨.refl S, rfl, .nil⟩
  | cons x xs ih =>
    rw [List.mapM_cons]
    refine (succeeds_liftM (Build.succeeds_declare x.1 (.power x.2) S.store)).bind fun d S₁ h₁ => ?_
    obtain ⟨hencoding, hname, hlater, htype⟩ := h₁
    refine ih.bind fun ds S₂ h₂ => ?_
    obtain ⟨hstill, hnames, htypes⟩ := h₂
    refine Succeeds.pure ⟨.trans ⟨hlater, hencoding⟩ hstill, ?_, .cons (hstill.store.type? _ _ htype) htypes⟩
    rw [List.map_cons, List.map_cons, hname, hnames]

end Encode

/-! Operators over clean operands. -/

namespace Factory

/-- An operator with a rule that allows a type without datatypes. -/
theorem succeeds_binary {A B : Ty} (op : BinaryOp) (ha : a.Has f s A) (hb : b.Has f s B)
    (ht : t.Plain) (hrule : op.scheme.Holds [A.named, B.named] (some t.named)) :
    Succeeds (f.binary op a b) s fun e s' => s.Later s' ∧ e.Has f s' t ∧
      .expr a ∈ (Formula.expr e).nodes ∧ .expr b ∈ (Formula.expr e).nodes := by
  refine (Build.succeeds_clean (.binary · op a b) ht (fun _ => rfl) (fun _ => rfl)
    (fun _ => List.forall_mem_cons.2 ⟨ha.clean, List.forall_mem_singleton.2 hb.clean⟩)
    (fun _ => ?_) fun _ => .inl ⟨rfl, op.determines⟩).mono fun e s' h => ?_
  · rwa [Expr.operands, List.map_cons, List.map_singleton, ha.typing, hb.typing]
  · obtain ⟨⟨n, rfl⟩, hlater, htype⟩ := h
    refine ⟨hlater, htype, ?_, ?_⟩
    · exact Formula.nodes_closed (Formula.mem_nodes_self _) List.mem_cons_self
    · exact Formula.nodes_closed (Formula.mem_nodes_self _) (List.mem_cons_of_mem _ List.mem_cons_self)

theorem succeeds_unary {A : Ty} (op : UnaryOp) (ha : a.Has f s A) (ht : t.Plain)
    (hrule : op.scheme.Holds [A.named] (some t.named)) :
    Succeeds (f.unary op a) s fun e s' => s.Later s' ∧ e.Has f s' t := by
  refine (Build.succeeds_clean (.unary · op a) ht (fun _ => rfl) (fun _ => rfl)
    (fun _ => List.forall_mem_singleton.2 ha.clean) (fun _ => ?_)
    fun _ => .inl ⟨rfl, op.determines⟩).mono fun _ _ h => h.2
  rwa [Expr.operands, List.map_singleton, ha.typing]

structure Pairs (op : BinaryOp) (lift : Ty → Ty) : Prop where
  rule : ∀ A B, op.scheme.Holds [(lift A).named, (lift B).named] (some (lift (.product A B)).named)
  plain : ∀ A B, (lift A).Plain → (lift B).Plain → (lift (.product A B)).Plain

theorem pairs_maplet : Pairs .maplet fun t => t where
  rule A B := by
    rw [BinaryOp.scheme, Scheme.holds_some]
    refine ⟨fun v => if v = 0 then A.named else B.named, ?_, ?_⟩
    · simp [Scheme.matches_cons]
    · simp [TypeTree.named, TypeTree.mapData]
  plain _ _ hA hB := List.append_eq_nil_iff.2 ⟨hA, hB⟩

theorem pairs_cprod : Pairs .cprod .power where
  rule A B := by
    rw [BinaryOp.scheme, Scheme.holds_some]
    refine ⟨fun v => if v = 0 then A.named else B.named, ?_, ?_⟩
    · simp [Scheme.matches_cons, TypeTree.named, TypeTree.mapData]
    · simp [TypeTree.named, TypeTree.mapData, TypeTree.relation]
  plain _ _ hA hB := List.append_eq_nil_iff.2 ⟨hA, hB⟩

variable {op : BinaryOp} {lift : Ty → Ty}

structure Pairing (f : Factory) (op : BinaryOp) (H : Store → Ty → Expr → Prop) : Prop where
  mono : ∀ {s s' : Store} {t : Ty} {e : Expr}, H s t e → s.Later s' → H s' t e
  pair : ∀ {s : Store} {A B : Ty} {a b : Expr}, H s A a → H s B b → Succeeds (f.binary op a b) s fun e s' =>
    s.Later s' ∧ H s' (.product A B) e ∧ .expr a ∈ (Formula.expr e).nodes ∧ .expr b ∈ (Formula.expr e).nodes

theorem Pairs.pairing (hop : Pairs op lift) : Pairing f op fun s t e => e.Has f s (lift t) where
  mono h k := h.mono k
  pair ha hb := succeeds_binary op ha hb (hop.plain _ _ ha.plain hb.plain) (hop.rule _ _)

variable {H : Store → Ty → Expr → Prop}

theorem succeeds_foldlM (hop : Pairing f op H) (s : Store) (he : H s t e)
    (hes : List.Forall₂ (fun e u => H s u e) es ts) :
    Succeeds (es.foldlM (f.binary op) e) s fun e' s' => s.Later s' ∧
      H s' (ts.foldl .product t) e' ∧ ∀ x ∈ e :: es, .expr x ∈ (Formula.expr e').nodes := by
  induction es generalizing e s t ts with
  | nil =>
    cases hes
    exact Succeeds.pure ⟨.refl s, he, List.forall_mem_singleton.2 (Formula.mem_nodes_self _)⟩
  | cons a es ih =>
    obtain ⟨u, us, ha, hrest, rfl⟩ := List.forall₂_cons_left_iff.1 hes
    rw [List.foldlM_cons]
    refine (hop.pair he ha).bind fun e' s₁ h₁ => ?_
    obtain ⟨hlater₁, he', hleft, hright⟩ := h₁
    refine (ih s₁ he' (hrest.imp fun _ _ hx => hop.mono hx hlater₁)).mono fun e'' s₂ h₂ => ?_
    obtain ⟨hlater₂, htype, hnodes⟩ := h₂
    rw [List.forall_mem_cons] at hnodes
    refine ⟨hlater₁.trans hlater₂, htype, List.forall_mem_cons.2 ⟨?_, List.forall_mem_cons.2 ⟨?_, hnodes.2⟩⟩⟩
    · exact Formula.nodes_trans hnodes.1 hleft
    · exact Formula.nodes_trans hnodes.1 hright

theorem succeeds_combine? (hop : Pairing f op H) (s : Store) {domain : Ty}
    (hdomain : Ty.productOf? ts = some domain) (hes : List.Forall₂ (fun e u => H s u e) es ts) :
    Succeeds (f.combine? op es) s fun o s' => ∃ e, o = some e ∧ s.Later s' ∧
      H s' domain e ∧ ∀ x ∈ es, .expr x ∈ (Formula.expr e).nodes := by
  cases hes with
  | nil => cases hdomain
  | cons he hes =>
    cases hdomain
    exact Succeeds.map ((succeeds_foldlM hop s he hes).mono fun e' s' h => ⟨e', rfl, h⟩)

/-- The value of a function is of the type of its range. -/
theorem holds_funImage (domain t : Ty) :
    BinaryOp.funImage.scheme.Holds [(TypeTree.relation domain t).named, domain.named] (some t.named) := by
  rw [BinaryOp.scheme, Scheme.holds_some]
  refine ⟨fun v => if v = 0 then domain.named else t.named, ?_, ?_⟩
  · simp [Scheme.matches_cons, TypeTree.named, TypeTree.mapData, TypeTree.relation]
  · simp

/-- An application of a function to arguments of its argument types. -/
theorem succeeds_apply (s : Store) (he : e.Has f s (constructorType ts t)) (ht : t.Plain)
    (hes : List.Forall₂ (fun e u => e.Has f s u) es ts) :
    Succeeds (f.apply e es) s fun e' s' => s.Later s' ∧ e'.Has f s' t ∧
      ∀ x ∈ e :: es, .expr x ∈ (Formula.expr e').nodes := by
  unfold apply
  cases hdomain : Ty.productOf? ts with
  | none =>
    rw [constructorType, hdomain] at he
    obtain rfl : ts = [] := by
      cases ts with
      | nil => rfl
      | cons _ _ => cases hdomain
    cases hes
    refine Succeeds.bind_run (run_pure none s) (Succeeds.pure ⟨.refl s, he, ?_⟩)
    exact List.forall_mem_singleton.2 (Formula.mem_nodes_self _)
  | some domain =>
    rw [constructorType, hdomain] at he
    refine (succeeds_combine? pairs_maplet.pairing s hdomain hes).bind fun o s₁ h₁ => ?_
    obtain ⟨tuple, rfl, hlater₁, htuple, hnodes⟩ := h₁
    refine (succeeds_binary _ (he.mono hlater₁) htuple ht (holds_funImage domain t)).mono fun e' s₂ h₂ => ?_
    obtain ⟨hlater₂, htype, hfunction, htuple⟩ := h₂
    exact ⟨hlater₁.trans hlater₂, htype, List.forall_mem_cons.2 ⟨hfunction, fun x hx =>
      Formula.nodes_trans htuple (hnodes x hx)⟩⟩

/-- The image of sets of arguments under a relation from tuples of arguments. -/
theorem succeeds_image (s : Store) (he : e.Has f s (constructorType ts t)) (ht : t.Plain)
    (hne : ts ≠ []) (hes : List.Forall₂ (fun e u => e.Has f s (.power u)) es ts) :
    Succeeds (f.image e es) s fun e' s' => s.Later s' ∧ e'.Has f s' (.power t) ∧
      ∀ x ∈ e :: es, .expr x ∈ (Formula.expr e').nodes := by
  unfold image
  cases hdomain : Ty.productOf? ts with
  | none =>
    cases ts with
    | nil => exact absurd rfl hne
    | cons _ _ => cases hdomain
  | some domain =>
    rw [constructorType, hdomain] at he
    refine (succeeds_combine? pairs_cprod.pairing s hdomain hes).bind fun o s₁ h₁ => ?_
    obtain ⟨product, rfl, hlater₁, hproduct, hnodes⟩ := h₁
    have hrule : BinaryOp.relImage.scheme.Holds [(TypeTree.relation domain t).named,
        (TypeTree.power domain).named] (some (TypeTree.power t).named) := by
      rw [BinaryOp.scheme, Scheme.holds_some]
      refine ⟨fun v => if v = 0 then domain.named else t.named, ?_, ?_⟩
      · simp [Scheme.matches_cons, TypeTree.named, TypeTree.mapData, TypeTree.relation]
      · simp [TypeTree.named, TypeTree.mapData]
    refine (succeeds_binary (t := .power t) _ (he.mono hlater₁) hproduct ht hrule).mono
      fun e' s₂ h₂ => ?_
    obtain ⟨hlater₂, htype, hrelation, hproduct⟩ := h₂
    exact ⟨hlater₁.trans hlater₂, htype, List.forall_mem_cons.2 ⟨hrelation, fun x hx =>
      Formula.nodes_trans hproduct (hnodes x hx)⟩⟩

end Factory
end SetLang
