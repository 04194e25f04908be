import SetLang.Proofs.Encoding.Nodes
import SetLang.Proofs.Encoding.Plan

/-! Types of the axioms that speak of the functions of one representation. They are built over typed functions
by operators of which each has a place for the types that these functions have. -/

namespace SetLang

variable {f : Factory} {s s' : Store} {A B t type : Ty} {a b e : Expr} {es : List Expr} {single : Bool}
  {c : ConstructorImage} {r : Representation}

open Formula

theorem TypeTree.plain_product (hA : A.Plain) (hB : B.Plain) : (TypeTree.product A B : Ty).Plain :=
  List.append_eq_nil_iff.2 ⟨hA, hB⟩

theorem TypeTree.plain_product_iff : (TypeTree.product A B : Ty).Plain ↔ A.Plain ∧ B.Plain :=
  List.append_eq_nil_iff

/-! Rules of operators, read for the types that they are used at. -/

theorem BinaryOp.holds_relations {op : BinaryOp} (hop : op ∈ relationSets) (A B : Ty) :
    op.scheme.Holds [(TypeTree.power A : Ty).named, (TypeTree.power B : Ty).named]
      (some (TypeTree.power (.relation A B) : Ty).named) := by
  have hscheme : op.scheme = strel.scheme := by
    simp only [relationSets, List.mem_cons, List.not_mem_nil, or_false] at hop
    rcases hop with rfl | rfl | rfl | rfl | rfl | rfl <;> rfl
  rw [hscheme, scheme, Scheme.holds_some]
  refine ⟨fun v => if v = 0 then A.named else B.named, ?_, ?_⟩
  · simp [Scheme.matches_cons]
  · simp

theorem UnaryOp.holds_ran (A B : Ty) :
    UnaryOp.ran.scheme.Holds [(TypeTree.relation A B).named] (some (TypeTree.power B).named) := by
  rw [scheme, Scheme.holds_some]
  exact ⟨fun v => if v = 0 then A.named else B.named, by simp [Scheme.matches_cons], by simp⟩

theorem UnaryOp.holds_converse (A B : Ty) : UnaryOp.converse.scheme.Holds [(TypeTree.relation A B).named]
    (some (TypeTree.relation B A).named) := by
  rw [scheme, Scheme.holds_some]
  exact ⟨fun v => if v = 0 then A.named else B.named, by simp [Scheme.matches_cons], by simp⟩

theorem UnaryOp.holds_pow (A : Ty) :
    UnaryOp.pow.scheme.Holds [(TypeTree.power A).named] (some (TypeTree.power (.power A)).named) := by
  rw [scheme, Scheme.holds_some]
  exact ⟨fun _ => A.named, by simp [Scheme.matches_cons], by simp⟩

theorem Atom.holds_boolSet : Atom.boolSet.scheme.Holds [] (some (TypeTree.power .boolean : Ty).named) := by
  rw [scheme, Scheme.holds_some]
  exact ⟨fun _ => .boolean, Scheme.matches_nil, rfl⟩

namespace Factory

/-- Functions from one type combine to the function to the pairs of their values. -/
theorem pairs_dprod (type : Ty) : Pairs .dprod (.relation type) where
  rule A B := by
    rw [BinaryOp.scheme, Scheme.holds_some]
    refine ⟨fun v => if v = 0 then type.named else if v = 1 then A.named else B.named, ?_, ?_⟩
    · simp [Scheme.matches_cons]
    · simp
  plain _ _ hA hB := by
    obtain ⟨htype, hA⟩ := TypeTree.plain_product_iff.1 hA
    exact TypeTree.plain_product htype (TypeTree.plain_product hA (TypeTree.plain_product_iff.1 hB).2)

theorem succeeds_singleton (ha : a.Has f s A) :
    Succeeds (f.singleton a) s fun e s' => s.Later s' ∧ e.Has f s' (.power A) := by
  unfold singleton set
  refine (Build.succeeds_clean (.set · [a] none) (t := .power A) ha.plain (fun _ => rfl) (fun _ => rfl)
    (fun _ => List.forall_mem_singleton.2 ha.clean) (fun _ => ?_)
    fun _ => .inl ⟨rfl, Scheme.determines_one fun _ hv => hv⟩).mono fun _ _ h => h.2
  rw [Expr.scheme, Expr.operands, List.map_singleton, ha.typing, Scheme.holds_some]
  exact ⟨fun _ => A.named, by simp [Scheme.matches_cons], by simp⟩

/-- The expression of a type without datatypes. -/
theorem succeeds_typeExpr (t : Ty) (ht : t.Plain) (s : Store) :
    Succeeds (f.typeExpr t) s fun e s' => s.Later s' ∧ e.Has f s' (.power t) := by
  induction t using TypeTree.ind generalizing s with
  | leaf v => exact v.elim
  | boolean =>
    rw [typeExpr]
    refine (Build.succeeds_clean (.atom · .boolSet none) (t := .power .boolean) ht (fun _ => rfl)
      (fun _ => rfl) (fun _ _ h => by cases h) (fun _ => Atom.holds_boolSet) fun _ => .inl ⟨rfl, ?_⟩).mono
        fun _ _ h => h.2
    exact ⟨_, rfl, fun v hv => by cases hv⟩
  | given g =>
    rw [typeExpr]
    exact (f.succeeds_free g (t := .power (.given g)) rfl s).mono fun _ _ h => ⟨h.1, h.2.has rfl⟩
  | power a ih =>
    rw [typeExpr]
    refine (ih ht s).bind fun e s₁ h₁ => ?_
    exact (succeeds_unary .pow h₁.2 (t := .power (.power a)) ht (UnaryOp.holds_pow a)).mono fun _ _ h =>
      ⟨h₁.1.trans h.1, h.2⟩
  | product a b iha ihb =>
    obtain ⟨ha, hb⟩ := TypeTree.plain_product_iff.1 ht
    rw [typeExpr]
    refine (iha ha s).bind fun e s₁ h₁ => (ihb hb s₁).bind fun e' s₂ h₂ => ?_
    refine (succeeds_binary .cprod (h₁.2.mono h₂.1) h₂.2 ?_ (pairs_cprod.rule a b)).mono fun _ _ h => ?_
    · exact pairs_cprod.plain a b ha hb
    · exact ⟨(h₁.1.trans h₂.1).trans h.1, h.2.1⟩
  | data d as _ => cases ht

theorem succeeds_comparison (op : Comparison) (ha : a.Has f s A) (hb : b.Has f s B)
    (hrule : op.scheme.Holds [A.named, B.named] none) :
    Succeeds (f.comparison op a b) s fun p s' => s.Later s' ∧
      (Formula.pred p).Throughout (Clean f s') := by
  refine (Build.succeeds_cleanPred (.comparison · op a b) (fun _ => rfl) (fun _ => rfl)
    (fun _ => List.forall_mem_cons.2 ⟨ha.clean, List.forall_mem_singleton.2 hb.clean⟩)
    fun _ => ?_).mono fun _ _ h => h.2
  rwa [Pred.operands, List.map_cons, List.map_singleton, ha.typing, hb.typing]

theorem succeeds_partition (hne : es ≠ []) (hes : ∀ e ∈ es, e.Has f s (.power A)) :
    Succeeds (f.partition es) s fun p s' => s.Later s' ∧ (Formula.pred p).Throughout (Clean f s') := by
  refine Build.succeeds_required (by simpa using hne) <| (Build.succeeds_cleanPred (.partition · es)
    (fun _ => rfl) (fun _ => rfl) (fun _ => List.forall_mem_map.2 fun e he => (hes e he).clean)
    fun _ => Scheme.holds_none.2 ⟨fun _ => A.named, ?_⟩).mono fun _ _ h => h.2
  refine Scheme.matches_all.2 (List.forall_mem_map.2 fun e he => ?_)
  rw [(hes e he).typing, TypeTree.named_power, TyTerm.under_power, TyTerm.under_leaf]

/-- A declaration of a type without datatypes belongs to any factory. -/
theorem clean_decl {b : Declaration} (h : b.type? s = some A) (hplain : A.Plain) :
    (Formula.decl b).Throughout (Clean f s) := by
  refine .intro ⟨fun _ h => (by cases h), rfl, Option.isSome_iff_exists.2 ⟨A, h⟩, fun x hx t ht => ?_⟩
    fun _ h => by cases h
  cases hx
  obtain rfl := Option.some_inj.1 (h.symm.trans ht)
  exact hplain

theorem succeeds_quantifiedPred (op : Quantifier) {bs : List Declaration} {p : Pred} (hne : bs ≠ [])
    (hbs : ∀ b ∈ bs, ∃ A, b.type? s = some A ∧ A.Plain) (hp : (Formula.pred p).Throughout (Clean f s)) :
    Succeeds (f.quantifiedPred op bs p) s fun q s' => s.Later s' ∧
      (Formula.pred q).Throughout (Clean f s') := by
  refine Build.succeeds_required (by simpa using hne) ?_
  refine (Build.succeeds_mapM (P := fun _ c s => ∃ A, c.type? s = some A ∧ A.Plain) (fun _ _ _ _ k h => ?_)
    fun b hb s' k => ?_).bind fun cs s₁ h₁ => ?_
  · obtain ⟨A, hA, hplain⟩ := h
    exact ⟨A, k.type? _ _ hA, hplain⟩
  · obtain ⟨A, hA, hplain⟩ := hbs b hb
    exact (Build.succeeds_copy (k.type? _ _ hA)).mono fun c s'' h => ⟨h.2.1, A, h.2.2, hplain⟩
  · refine (Build.succeeds_cleanPred (.quantified · op cs p) (fun _ => rfl) (fun _ => rfl) (fun _ => ?_)
      fun _ => ?_).mono fun _ _ h => ⟨h₁.1.trans h.2.1, h.2.2⟩
    · refine List.forall_mem_append.2 ⟨List.forall_mem_map.2 fun c hc => ?_, List.forall_mem_singleton.2 ?_⟩
      · obtain ⟨b, -, A, hA, hplain⟩ := forall₂_exists_right h₁.2.flip hc
        exact clean_decl hA hplain
      · exact hp.mono fun _ hg => hg.mono h₁.1
    · simp [Pred.scheme, Scheme.any, Scheme.Holds]

end Factory

open Factory

/-- What is planned has a type without datatypes, by the rules of the operators. -/
inductive Expr.Plan.HasType (f : Factory) (s : Store) : Expr.Plan → Ty → Prop
  | made {e : Expr} {A : Ty} : e.Has f s A → HasType f s (.made e) A
  | type {t : Ty} : t.Plain → HasType f s (.type t) (.power t)
  | unary {op : UnaryOp} {a : Expr.Plan} {A T : Ty} : HasType f s a A → T.Plain →
    op.scheme.Holds [A.named] (some T.named) → HasType f s (.unary op a) T
  | binary {op : BinaryOp} {a b : Expr.Plan} {A B T : Ty} : HasType f s a A → HasType f s b B → T.Plain →
    op.scheme.Holds [A.named, B.named] (some T.named) → HasType f s (.binary op a b) T
  | singleton {a : Expr.Plan} {A : Ty} : HasType f s a A → HasType f s (.singleton a) (.power A)

inductive Pred.Plan.Typed (f : Factory) (s : Store) : Pred.Plan → Prop
  | comparison {op : Comparison} {a b : Expr.Plan} {A B : Ty} : a.HasType f s A → b.HasType f s B →
    op.scheme.Holds [A.named, B.named] none → Typed f s (.comparison op a b)
  | partition {es : List Expr.Plan} {A : Ty} : es ≠ [] → (∀ e ∈ es, e.HasType f s (.power A)) →
    Typed f s (.partition es)

namespace Expr.Plan.HasType

variable {k : Expr.Plan} {op : BinaryOp} {lift : Ty → Ty} {ts : List Ty}

theorem plain (h : k.HasType f s A) : A.Plain := by
  induction h with
  | made h => exact h.plain
  | type h => exact h
  | unary _ h _ _ => exact h
  | binary _ _ h _ _ _ => exact h
  | singleton _ ih => exact ih

theorem foldl (hop : Pairs op lift) (hk : k.HasType f s (lift A))
    (hes : List.Forall₂ (fun e t => e.Has f s (lift t)) es ts) :
    (k.foldl op es).HasType f s (lift (ts.foldl .product A)) := by
  induction hes generalizing k A with
  | nil => exact hk
  | cons he _ ih => exact ih (.binary hk (.made he) (hop.plain _ _ hk.plain he.plain) (hop.rule _ _))

theorem combined? (hop : Pairs op lift) (ht : Ty.productOf? ts = some t)
    (hes : List.Forall₂ (fun e t => e.Has f s (lift t)) es ts) :
    ∀ k ∈ Expr.Plan.combined? op es, k.HasType f s (lift t) := by
  cases hes with
  | nil => exact nofun
  | cons he hes =>
    cases ht
    rintro _ ⟨⟩
    exact foldl hop (.made he) hes

/-- What is planned is built, in every later store. -/
theorem succeeds (h : k.HasType f s A) (hs : s.Later s') :
    Succeeds (k.build f) s' fun e t => s'.Later t ∧ e.Has f t A := by
  induction h generalizing s' with
  | made h => exact Succeeds.pure ⟨.refl s', h.mono hs⟩
  | type h => exact succeeds_typeExpr _ h s'
  | unary _ hT hrule ih =>
    refine (ih hs).bind fun e s₁ h₁ => ?_
    exact (succeeds_unary _ h₁.2 hT hrule).mono fun _ _ h => ⟨h₁.1.trans h.1, h.2⟩
  | binary _ _ hT hrule iha ihb =>
    refine (iha hs).bind fun a s₁ h₁ => (ihb (hs.trans h₁.1)).bind fun b s₂ h₂ => ?_
    exact (succeeds_binary _ (h₁.2.mono h₂.1) h₂.2 hT hrule).mono fun _ _ h =>
      ⟨(h₁.1.trans h₂.1).trans h.1, h.2.1⟩
  | singleton _ ih =>
    refine (ih hs).bind fun e s₁ h₁ => ?_
    exact (succeeds_singleton h₁.2).mono fun _ _ h => ⟨h₁.1.trans h.1, h.2⟩

end Expr.Plan.HasType

namespace Pred.Plan.Typed

variable {k : Pred.Plan} {a b : Expr.Plan}

theorem member {op : BinaryOp} (hop : op ∈ BinaryOp.relationSets) (he : e.Has f s (.relation A B))
    (ha : a.HasType f s (.power A)) (hb : b.HasType f s (.power B)) : (member e op a b).Typed f s :=
  .comparison (.made he) (.binary (T := .power (.relation A B)) ha hb he.plain (BinaryOp.holds_relations hop A B))
    (Comparison.holds_mem _)

theorem succeeds (h : k.Typed f s) (hs : s.Later s') :
    Succeeds (k.build f) s' fun p t => s'.Later t ∧ (Formula.pred p).Throughout (Clean f t) := by
  cases h with
  | comparison ha hb hrule =>
    refine (ha.succeeds hs).bind fun _ s₁ h₁ => (hb.succeeds (hs.trans h₁.1)).bind fun _ s₂ h₂ => ?_
    exact (succeeds_comparison _ (h₁.2.mono h₂.1) h₂.2 hrule).mono fun _ _ h => ⟨(h₁.1.trans h₂.1).trans h.1, h.2⟩
  | @partition es A hne hes =>
    refine (Build.succeeds_mapM (P := fun _ e s => e.Has f s (.power A)) (fun _ _ _ _ k h => h.mono k)
      fun e he t k => (hes e he).succeeds (hs.trans k)).bind fun es' s₁ h₁ => ?_
    refine (succeeds_partition (A := A) (ne_nil_of_forall₂ h₁.2 hne) fun e he => ?_).mono
      fun _ _ h => ⟨h₁.1.trans h.1, h.2⟩
    obtain ⟨_, -, he⟩ := forall₂_exists_right h₁.2.flip he
    exact he

end Pred.Plan.Typed

/-- Axioms whose plans are typed are built, and are typed. -/
theorem Build.succeeds_plans {ks : List Pred.Plan} (h : ∀ k ∈ ks, k.Typed f s) (hs : s.Later s') :
    Succeeds (ks.mapM (·.build f)) s' fun ps t => s'.Later t ∧ ∀ p ∈ ps, (Formula.pred p).Throughout (Clean f t) := by
  refine (Build.succeeds_mapM (P := fun _ p s => (Formula.pred p).Throughout (Clean f s))
    (fun _ _ _ _ k hp => hp.mono fun _ hg => hg.mono k) fun k hk t hlater => (h k hk).succeeds (hs.trans hlater)).mono
      fun ps t ht => ⟨ht.1, fun p hp => ?_⟩
  obtain ⟨_, -, hp⟩ := forall₂_exists_right ht.2.flip hp
  exact hp

structure ConstructorImage.Typed (f : Factory) (s : Store) (type : Ty) (c : ConstructorImage) : Prop where
  function : c.function.Has f s (constructorType c.argTypes type)
  destructors : List.Forall₂ (fun d t => d.Has f s (.relation type t)) c.destructors c.argTypes

namespace ConstructorImage

theorem Typed.values (h : c.Typed f s type) (hplain : type.Plain) :
    c.valuesPlan.HasType f s (.power type) := by
  have hfunction := h.function
  unfold constructorType at hfunction
  unfold valuesPlan
  split_ifs with hargs
  · obtain ⟨domain, hdomain⟩ := hasArguments_iff.1 hargs
    rw [hdomain] at hfunction
    exact .unary (.made hfunction) hplain (UnaryOp.holds_ran domain type)
  · rw [hasArguments_iff] at hargs
    have hnone : Ty.productOf? c.argTypes = none := Option.eq_none_iff_forall_ne_some.2 fun d hd => hargs ⟨d, hd⟩
    rw [hnone] at hfunction
    exact .singleton (.made hfunction)

/-- The axioms of a constructor are typed. -/
theorem Typed.plans (h : c.Typed f s type) (he : e.Has f s (.power type)) :
    ∀ k ∈ c.plans single e, k.Typed f s := by
  have hfunction := h.function
  unfold constructorType at hfunction
  unfold ConstructorImage.plans
  cases hdomain : Ty.productOf? c.argTypes with
  | none => exact nofun
  | some domain =>
    rw [hdomain] at hfunction
    obtain ⟨hplain, htype⟩ := TypeTree.plain_product_iff.1 hfunction.plain
    have hop : (if single then BinaryOp.tbij else .tinj) ∈ BinaryOp.relationSets := by
      cases single <;> simp [BinaryOp.relationSets]
    refine List.forall_mem_append.2 ⟨List.forall_mem_cons.2 ⟨?_, List.forall_mem_map.2 fun x hx => ?_⟩,
      List.forall_mem_map.2 fun product hproduct => ?_⟩
    · exact .member hop hfunction (.type hplain) (.made he)
    · have hd : x.1.Has f s (.relation type x.2) := (List.forall₂_iff_zip.1 h.destructors).2 hx
      obtain ⟨-, ht⟩ := TypeTree.plain_product_iff.1 hd.plain
      exact .member (by simp [BinaryOp.relationSets]) hd (h.values htype) (.type ht)
    · have hproduct := Expr.Plan.HasType.combined? (pairs_dprod type) hdomain h.destructors product
        (Option.mem_toList.1 hproduct)
      exact .comparison hproduct (.unary (.made hfunction) hproduct.plain (UnaryOp.holds_converse domain type))
        (Comparison.holds_eq _)

end ConstructorImage

structure Representation.Typed (f : Factory) (s : Store) (r : Representation) : Prop where
  typeExpr : r.typeExpr.Has f s (.power r.type)
  setConstructor : ∀ e, r.setConstructor = some e → e.Has f s (constructorType r.params r.type)
  constructors : ∀ c ∈ r.constructors, c.Typed f s r.type

namespace Representation

/-- A rendered instance is typed, if no datatype is left in the types that stand for its parts. -/
theorem Renders.typed {ds : List Datatype} {look : Instance → Option Ty} (h : r.Renders ds f s look)
    (hparams : ∀ p ∈ r.params, p.Plain) (hargs : ∀ c ∈ r.constructors, ∀ t ∈ c.argTypes, t.Plain) :
    r.Typed f s := by
  have htype : r.type.Plain := by
    obtain ⟨g, hg⟩ := h.type
    rw [hg]
    rfl
  refine ⟨h.typeExpr.has htype, fun e he => (h.setConstructor e he).has
    (plain_constructorType hparams htype), fun c hc => ?_⟩
  obtain ⟨c', -, hrenders⟩ := forall₂_exists_right h.constructors.flip hc
  refine ⟨hrenders.function.has (plain_constructorType (hargs c hc) htype), ?_⟩
  refine List.forall₂_iff_zip.2 ⟨hrenders.destructors.length_eq, fun {d t} hdt => ?_⟩
  have ht := hargs c hc t (List.of_mem_zip hdt).2
  exact ((List.forall₂_iff_zip.1 hrenders.destructors).2 hdt).has (TypeTree.plain_product htype ht)

theorem Typed.typingPlans (h : r.Typed f s) : ∀ k ∈ r.typingPlans, k.Typed f s := by
  unfold Representation.typingPlans
  split
  · rename_i set params hset hparams
    have htyped := h.setConstructor set hset
    rw [constructorType, hparams] at htyped
    refine List.forall_mem_singleton.2 (.member (by simp [BinaryOp.relationSets]) htyped ?_ (.made h.typeExpr))
    exact .type (TypeTree.plain_product_iff.1 htyped.plain).1
  · exact List.forall_mem_nil _

theorem Typed.valuePlans (h : r.Typed f s) : ∀ k ∈ r.valuePlans, k.Typed f s := by
  refine List.forall_mem_append.2 ⟨List.forall_mem_flatMap.2 fun c hc => ?_, ?_⟩
  · exact (h.constructors c hc).plans h.typeExpr
  · unfold partitionPlans
    split_ifs
    · exact nofun
    · refine List.forall_mem_singleton.2 (.partition (A := r.type) (List.cons_ne_nil _ _) ?_)
      refine List.forall_mem_cons.2 ⟨.made h.typeExpr, List.forall_mem_map.2 fun c hc => ?_⟩
      exact (h.constructors c hc).values h.typeExpr.plain

end Representation
end SetLang
