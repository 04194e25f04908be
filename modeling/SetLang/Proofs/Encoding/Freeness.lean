import SetLang.Proofs.Encoding.Reached
import SetLang.Proofs.Semantics.Build

/-! What the axioms say of constructors. In every interpretation that satisfies them, but for the two
about the set constructor, the values of a represented instance are freely generated: each is built by
one constructor of one tuple of arguments, which the destructors read back. -/

namespace SetLang

universe u

open ZFSet (pair prod)

variable {I : Interpretation.{u}} {s : Store} {c : ConstructorImage} {r : Representation}
  {f : Factory} {single : Bool} {whole v : ZFSet.{u}} {xs ys : List ZFSet.{u}}

noncomputable section

namespace ConstructorImage

def meaning (I : Interpretation.{u}) (s : Store) (c : ConstructorImage) : ZFSet.{u} :=
  c.function.value I s []

def build (I : Interpretation.{u}) (s : Store) (c : ConstructorImage) (xs : List ZFSet.{u}) :
    ZFSet.{u} :=
  match BinaryOp.maplet.combined? xs with
  | some x => Relation.apply (c.meaning I s) x
  | none => c.meaning I s

def Accepts (I : Interpretation.{u}) (c : ConstructorImage) (xs : List ZFSet.{u}) : Prop :=
  List.Forall₂ (fun x t => x ∈ Ty.values I t) xs c.argTypes

/-- What the expression for the values of a constructor denotes. -/
def range (I : Interpretation.{u}) (s : Store) (c : ConstructorImage) : ZFSet.{u} :=
  if c.hasArguments then Relation.ran (c.meaning I s) else {c.meaning I s}

end ConstructorImage

/-- What the axioms of a constructor say of sets that stand for it. -/
structure ConstructorImage.Obeys (I : Interpretation.{u}) (s : Store) (single : Bool)
    (whole : ZFSet.{u}) (c : ConstructorImage) (domain : Ty) : Prop where
  typing : c.meaning I s ∈
    (if single then BinaryOp.tbij else .tinj).value (domain.values I) whole
  destructors : List.Forall₂ (fun d t => Expr.value I s [] d ∈
    BinaryOp.tsur.value (c.range I s) (Ty.values I t)) c.destructors c.argTypes
  inverse : BinaryOp.dprod.combined? (c.destructors.map (Expr.value I s [])) =
    some (Relation.converse (c.meaning I s))

/-- What the axioms of a representation say, but for those about the set constructor. -/
structure Representation.Obeys (I : Interpretation.{u}) (s : Store) (r : Representation) : Prop where
  constructors : ∀ c ∈ r.constructors, ∀ domain, Ty.productOf? c.argTypes = some domain →
    c.Obeys I s r.isSingle (r.type.values I) domain
  partition : (r.isSingle && r.constructors.all (·.hasArguments)) = false →
    Partitions (r.type.values I :: r.constructors.map (ConstructorImage.range I s))

/-- The values of an instance are freely generated by its constructors. -/
structure Representation.FreelyGenerated (I : Interpretation.{u}) (s : Store) (r : Representation) :
    Prop where
  constructors : List.Forall₂ (fun (c : Constructor) image => image.argTypes.length =
    c.arguments.length ∧ image.destructors.length = c.arguments.length)
      r.source.datatype.constructors r.constructors
  function : ∀ c ∈ r.constructors, ∀ domain, Ty.productOf? c.argTypes = some domain →
    Relation.IsFunction (domain.values I) (r.type.values I) (c.meaning I s)
  total : ∀ c ∈ r.constructors, ∀ xs, c.Accepts I xs → c.build I s xs ∈ r.type.values I
  read : ∀ c ∈ r.constructors, ∀ xs : List ZFSet.{u}, c.Accepts I xs → ∀ (i : Nat) d x, c.destructors[i]? = some d →
    xs[i]? = some x → Relation.apply (d.value I s []) (c.build I s xs) = x
  distinct : ∀ (i j : Nat) c c' xs ys, r.constructors[i]? = some c → r.constructors[j]? = some c' →
    c.Accepts I xs → c'.Accepts I ys → c.build I s xs = c'.build I s ys → i = j ∧ xs = ys
  exhaustive : ∀ v ∈ r.type.values I, ∃ c ∈ r.constructors, ∃ xs, c.Accepts I xs ∧
    c.build I s xs = v

end

namespace ConstructorImage

/-- Arguments of a constructor with a domain are the tuples in it. -/
theorem mem_domain {domain : Ty} (hd : Ty.productOf? c.argTypes = some domain) :
    v ∈ domain.values I ↔ ∃ xs, c.Accepts I xs ∧ BinaryOp.maplet.combined? xs = some v := by
  have hcombined := Ty.values_productOf? (I := I) c.argTypes
  rw [hd, Option.map_some] at hcombined
  rw [BinaryOp.mem_combined_cprod hcombined.symm]
  simp only [List.forall₂_map_right_iff]
  rfl

namespace Obeys

variable {domain : Ty}

theorem isFunction (h : c.Obeys I s single whole domain) :
    Relation.IsFunction (domain.values I) whole (c.meaning I s) ∧
      Relation.Injective (c.meaning I s) := by
  have ht := h.typing
  split_ifs at ht
  · obtain ⟨hsub, htotal, hfun, hinj, -⟩ := mem_relations.1 ht
    exact ⟨⟨hsub, htotal, hfun⟩, hinj⟩
  · obtain ⟨hsub, htotal, hfun, hinj⟩ := mem_relations.1 ht
    exact ⟨⟨hsub, htotal, hfun⟩, hinj⟩

theorem onto (h : c.Obeys I s true whole domain) : Relation.Onto whole (c.meaning I s) :=
  (mem_relations.1 h.typing).2.2.2.2

theorem pair_build_mem (h : c.Obeys I s single whole domain)
    (hd : Ty.productOf? c.argTypes = some domain) (hxs : c.Accepts I xs) :
    ∃ x, BinaryOp.maplet.combined? xs = some x ∧ x ∈ domain.values I ∧
      pair x (c.build I s xs) ∈ c.meaning I s := by
  obtain ⟨x, hx⟩ : ∃ x, BinaryOp.maplet.combined? xs = some x := by
    cases xs with
    | nil =>
      rw [List.forall₂_nil_left_iff.1 hxs] at hd
      cases hd
    | cons x xs => exact ⟨_, rfl⟩
  have hmem : x ∈ domain.values I := (mem_domain hd).2 ⟨xs, hxs, hx⟩
  refine ⟨x, hx, hmem, ?_⟩
  unfold build
  rw [hx]
  exact h.isFunction.1.pair_apply_mem hmem

/-- The destructors read the arguments back. -/
theorem read (h : c.Obeys I s single whole domain) (hc : c.destructors.length = c.argTypes.length)
    (hd : Ty.productOf? c.argTypes = some domain) (hxs : c.Accepts I xs) {i : Nat} {d : Expr}
    {x : ZFSet.{u}} (hi : c.destructors[i]? = some d) (hx : xs[i]? = some x) :
    Relation.apply (d.value I s []) (c.build I s xs) = x := by
  obtain ⟨y, hy, -, hpair⟩ := h.pair_build_mem hd hxs
  have hlen : xs.length = (c.destructors.map (Expr.value I s [])).length := by
    rw [List.length_map, hc]
    exact hxs.length_eq
  have hread := (BinaryOp.pair_mem_combined_dprod h.inverse hy hlen).1
    (Relation.pair_mem_converse.2 hpair)
  rw [List.forall₂_map_right_iff] at hread
  have hmem := forall₂_getElem? hread hx hi
  obtain ⟨t, ht⟩ : ∃ t, c.argTypes[i]? = some t := by
    refine ⟨_, List.getElem?_eq_getElem ?_⟩
    rw [← hc]
    exact (List.getElem?_eq_some_iff.1 hi).1
  exact Relation.Functional.apply_eq (mem_relations.1 (forall₂_getElem? h.destructors hi ht)).2.2.1 hmem

/-- Only the same arguments build the same value. -/
theorem build_inj (h : c.Obeys I s single whole domain)
    (hd : Ty.productOf? c.argTypes = some domain) (hxs : c.Accepts I xs) (hys : c.Accepts I ys)
    (heq : c.build I s xs = c.build I s ys) : xs = ys := by
  obtain ⟨x, hx, -, hpair⟩ := h.pair_build_mem hd hxs
  obtain ⟨y, hy, -, hpair'⟩ := h.pair_build_mem hd hys
  obtain rfl := h.isFunction.2 _ _ _ (heq ▸ hpair) hpair'
  exact BinaryOp.combined_maplet_inj (hxs.length_eq.trans hys.length_eq.symm) (hx.trans hy.symm)

end Obeys

/-- The expression for the values of a constructor denotes all that it builds. -/
theorem mem_range (h : ∀ domain, Ty.productOf? c.argTypes = some domain →
    c.Obeys I s single whole domain) :
    v ∈ c.range I s ↔ ∃ xs, c.Accepts I xs ∧ c.build I s xs = v := by
  unfold range
  cases hc : c.hasArguments with
  | true =>
    obtain ⟨domain, hd⟩ := hasArguments_iff.1 hc
    rw [if_pos rfl, (h domain hd).isFunction.1.mem_ran]
    constructor
    · rintro ⟨x, hx, rfl⟩
      obtain ⟨xs, hxs, htuple⟩ := (mem_domain hd).1 hx
      exact ⟨xs, hxs, by rw [build, htuple]⟩
    · rintro ⟨xs, hxs, rfl⟩
      obtain ⟨x, hx, hmem, -⟩ := (h domain hd).pair_build_mem hd hxs
      exact ⟨x, hmem, by rw [build, hx]⟩
  | false =>
    have hnone : c.argTypes = [] := by simpa [hasArguments] using hc
    simp only [Bool.false_eq_true, if_false, ZFSet.mem_singleton, Accepts, hnone,
      List.forall₂_nil_right_iff, exists_eq_left]
    exact eq_comm

end ConstructorImage

namespace Representation

/-- Only a single constructor comes without the axiom that the values are partitioned. -/
theorem isSingle_eq_true (h : r.isSingle = true) : ∃ c, r.constructors = [c] :=
  List.length_eq_one_iff.1 (beq_iff_eq.1 h)

/-- The values of a represented instance are those that some constructor builds. -/
theorem Obeys.mem_values (h : r.Obeys I s) :
    v ∈ r.type.values I ↔ ∃ c ∈ r.constructors, v ∈ c.range I s := by
  -- without a partition the only constructor is a bijection onto the type
  cases hp : r.isSingle && r.constructors.all (·.hasArguments) with
  | false =>
    have hmem := (h.partition hp).1 v
    simpa using hmem
  | true =>
    rw [Bool.and_eq_true] at hp
    obtain ⟨c, hc⟩ := isSingle_eq_true hp.1
    have hmem : c ∈ r.constructors := hc ▸ List.mem_singleton_self c
    have hargs : c.hasArguments = true := by simpa [hc] using hp.2
    obtain ⟨domain, hd⟩ := ConstructorImage.hasArguments_iff.1 hargs
    have hobeys := h.constructors c hmem domain hd
    rw [hp.1] at hobeys
    rw [hc]
    simp only [List.mem_singleton, exists_eq_left, ConstructorImage.range, hargs, if_true]
    rw [Relation.mem_ran]
    refine ⟨hobeys.onto v, ?_⟩
    rintro ⟨x, hx⟩
    exact (ZFSet.pair_mem_prod.1 (hobeys.isFunction.1.between hx)).2

/-- What different constructors build is different. -/
theorem Obeys.index_eq (h : r.Obeys I s) {i j : Nat} {c c' : ConstructorImage}
    (hi : r.constructors[i]? = some c) (hj : r.constructors[j]? = some c')
    (hv : v ∈ c.range I s) (hv' : v ∈ c'.range I s) : i = j := by
  obtain ⟨hi', rfl⟩ := List.getElem?_eq_some_iff.1 hi
  obtain ⟨hj', rfl⟩ := List.getElem?_eq_some_iff.1 hj
  cases hp : r.isSingle && r.constructors.all (·.hasArguments) with
  | true =>
    have hlen : r.constructors.length = 1 := beq_iff_eq.1 (Bool.and_eq_true_iff.1 hp).1
    omega
  | false =>
    have hpairwise := List.pairwise_map.1 (h.partition hp).2
    rw [List.pairwise_iff_getElem] at hpairwise
    rcases Nat.lt_trichotomy i j with hlt | heq | hlt
    · exact absurd hv' (hpairwise i j hi' hj' hlt v hv)
    · exact heq
    · exact absurd hv (hpairwise j i hj' hi' hlt v hv')

theorem Obeys.freelyGenerated (h : r.Obeys I s) (hr : r.Complete) : r.FreelyGenerated I s := by
  have hrange : ∀ c ∈ r.constructors, ∀ v, v ∈ c.range I s ↔
      ∃ xs, c.Accepts I xs ∧ c.build I s xs = v :=
    fun c hc _ => ConstructorImage.mem_range (h.constructors c hc)
  have hlengths : ∀ c ∈ r.constructors, c.destructors.length = c.argTypes.length := fun c hc => by
    obtain ⟨_, hcomplete⟩ := hr.image hc
    exact hcomplete.destructors
  refine ⟨hr.constructors.imp fun c image himage => ?_, fun c hc domain hd => ?_,
    fun c hc xs hxs => ?_, fun c hc xs hxs i d x hi hx => ?_, ?_, fun v hv => ?_⟩
  · exact ⟨himage.arguments, himage.destructors.trans himage.arguments⟩
  · exact (h.constructors c hc domain hd).isFunction.1
  · exact h.mem_values.2 ⟨c, hc, (hrange c hc _).2 ⟨xs, hxs, rfl⟩⟩
  · cases hargs : c.hasArguments with
    | true =>
      obtain ⟨domain, hd⟩ := ConstructorImage.hasArguments_iff.1 hargs
      exact (h.constructors c hc domain hd).read (hlengths c hc) hd hxs hi hx
    | false =>
      have hnone : c.argTypes = [] := by simpa [ConstructorImage.hasArguments] using hargs
      have hlen := hlengths c hc
      rw [hnone, List.length_nil, List.length_eq_zero_iff] at hlen
      rw [hlen] at hi
      cases hi
  · intro i j c c' xs ys hi hj hxs hys heq
    have hc := List.mem_of_getElem? hi
    obtain rfl := h.index_eq hi hj ((hrange c hc _).2 ⟨xs, hxs, rfl⟩)
      ((hrange c' (List.mem_of_getElem? hj) _).2 ⟨ys, hys, heq.symm⟩)
    obtain rfl := Option.some_inj.1 (hi.symm.trans hj)
    refine ⟨rfl, ?_⟩
    cases hargs : c.hasArguments with
    | true =>
      obtain ⟨domain, hd⟩ := ConstructorImage.hasArguments_iff.1 hargs
      exact (h.constructors c hc domain hd).build_inj hd hxs hys heq
    | false =>
      have hnone : c.argTypes = [] := by simpa [ConstructorImage.hasArguments] using hargs
      rw [ConstructorImage.Accepts, hnone, List.forall₂_nil_right_iff] at hxs hys
      exact hxs.trans hys.symm
  · obtain ⟨c, hc, hv⟩ := h.mem_values.1 hv
    exact ⟨c, hc, (hrange c hc v).1 hv⟩

end Representation

/-! The axioms are planned to say just that. -/

namespace ConstructorImage

theorem value_valuesPlan : c.valuesPlan.value I s [] = c.range I s := by
  unfold valuesPlan range
  split_ifs <;> rfl

theorem holds_plans (e : Expr) (hlen : c.destructors.length = c.argTypes.length) :
    (∀ k ∈ c.plans single e, k.Holds I s []) ↔ ∀ domain, Ty.productOf? c.argTypes = some domain →
      c.Obeys I s single (e.value I s []) domain := by
  unfold plans
  cases hd : Ty.productOf? c.argTypes with
  | none => simp
  | some domain =>
    obtain ⟨product, hproduct⟩ : ∃ product, Expr.Plan.combined? .dprod c.destructors = some product := by
      cases hdestructors : c.destructors with
      | nil =>
        rw [hdestructors, List.length_nil, eq_comm, List.length_eq_zero_iff] at hlen
        rw [hlen] at hd
        cases hd
      | cons d ds => exact ⟨_, rfl⟩
    have hcombined : some (product.value I s []) =
        BinaryOp.dprod.combined? (c.destructors.map (Expr.value I s [])) := by
      rw [← Expr.Plan.value_combined?, hproduct, Option.map_some]
    have hdestructors : (∀ x ∈ c.destructors.zip c.argTypes,
        (Pred.Plan.member x.1 .tsur c.valuesPlan (.type x.2)).Holds I s []) ↔
          List.Forall₂ (fun d t => d.value I s [] ∈ BinaryOp.tsur.value (c.range I s) (Ty.values I t)) c.destructors
            c.argTypes := by
      simp only [Pred.Plan.member, Pred.Plan.Holds, Expr.Plan.value, value_valuesPlan, Prod.forall]
      exact ⟨fun h => List.forall₂_iff_zip.2 ⟨hlen, h _ _⟩, fun h _ _ => (List.forall₂_iff_zip.1 h).2⟩
    have hinverse : (Pred.Plan.comparison .eq product (.unary .converse (.made c.function))).Holds I s [] ↔
        BinaryOp.dprod.combined? (c.destructors.map (Expr.value I s [])) =
          some (Relation.converse (c.meaning I s)) := by
      rw [← hcombined, Option.some_inj]
      rfl
    rw [hproduct, Option.toList_some, List.map_singleton, List.forall_mem_append, List.forall_mem_cons,
      List.forall_mem_map, List.forall_mem_singleton, hdestructors, hinverse]
    simp only [Option.some_inj, forall_eq']
    exact ⟨fun h => ⟨h.1.1, h.1.2, h.2⟩, fun h => ⟨⟨h.typing, h.destructors⟩, h.inverse⟩⟩

end ConstructorImage

namespace Representation

theorem holds_partitionPlans : (∀ k ∈ r.partitionPlans, k.Holds I s []) ↔
    ((r.isSingle && r.constructors.all (·.hasArguments)) = false →
      Partitions (r.typeExpr.value I s [] :: r.constructors.map (ConstructorImage.range I s))) := by
  unfold partitionPlans
  split_ifs with hsingle
  · simp [hsingle]
  · have hvalues : (r.constructors.map (·.valuesPlan)).map (Expr.Plan.value I s []) =
        r.constructors.map (ConstructorImage.range I s) := by
      simp [ConstructorImage.value_valuesPlan]
    rw [List.forall_mem_singleton, Pred.Plan.Holds, List.map_cons, hvalues]
    exact ⟨fun h _ => h, fun h => h (Bool.eq_false_iff.2 hsingle)⟩

theorem holds_valuePlans (hr : r.Complete) (htype : r.typeExpr.value I s [] = r.type.values I) :
    (∀ k ∈ r.valuePlans, k.Holds I s []) ↔ r.Obeys I s := by
  have hconstructors : ∀ c ∈ r.constructors, (∀ k ∈ c.plans r.isSingle r.typeExpr, k.Holds I s []) ↔
      ∀ domain, Ty.productOf? c.argTypes = some domain → c.Obeys I s r.isSingle (r.type.values I) domain := by
    intro c hc
    obtain ⟨_, hcomplete⟩ := hr.image hc
    rw [ConstructorImage.holds_plans _ hcomplete.destructors, htype]
  rw [valuePlans, List.forall_mem_append, List.forall_mem_flatMap, holds_partitionPlans, htype]
  exact ⟨fun h => ⟨fun c hc => (hconstructors c hc).1 (h.1 c hc), h.2⟩,
    fun h => ⟨fun c hc => (hconstructors c hc).2 (h.constructors c hc), h.partition⟩⟩

end Representation

namespace Representation

/-- The axioms but for the two about the set constructor, which are the first and the last if there is
one. -/
def valueAxioms (r : Representation) (axioms : List Pred) : List Pred :=
  if r.setConstructor.isSome then axioms.tail.dropLast else axioms

/-- The given types in the type of an instance and in the argument types of its constructors stand for
their whole carriers. -/
def Whole (I : Interpretation.{u}) (r : Representation) : Prop :=
  I.Whole r.type ∧ ∀ c ∈ r.constructors, ∀ t ∈ c.argTypes, I.Whole t

theorem length_typingPlans (hr : r.Complete) : r.typingPlans.length = r.setConstructor.toList.length := by
  unfold typingPlans
  cases hset : r.setConstructor with
  | none => rfl
  | some set =>
    have hargs : r.source.args ≠ [] := by
      have hsets := hr.sets
      rw [hset] at hsets
      rintro hnil
      simp [hnil] at hsets
    cases hparams : r.params with
    | nil =>
      have hlen := hr.params
      rw [hparams] at hlen
      exact absurd (List.length_eq_zero_iff.1 hlen.symm) hargs
    | cons p ps => rfl

theorem yields_setConstructorDefinition (S : EncodingState) :
    Yields r.setConstructorDefinition S fun ps _ => ps.length = r.setConstructor.toList.length := by
  unfold setConstructorDefinition
  cases r.setConstructor with
  | none => exact Yields.pure rfl
  | some set =>
    exact Yields.bind_any fun _ _ => Yields.pure rfl

theorem valueAxioms_eq {typing axioms definition : List Pred}
    (ht : typing.length = r.setConstructor.toList.length)
    (hd : definition.length = r.setConstructor.toList.length) :
    r.valueAxioms (typing ++ axioms ++ definition) = axioms := by
  unfold valueAxioms
  cases hset : r.setConstructor with
  | none =>
    rw [hset] at ht hd
    simp [List.length_eq_zero_iff.1 ht, List.length_eq_zero_iff.1 hd]
  | some set =>
    rw [hset] at ht hd
    obtain ⟨p, rfl⟩ := List.length_eq_one_iff.1 ht
    obtain ⟨q, rfl⟩ := List.length_eq_one_iff.1 hd
    simp

/-- The axioms hold, but for those about the set constructor, just where what they say is the case. -/
theorem yields_axioms (hr : r.Complete) (S : EncodingState) :
    Yields r.axioms S fun ps _ => ∀ (I : Interpretation.{u}) s, r.Whole I →
      ((∀ p ∈ r.valueAxioms ps, p.Holds I s []) ↔ r.Obeys I s) := by
  have hplain : ∀ k ∈ r.valuePlans, k.All (fun _ => True) TypeTree.Plain :=
    all_valuePlans (fun _ _ ha hb => List.append_eq_nil_iff.2 ⟨ha, hb⟩) (fun _ _ => trivial) fun c hc =>
      (hr.image hc).elim fun _ h => h.plain
  rw [axioms_eq]
  refine Yields.bind_any fun f S₁ => ?_
  refine (Encode.yields_liftM (Q := fun ps _ => List.Forall₂ (fun _ _ => True) r.typingPlans ps)
    (Yields.mapM fun _ _ _ _ _ _ => trivial)).bind fun typing S₂ ht => ?_
  refine (Encode.yields_liftM (Yields.mapM fun k hk t => k.yields_holds.{u} t (hplain k hk))).bind
    fun values S₃ hvalues => ?_
  refine (yields_setConstructorDefinition S₃).bind fun definition S₄ hd => Yields.pure fun I s hI => ?_
  rw [valueAxioms_eq (ht.length_eq.symm.trans (length_typingPlans hr)) hd]
  have htype : r.typeExpr.value I s [] = r.type.values I := by
    obtain ⟨g, n, hg, he⟩ := hr.type
    rw [he, Expr.value, hg]
    exact hI.1 g (hg ▸ List.mem_cons_self)
  rw [← holds_valuePlans hr htype]
  have hwhole : ∀ k ∈ r.valuePlans, k.All (fun _ => True) I.Whole :=
    all_valuePlans (fun _ _ => .of_product) (fun _ _ => trivial) hI.2
  have hiff := (List.forall₂_and_left _ _).2 ⟨hwhole, hvalues⟩
  refine ⟨fun h k hk => ?_, fun h p hp => ?_⟩
  · obtain ⟨p, hp, hk, hholds⟩ := forall₂_exists_right hiff hk
    exact (hholds I s [] hk).1 (h p hp)
  · obtain ⟨k, hk, hwhole, hholds⟩ := forall₂_exists_right hiff.flip hp
    exact (hholds I s [] hwhole).2 (h k hk)

end Representation

/-- In every state of an encoding, the axioms of a representation but for the two about its set
constructor make its values freely generated by its constructors, in every interpretation where given
types stand for their whole carriers. -/
theorem EncodingState.Reached.freelyGenerated_of_axioms {source : Factory} {S S' : EncodingState}
    {held : Set Formula} {axioms : List Pred} (h : Reached source S held)
    (hr : r ∈ S.encoding.representations) (hrun : r.axioms.run S = (.ok axioms, S'))
    (hI : r.Whole I) (hax : ∀ p ∈ r.valueAxioms axioms, p.Holds I S'.store []) :
    r.FreelyGenerated I S'.store := by
  have hcomplete := h.sound.1.complete r hr
  have hiff := Representation.yields_axioms.{u} hcomplete S axioms S' hrun I S'.store hI
  exact (hiff.1 hax).freelyGenerated hcomplete

/-- A datatype with a value, and with a constructor that takes a truth value. -/
def switch : Datatype := ⟨"Switch", [], [⟨"off", []⟩, ⟨"on", [⟨some "level", .boolean⟩]⟩]⟩

namespace Switch

def draft : LanguageDraft :=
  (LanguageDraft.registerDatatype { LanguageDraft.core with grammar := .empty } switch).1

def source : Factory := ⟨⟨.v2, draft.extensions, draft.datatypes, ⟨[], [], [], []⟩⟩, 0⟩

def target : Factory := ⟨source.withoutDatatypes, 0⟩

def start : EncodingState := ⟨⟨#[], #[], 1⟩, ⟨source, target, .empty, [], .empty, []⟩⟩

def state : EncodingState := ((do
  return (← Encode.representation ⟨switch, []⟩).exprs.map .expr : Encode (List Formula)).run start).2

def off : ConstructorImage := ⟨.free ⟨target, 1⟩ "off" (some (.given "Switch")), [], []⟩

def on : ConstructorImage :=
  ⟨.free ⟨target, 3⟩ "on" (some (.relation .boolean (.given "Switch"))), [.boolean],
    [.free ⟨target, 2⟩ "level" (some (.relation (.given "Switch") .boolean))]⟩

def representation : Representation where
  source := ⟨switch, []⟩
  params := []
  type := .given "Switch"
  typeExpr := .free ⟨target, 0⟩ "Switch" (some (Ty.givenSet "Switch"))
  setConstructor := none
  constructors := [off, on]

theorem reached : ∃ held, EncodingState.Reached source state held ∧
    representation ∈ state.encoding.representations := by
  have hdraft : draft.Drafted := .datatype (.grammar .empty (.core .v2)) rfl
  have hstart : EncodingState.Reached source start ∅ := .start ⟨draft, hdraft, rfl⟩ .empty
    (rfl : (Build.encoding source .empty).run .empty = (.ok start.encoding, start.store))
  exact ⟨_, hstart.step (.encode (.representation ⟨switch, []⟩)), List.mem_singleton.2 rfl⟩

theorem mem_constructors {c : ConstructorImage} :
    c ∈ representation.constructors ↔ c = off ∨ c = on := List.mem_pair

theorem axioms_run : ∃ axioms S', representation.axioms.run state = (.ok axioms, S') := by
  have hok : (representation.axioms.run state).1.isOk = true := by decide +kernel
  rcases hrun : representation.axioms.run state with ⟨_ | axioms, S'⟩
  · rw [hrun] at hok
    cases hok
  · exact ⟨axioms, S', rfl⟩

noncomputable section

def diagonal : ZFSet.{0} := (prod Bit.both Bit.both).sep fun p => ∃ x, p = pair x x

def values : ZFSet.{0} := Bit.both ∪ {{Bit.truth}}

def interpretation : Interpretation.{0} where
  carrier _ := values
  instances _ := ∅
  ident x := if x = "Switch" then values else if x = "off" then {Bit.truth} else diagonal
  operation _ _ _ := ∅
  relation _ _ _ := False

theorem mem_diagonal {z : ZFSet.{0}} : z ∈ diagonal ↔ ∃ x ∈ Bit.both, z = pair x x := by
  rw [diagonal, ZFSet.mem_sep]
  constructor
  · rintro ⟨h, x, rfl⟩
    exact ⟨x, (ZFSet.pair_mem_prod.1 h).1, rfl⟩
  · rintro ⟨x, hx, rfl⟩
    exact ⟨ZFSet.pair_mem_prod.2 ⟨hx, hx⟩, x, rfl⟩

theorem pair_mem_diagonal {x y : ZFSet.{0}} : pair x y ∈ diagonal ↔ x ∈ Bit.both ∧ y = x := by
  rw [mem_diagonal]
  constructor
  · rintro ⟨z, hz, heq⟩
    obtain ⟨rfl, rfl⟩ := ZFSet.pair_inj.1 heq
    exact ⟨hz, rfl⟩
  · rintro ⟨hx, rfl⟩
    exact ⟨y, hx, rfl⟩

theorem ran_diagonal : Relation.ran diagonal = Bit.both := by
  ext y
  rw [Relation.mem_ran]
  constructor
  · rintro ⟨x, h⟩
    obtain ⟨hx, rfl⟩ := pair_mem_diagonal.1 h
    exact hx
  · exact fun hy => ⟨y, pair_mem_diagonal.2 ⟨hy, rfl⟩⟩

theorem converse_diagonal : Relation.converse diagonal = diagonal := by
  ext z
  rw [Relation.mem_converse, mem_diagonal]
  constructor
  · rintro ⟨x, y, rfl, h⟩
    obtain ⟨hx, rfl⟩ := pair_mem_diagonal.1 h
    exact ⟨y, hx, rfl⟩
  · rintro ⟨x, hx, rfl⟩
    exact ⟨x, x, rfl, pair_mem_diagonal.2 ⟨hx, rfl⟩⟩

theorem off_notMem_both : ({Bit.truth} : ZFSet.{0}) ∉ Bit.both := by
  have htruth : (∅ : ZFSet.{0}) ∈ Bit.truth := ZFSet.mem_singleton.2 rfl
  intro h
  rcases ZFSet.mem_pair.1 h with h | h
  · have hmem : Bit.truth ∈ ({Bit.truth} : ZFSet.{0}) := ZFSet.mem_singleton.2 rfl
    exact ZFSet.notMem_empty Bit.truth (h ▸ hmem : Bit.truth ∈ Bit.falsity.{0})
  · rw [ZFSet.singleton_inj.1 h] at htruth
    exact ZFSet.notMem_empty ∅ htruth

theorem meaning_off (s : Store) : off.meaning interpretation s = {Bit.truth} := by
  rw [ConstructorImage.meaning, off, Expr.value]
  rfl

theorem meaning_on (s : Store) : on.meaning interpretation s = diagonal := by
  rw [ConstructorImage.meaning, on, Expr.value]
  rfl

theorem range_off (s : Store) : off.range interpretation s = {{Bit.truth}} := by
  rw [ConstructorImage.range, meaning_off]
  rfl

theorem range_on (s : Store) : on.range interpretation s = Bit.both := by
  rw [ConstructorImage.range, meaning_on, ran_diagonal]
  rfl

theorem obeys_on (s : Store) : on.Obeys interpretation s false values .boolean := by
  have hsub : diagonal ⊆ prod Bit.both Bit.both := fun _ h => (ZFSet.mem_sep.1 h).1
  have htotal : Relation.Total Bit.both diagonal := fun x hx => ⟨x, pair_mem_diagonal.2 ⟨hx, rfl⟩⟩
  have hfunctional : Relation.Functional diagonal := fun x y z hy hz =>
    (pair_mem_diagonal.1 hy).2.trans (pair_mem_diagonal.1 hz).2.symm
  refine ⟨?_, .cons ?_ .nil, ?_⟩
  · rw [meaning_on]
    refine mem_relations.2 ⟨fun z hz => ?_, htotal, hfunctional, fun x y z hx hy => ?_⟩
    · obtain ⟨x, hx, y, hy, rfl⟩ := ZFSet.mem_prod.1 (hsub hz)
      exact ZFSet.pair_mem_prod.2 ⟨hx, ZFSet.mem_union.2 (.inl hy)⟩
    · exact (pair_mem_diagonal.1 hx).2.symm.trans (pair_mem_diagonal.1 hy).2
  · rw [range_on, Expr.value]
    exact mem_relations.2 ⟨hsub, htotal, hfunctional, fun y hy => ⟨y, pair_mem_diagonal.2 ⟨hy, rfl⟩⟩⟩
  · rw [meaning_on, converse_diagonal, on, List.map_singleton, Expr.value]
    rfl

theorem obeys (s : Store) : representation.Obeys interpretation s := by
  refine ⟨fun c hc domain hd => ?_, fun _ => ?_⟩
  · rcases mem_constructors.1 hc with rfl | rfl
    · cases hd
    · obtain rfl := Option.some_inj.1 hd
      exact obeys_on s
  · change Partitions [values, off.range interpretation s, on.range interpretation s]
    rw [range_off, range_on]
    refine ⟨fun z => ?_, by simpa [List.pairwise_cons] using off_notMem_both⟩
    simp [values, or_comm]

end

/-- The values of a switch are freely generated. -/
theorem values_freelyGenerated : ∃ held axioms S', EncodingState.Reached source state held ∧
    representation.axioms.run state = (.ok axioms, S') ∧
    (∀ p ∈ representation.valueAxioms axioms, p.Holds interpretation S'.store []) ∧
    representation.FreelyGenerated interpretation S'.store := by
  obtain ⟨held, hreached, hmem⟩ := reached
  obtain ⟨axioms, S', hrun⟩ := axioms_run
  have hwhole : representation.Whole interpretation := by
    refine ⟨fun g hg => ?_, fun c hc t ht g hg => ?_⟩
    · obtain rfl := List.mem_singleton.1 hg
      rfl
    · rcases mem_constructors.1 hc with rfl | rfl
      · cases ht
      · obtain rfl := List.mem_singleton.1 ht
        cases hg
  have hax := (Representation.yields_axioms.{0} (hreached.sound.1.complete _ hmem) state axioms S' hrun
    interpretation S'.store hwhole).2 (obeys _)
  exact ⟨held, axioms, S', hreached, hrun, hax, hreached.freelyGenerated_of_axioms hmem hrun hwhole hax⟩

end Switch
end SetLang
