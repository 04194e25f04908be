import SetLang.Proofs.Encoding.Sound

/-! Plans of axioms. The axioms of a representation, but for the definition of the set constructor, can be listed
before anything is built, and are built from this list one after the other. So what holds of an axiom is shown by
induction on its plan. -/

namespace SetLang

variable {f : Factory} {single : Bool} {whole : Expr} {c : ConstructorImage} {r : Representation} {P : Expr → Prop}
  {Q : Ty → Prop}

/-- An expression that is to be built of expressions that are there and of the expressions of types. -/
inductive Expr.Plan
  | made (e : Expr)
  | type (t : Ty)
  | unary (op : UnaryOp) (a : Plan)
  | binary (op : BinaryOp) (a b : Plan)
  | singleton (a : Plan)

inductive Pred.Plan
  | comparison (op : Comparison) (a b : Expr.Plan)
  | partition (es : List Expr.Plan)

namespace Expr.Plan

def build (f : Factory) : Plan → Build Expr
  | made e => return e
  | type t => f.typeExpr t
  | unary op a => do f.unary op (← a.build f)
  | binary op a b => do f.binary op (← a.build f) (← b.build f)
  | singleton a => do f.singleton (← a.build f)

/-- What holds of the expressions that are there and of the types. -/
def All (P : Expr → Prop) (Q : Ty → Prop) : Plan → Prop
  | made e => P e
  | type t => Q t
  | unary _ a => a.All P Q
  | binary _ a b => a.All P Q ∧ b.All P Q
  | singleton a => a.All P Q

def foldl (op : BinaryOp) (a : Plan) (es : List Expr) : Plan := es.foldl (fun a e => .binary op a (.made e)) a

def combined? (op : BinaryOp) : List Expr → Option Plan
  | [] => none
  | e :: es => some (foldl op (.made e) es)

/-- An image, which is the relation itself without sets. -/
def image (relation : Expr) (sets : List Expr) : Plan :=
  match combined? .cprod sets with
  | some product => .binary .relImage (.made relation) product
  | none => .made relation

theorem build_foldl (op : BinaryOp) (a : Plan) (es : List Expr) :
    (foldl op a es).build f = a.build f >>= fun e => es.foldlM (f.binary op) e := by
  induction es generalizing a with
  | nil => exact (bind_pure _).symm
  | cons b es ih =>
    refine (ih (.binary op a (.made b))).trans ?_
    simp [build, List.foldlM_cons]

theorem build_combined? (op : BinaryOp) (es : List Expr) :
    f.combine? op es = (combined? op es).mapM (·.build f) := by
  cases es with
  | nil => rfl
  | cons e es => simp [combined?, Factory.combine?, build_foldl, build]

theorem build_image (relation : Expr) (sets : List Expr) :
    f.image relation sets = (image relation sets).build f := by
  unfold Factory.image image
  rw [build_combined?]
  cases combined? .cprod sets with
  | none => simp [build]
  | some product => simp [build]

theorem All.imp {P' : Expr → Prop} {Q' : Ty → Prop} (hP : ∀ e, P e → P' e) (hQ : ∀ t, Q t → Q' t) {k : Plan}
    (h : k.All P Q) : k.All P' Q' := by
  induction k with
  | made e => exact hP e h
  | type t => exact hQ t h
  | unary _ _ ih => exact ih h
  | binary _ _ _ iha ihb => exact ⟨iha h.1, ihb h.2⟩
  | singleton _ ih => exact ih h

theorem all_foldl {op : BinaryOp} {a : Plan} {es : List Expr} (ha : a.All P Q) (hes : ∀ e ∈ es, P e) :
    (foldl op a es).All P Q := by
  induction es generalizing a with
  | nil => exact ha
  | cons b es ih =>
    rw [List.forall_mem_cons] at hes
    exact ih ⟨ha, hes.1⟩ hes.2

theorem all_combined? {op : BinaryOp} {es : List Expr} (hes : ∀ e ∈ es, P e) :
    ∀ p ∈ combined? op es, p.All P Q := by
  cases es with
  | nil => exact nofun
  | cons e es =>
    rw [List.forall_mem_cons] at hes
    rintro _ ⟨⟩
    exact all_foldl hes.1 hes.2

theorem all_image {relation : Expr} {sets : List Expr} (hrelation : P relation) (hsets : ∀ e ∈ sets, P e) :
    (image relation sets).All P Q := by
  unfold image
  cases h : combined? .cprod sets with
  | none => exact hrelation
  | some product => exact ⟨hrelation, all_combined? hsets product h⟩

end Expr.Plan

namespace Pred.Plan

def build (f : Factory) : Plan → Build Pred
  | comparison op a b => do f.comparison op (← a.build f) (← b.build f)
  | partition es => do f.partition (← es.mapM (·.build f))

def All (P : Expr → Prop) (Q : Ty → Prop) : Plan → Prop
  | comparison _ a b => a.All P Q ∧ b.All P Q
  | partition es => ∀ e ∈ es, e.All P Q

theorem All.imp {P' : Expr → Prop} {Q' : Ty → Prop} (hP : ∀ e, P e → P' e) (hQ : ∀ t, Q t → Q' t) {k : Plan}
    (h : k.All P Q) : k.All P' Q' := by
  cases k with
  | comparison _ a b => exact ⟨h.1.imp hP hQ, h.2.imp hP hQ⟩
  | partition es => exact fun e he => (h e he).imp hP hQ

/-- That an expression is among the relations of a kind between two sets. -/
def member (element : Expr) (op : BinaryOp) (domain range : Expr.Plan) : Plan :=
  comparison .mem (.made element) (.binary op domain range)

theorem build_member (element : Expr) (op : BinaryOp) (domain range : Expr.Plan) :
    (member element op domain range).build f = (do
      f.member element op (← domain.build f) (← range.build f)) := by
  simp [member, build, Expr.Plan.build, Factory.member]

end Pred.Plan

namespace ConstructorImage

/-- Constructors with arguments have a domain. -/
theorem hasArguments_iff : c.hasArguments = true ↔ ∃ domain, Ty.productOf? c.argTypes = some domain := by
  unfold hasArguments
  cases c.argTypes <;> simp [Ty.productOf?]

def valuesPlan (c : ConstructorImage) : Expr.Plan :=
  if c.hasArguments then .unary .ran (.made c.function) else .singleton (.made c.function)

def plans (single : Bool) (whole : Expr) (c : ConstructorImage) : List Pred.Plan :=
  match Ty.productOf? c.argTypes with
  | none => []
  | some domain =>
    .member c.function (if single then .tbij else .tinj) (.type domain) (.made whole) ::
      (c.destructors.zip c.argTypes).map (fun x => .member x.1 .tsur c.valuesPlan (.type x.2)) ++
      (Expr.Plan.combined? .dprod c.destructors).toList.map fun product =>
        .comparison .eq product (.unary .converse (.made c.function))

theorem build_values (c : ConstructorImage) : c.values f = c.valuesPlan.build f := by
  unfold values valuesPlan
  split_ifs <;> simp [Expr.Plan.build]

theorem build_plans (single : Bool) (whole : Expr) (c : ConstructorImage) :
    c.axioms f single whole = (c.plans single whole).mapM (·.build f) := by
  unfold axioms plans
  cases Ty.productOf? c.argTypes with
  | none => rfl
  | some domain =>
    dsimp only
    have hdestructors : ((c.destructors.zip c.argTypes).map fun x : Expr × Ty =>
        Pred.Plan.member x.1 .tsur c.valuesPlan (.type x.2)).mapM (·.build f) =
        (c.destructors.zip c.argTypes).mapM fun x => (do
          f.member x.1 .tsur (← c.values f) (← f.typeExpr x.2)) := by
      rw [List.mapM_map]
      congr 1
      funext x
      exact (Pred.Plan.build_member _ _ _ _).trans (by rw [build_values]; rfl)
    simp only [List.cons_append, List.mapM_cons, List.mapM_append, hdestructors, Pred.Plan.build_member,
      Expr.Plan.build_combined?]
    cases Expr.Plan.combined? .dprod c.destructors with
    | none => simp [Expr.Plan.build]
    | some product => simp [Expr.Plan.build, Pred.Plan.build]

theorem all_valuesPlan (hc : P c.function) : c.valuesPlan.All P Q := by
  unfold valuesPlan
  split_ifs <;> exact hc

theorem all_plans (hQ : ∀ a b, Q a → Q b → Q (.product a b)) (hc : ∀ e ∈ c.function :: c.destructors, P e)
    (hwhole : P whole) (hargs : ∀ t ∈ c.argTypes, Q t) : ∀ k ∈ c.plans single whole, k.All P Q := by
  rw [List.forall_mem_cons] at hc
  unfold plans
  cases hd : Ty.productOf? c.argTypes with
  | none => exact nofun
  | some domain =>
    refine List.forall_mem_append.2 ⟨List.forall_mem_cons.2 ⟨?_, List.forall_mem_map.2 fun x hx => ?_⟩,
      List.forall_mem_map.2 fun product hproduct => ?_⟩
    · exact ⟨hc.1, Ty.of_productOf? hQ hd hargs, hwhole⟩
    · obtain ⟨hd, ht⟩ := List.of_mem_zip hx
      exact ⟨hc.2 _ hd, all_valuesPlan hc.1, hargs _ ht⟩
    · exact ⟨Expr.Plan.all_combined? hc.2 product (Option.mem_toList.1 hproduct), hc.1⟩

end ConstructorImage

namespace Representation

def typingPlans (r : Representation) : List Pred.Plan :=
  match r.setConstructor, Ty.productOf? r.params with
  | some set, some params => [.member set .strel (.type params) (.made r.typeExpr)]
  | _, _ => []

def partitionPlans (r : Representation) : List Pred.Plan :=
  if r.isSingle && r.constructors.all (·.hasArguments) then []
  else [.partition (.made r.typeExpr :: r.constructors.map (·.valuesPlan))]

/-- The axioms that are not about the set constructor. -/
def valuePlans (r : Representation) : List Pred.Plan :=
  r.constructors.flatMap (·.plans r.isSingle r.typeExpr) ++ r.partitionPlans

theorem build_typingPlans (r : Representation) :
    r.setConstructorTyping f = r.typingPlans.mapM (·.build f) := by
  unfold setConstructorTyping typingPlans
  cases r.setConstructor with
  | none => rfl
  | some set =>
    cases Ty.productOf? r.params with
    | none => rfl
    | some params => simp [Pred.Plan.build_member, Expr.Plan.build]

theorem build_partitionPlans (r : Representation) :
    r.partitionAxiom f = r.partitionPlans.mapM (·.build f) := by
  unfold partitionAxiom partitionPlans
  split_ifs with h
  · rfl
  · simp [Pred.Plan.build, Expr.Plan.build, ConstructorImage.build_values, List.mapM_map, Function.comp_def]

/-- A loop within an encoding is one outside of it. -/
theorem mapM_liftM {α : Type} (xs : List α) (g : α → Build (List Pred)) :
    (xs.mapM fun x => (liftM (g x) : Encode (List Pred))) = liftM (xs.mapM g) := by
  induction xs with
  | nil => rfl
  | cons x xs ih => simp [liftM_bind, ih]

theorem mapM_flatMap {α : Type} (xs : List α) (g : α → List Pred.Plan) :
    (xs.flatMap g).mapM (·.build f) = List.flatten <$> xs.mapM fun x => (g x).mapM (·.build f) := by
  induction xs with
  | nil => rfl
  | cons x xs ih => simp [List.mapM_append, ih]

/-- All axioms are built from plans, but for the definition of the set constructor. -/
theorem axioms_eq (r : Representation) : r.axioms = (do
    let f ← Encode.target
    let typing ← liftM (r.typingPlans.mapM (·.build f))
    let values ← liftM (r.valuePlans.mapM (·.build f))
    let definition ← r.setConstructorDefinition
    return typing ++ values ++ definition) := by
  unfold axioms
  congr 1
  funext f
  have hvalues : (liftM (r.valuePlans.mapM (·.build f)) : Encode (List Pred)) = (do
      let constructors ← r.constructors.mapM fun c => liftM (c.axioms f r.isSingle r.typeExpr)
      return constructors.flatten ++ (← liftM (r.partitionAxiom f))) := by
    rw [valuePlans, List.mapM_append, mapM_flatMap, build_partitionPlans]
    simp [liftM_bind, mapM_liftM, ConstructorImage.build_plans]
  simp [build_typingPlans, hvalues]

theorem all_typingPlans (hQ : ∀ a b, Q a → Q b → Q (.product a b)) (hr : ∀ e ∈ r.exprs, P e)
    (hparams : ∀ t ∈ r.params, Q t) : ∀ k ∈ r.typingPlans, k.All P Q := by
  unfold typingPlans
  split
  · rename_i set params hset hproduct
    refine List.forall_mem_singleton.2 ⟨hr _ (setConstructor_mem_exprs hset), ?_, hr _ r.typeExpr_mem_exprs⟩
    exact Ty.of_productOf? hQ hproduct hparams
  · exact nofun

theorem all_valuePlans (hQ : ∀ a b, Q a → Q b → Q (.product a b)) (hr : ∀ e ∈ r.exprs, P e)
    (hargs : ∀ c ∈ r.constructors, ∀ t ∈ c.argTypes, Q t) : ∀ k ∈ r.valuePlans, k.All P Q := by
  have hexprs : ∀ c ∈ r.constructors, ∀ e ∈ c.function :: c.destructors, P e := fun c hc e he =>
    hr e (mem_exprs_of_constructor hc he)
  refine List.forall_mem_append.2 ⟨List.forall_mem_flatMap.2 fun c hc => ?_, ?_⟩
  · exact ConstructorImage.all_plans hQ (hexprs c hc) (hr _ r.typeExpr_mem_exprs) (hargs c hc)
  · unfold partitionPlans
    split_ifs
    · exact nofun
    · refine List.forall_mem_singleton.2 (List.forall_mem_cons.2 ⟨hr _ r.typeExpr_mem_exprs, ?_⟩)
      exact List.forall_mem_map.2 fun c hc => ConstructorImage.all_valuesPlan (hexprs c hc _ List.mem_cons_self)

end Representation
end SetLang
