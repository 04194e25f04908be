import SetLang.Proofs.Semantics.Relation
import SetLang.Store

/-! The meaning of formulas in set theory. An interpretation gives a carrier to each given type, a
meaning to each identifier and to each extension; expressions then denote sets, and predicates hold or
do not. A quantifier ranges over the values of the types of its declarations. -/

namespace SetLang

universe u

open ZFSet (pair prod powerset)

/-- What the names of a formula stand for. -/
structure Interpretation where
  carrier : String → ZFSet.{u}
  instances : Instance → ZFSet.{u}
  ident : String → ZFSet.{u}
  operation : Extension → List ZFSet.{u} → List ZFSet.{u} → ZFSet.{u}
  relation : Extension → List ZFSet.{u} → List ZFSet.{u} → Prop

noncomputable section

namespace Bit

def falsity : ZFSet.{u} := ∅

def truth : ZFSet.{u} := {∅}

def both : ZFSet.{u} := {falsity, truth}

open Classical in
def of (p : Prop) : ZFSet.{u} := if p then truth else falsity

end Bit

def Ty.values (I : Interpretation.{u}) : Ty → ZFSet.{u}
  | .leaf v => v.elim
  | .boolean => Bit.both
  | .given s => I.carrier s
  | .power a => powerset (Ty.values I a)
  | .product a b => prod (Ty.values I a) (Ty.values I b)
  | .data d as => I.instances ⟨d, as⟩

/-- The given types in a type stand for their whole carriers where they are used as sets. -/
def Interpretation.Whole (I : Interpretation.{u}) (t : Ty) : Prop :=
  ∀ g ∈ t.givens, I.ident g = I.carrier g

/-- The relations of a kind between two sets. -/
def relations (a b : ZFSet.{u}) (kind : ZFSet.{u} → Prop) : ZFSet.{u} :=
  (powerset (prod a b)).sep kind

def BinaryOp.value (x y : ZFSet.{u}) : BinaryOp → ZFSet.{u}
  | maplet => pair x y
  | funImage => Relation.apply x y
  | relImage => Relation.image x y
  | cprod => prod x y
  | dprod => Relation.direct x y
  | rel => relations x y fun _ => True
  | tfun => relations x y fun f => Relation.Total x f ∧ Relation.Functional f
  | tinj => relations x y fun f => Relation.Total x f ∧ Relation.Functional f ∧ Relation.Injective f
  | tsur => relations x y fun f => Relation.Total x f ∧ Relation.Functional f ∧ Relation.Onto y f
  | tbij => relations x y fun f =>
    Relation.Total x f ∧ Relation.Functional f ∧ Relation.Injective f ∧ Relation.Onto y f
  | strel => relations x y fun r => Relation.Total x r ∧ Relation.Onto y r
  | setminus => x \ y
  | domres => Relation.restrict x y

/-- The left-nested combination of sets, if there is any. -/
def BinaryOp.combined? (op : BinaryOp) : List ZFSet.{u} → Option ZFSet.{u}
  | [] => none
  | x :: xs => some (xs.foldl (fun x y => op.value x y) x)

def UnaryOp.value (x : ZFSet.{u}) : UnaryOp → ZFSet.{u}
  | converse => Relation.converse x
  | dom => Relation.dom x
  | ran => Relation.ran x
  | pow => powerset x

def AssocOp.value (x y : ZFSet.{u}) : AssocOp → ZFSet.{u}
  | union => x ∪ y
  | inter => x ∩ y
  | ovr => Relation.override x y

def AssocOp.combined? (op : AssocOp) : List ZFSet.{u} → Option ZFSet.{u}
  | [] => none
  | x :: xs => some (xs.foldl (fun x y => op.value x y) x)

def Atom.value : Atom → ZFSet.{u}
  | emptySet => ∅
  | boolSet => Bit.both
  | truth => Bit.truth
  | falsity => Bit.falsity

/-- The union of what there is for each choice of values from the domains. -/
def gather : List ZFSet.{u} → (List ZFSet.{u} → ZFSet.{u}) → ZFSet.{u}
  | [], f => f []
  | a :: as, f => ZFSet.iUnion fun x : a => gather as fun xs => f (x.1 :: xs)

open Classical in
/-- What a binder makes of the bodies for the values that satisfy its condition. -/
def SetBinder.value (domains : List ZFSet.{u}) (holds : List ZFSet.{u} → Prop)
    (body : List ZFSet.{u} → ZFSet.{u}) : SetBinder → ZFSet.{u}
  | comprehension => gather domains fun xs => if holds xs then {body xs} else ∅
  | union => gather domains fun xs => if holds xs then body xs else ∅
  | inter => (gather domains fun xs => if holds xs then body xs else ∅).sep fun z =>
      ∀ xs, List.Forall₂ (· ∈ ·) xs domains → holds xs → z ∈ body xs

def Connective.Holds (p q : Prop) : Connective → Prop
  | limp => p → q
  | leqv => p ↔ q

def Junction.Holds (ps : List Prop) : Junction → Prop
  | land => ∀ p ∈ ps, p
  | lor => ∃ p ∈ ps, p

def Comparison.Holds (x y : ZFSet.{u}) : Comparison → Prop
  | eq => x = y
  | ne => x ≠ y
  | mem => x ∈ y
  | notMem => x ∉ y
  | subset => x ⊆ y ∧ x ≠ y
  | subsetEq => x ⊆ y
  | notSubset => ¬(x ⊆ y ∧ x ≠ y)
  | notSubsetEq => ¬x ⊆ y

/-- The first set is the union of the others, which have no member in common. -/
def Partitions : List ZFSet.{u} → Prop
  | [] => True
  | whole :: parts => (∀ z, z ∈ whole ↔ ∃ part ∈ parts, z ∈ part) ∧
      parts.Pairwise fun a b => ∀ z, z ∈ a → z ∉ b

def Quantifier.Holds (domains : List ZFSet.{u}) (body : List ZFSet.{u} → Prop) :
    Quantifier → Prop
  | all => ∀ xs, List.Forall₂ (· ∈ ·) xs domains → body xs
  | exist => ∃ xs, List.Forall₂ (· ∈ ·) xs domains ∧ body xs

/-- The values that a declaration ranges over. -/
def Declaration.domain (I : Interpretation.{u}) (s : Store) (d : Declaration) : ZFSet.{u} :=
  match d.type? s with
  | some t => Ty.values I t
  | none => ∅

mutual

/-- The set that an expression denotes, where `env` has the values of bound identifiers, the
innermost first. -/
def Expr.value (I : Interpretation.{u}) (s : Store) (env : List ZFSet.{u}) : Expr → ZFSet.{u}
  | .binary _ op a b => op.value (a.value I s env) (b.value I s env)
  | .unary _ op a => op.value (a.value I s env)
  | .assoc _ op es => (op.combined? (Expr.values I s env es)).getD ∅
  | .atom _ a _ => a.value
  | .set _ es _ => (Expr.values I s env es).foldr insert ∅
  | .bool _ p => p.truth I s env
  | .quantified _ op ds p e => op.value (ds.map (Declaration.domain I s))
      (fun xs => p.truth I s (xs.reverse ++ env) = Bit.truth)
      fun xs => e.value I s (xs.reverse ++ env)
  | .bound _ i _ => env.getD i ∅
  | .free _ x _ => I.ident x
  | .extended _ ext es ps _ => I.operation ext (Expr.values I s env es) (Pred.truths I s env ps)

def Expr.values (I : Interpretation.{u}) (s : Store) (env : List ZFSet.{u}) :
    List Expr → List ZFSet.{u}
  | [] => []
  | e :: es => e.value I s env :: Expr.values I s env es

def Pred.truth (I : Interpretation.{u}) (s : Store) (env : List ZFSet.{u}) : Pred → ZFSet.{u}
  | .literal _ b => Bit.of (b = true)
  | .not _ p => Bit.of (p.truth I s env ≠ Bit.truth)
  | .connective _ op p q =>
    Bit.of (op.Holds (p.truth I s env = Bit.truth) (q.truth I s env = Bit.truth))
  | .junction _ op ps => Bit.of (op.Holds ((Pred.truths I s env ps).map (· = Bit.truth)))
  | .comparison _ op a b => Bit.of (op.Holds (a.value I s env) (b.value I s env))
  | .partition _ es => Bit.of (Partitions (Expr.values I s env es))
  | .quantified _ op ds p => Bit.of <| op.Holds (ds.map (Declaration.domain I s)) fun xs =>
      p.truth I s (xs.reverse ++ env) = Bit.truth
  | .extended _ ext es ps =>
    Bit.of (I.relation ext (Expr.values I s env es) (Pred.truths I s env ps))

def Pred.truths (I : Interpretation.{u}) (s : Store) (env : List ZFSet.{u}) :
    List Pred → List ZFSet.{u}
  | [] => []
  | p :: ps => p.truth I s env :: Pred.truths I s env ps

end

def Pred.Holds (I : Interpretation.{u}) (s : Store) (env : List ZFSet.{u}) (p : Pred) : Prop :=
  p.truth I s env = Bit.truth

variable {I : Interpretation.{u}} {s : Store} {env : List ZFSet.{u}} {n : Node}

@[simp] theorem Bit.of_eq_truth (p : Prop) : Bit.of p = truth.{u} ↔ p := by
  unfold Bit.of
  split_ifs with h
  · exact iff_of_true rfl h
  · refine iff_of_false (fun heq => ?_) h
    exact ZFSet.notMem_empty ∅ (heq ▸ ZFSet.mem_singleton.2 rfl : (∅ : ZFSet.{u}) ∈ falsity.{u})

@[simp] theorem Expr.values_eq (es : List Expr) :
    Expr.values I s env es = es.map (Expr.value I s env) := by
  induction es with
  | nil => rw [values, List.map_nil]
  | cons e es ih => rw [values, ih, List.map_cons]

theorem Pred.holds_comparison {op : Comparison} {a b : Expr} :
    (Pred.comparison n op a b).Holds I s env ↔ op.Holds (a.value I s env) (b.value I s env) := by
  rw [Holds, truth, Bit.of_eq_truth]

theorem Pred.holds_partition {es : List Expr} :
    (Pred.partition n es).Holds I s env ↔ Partitions (es.map (Expr.value I s env)) := by
  rw [Holds, truth, Bit.of_eq_truth, Expr.values_eq]

theorem Pred.holds_quantified {op : Quantifier} {ds : List Declaration} {p : Pred} :
    (Pred.quantified n op ds p).Holds I s env ↔
      op.Holds (ds.map (Declaration.domain I s)) fun xs => p.Holds I s (xs.reverse ++ env) := by
  rw [Holds, truth, Bit.of_eq_truth]
  rfl

theorem mem_relations {a b f : ZFSet.{u}} {kind : ZFSet.{u} → Prop} :
    f ∈ relations a b kind ↔ f ⊆ prod a b ∧ kind f := by
  rw [relations, ZFSet.mem_sep, ZFSet.mem_powerset]

end

/-! A combination of maplets is a tuple: the members of a combined product are the tuples of members,
and a combined direct product has the tuples of what its relations have. -/

namespace BinaryOp

variable {xs ys as rs : List ZFSet.{u}} {d r w z : ZFSet.{u}}

theorem mem_combined_cprod (hd : cprod.combined? as = some d) :
    z ∈ d ↔ ∃ xs, List.Forall₂ (· ∈ ·) xs as ∧ maplet.combined? xs = some z := by
  cases as with
  | nil => cases hd
  | cons a as =>
    cases hd
    refine Relation.mem_foldl_prod.trans ⟨?_, ?_⟩
    · rintro ⟨x, xs, hx, hxs, rfl⟩
      exact ⟨x :: xs, .cons hx hxs, rfl⟩
    · rintro ⟨_, hxs, hz⟩
      cases hxs with
      | cons hx hxs => exact ⟨_, _, hx, hxs, (Option.some_inj.1 hz).symm⟩

theorem combined_maplet_inj (hlen : xs.length = ys.length)
    (h : maplet.combined? xs = maplet.combined? ys) : xs = ys := by
  cases xs with
  | nil => exact (List.length_eq_zero_iff.1 hlen.symm).symm
  | cons x xs =>
    cases ys with
    | nil => cases hlen
    | cons y ys =>
      obtain ⟨rfl, rfl⟩ := Relation.foldl_pair_inj (Nat.succ.inj hlen) (Option.some_inj.1 h)
      rfl

theorem pair_mem_combined_dprod (hr : dprod.combined? rs = some r)
    (hz : maplet.combined? xs = some z) (hlen : xs.length = rs.length) :
    pair w z ∈ r ↔ List.Forall₂ (fun x r => pair w x ∈ r) xs rs := by
  cases rs with
  | nil => cases hr
  | cons r' rs =>
    cases xs with
    | nil => cases hz
    | cons x xs =>
      cases hr
      cases hz
      rw [List.forall₂_cons]
      exact Relation.pair_mem_foldl_direct (Nat.succ.inj hlen)

end BinaryOp
end SetLang
