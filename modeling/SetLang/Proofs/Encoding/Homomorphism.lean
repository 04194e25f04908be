import SetLang.Proofs.Encoding.Supported
import SetLang.Proofs.Session.Build

/-! Typing under maps of types. The rules of the core language name no datatype, so that they hold of the
images of types under every map that keeps all but datatypes. Most of them leave one type to a node. -/

namespace SetLang

structure GroundTy.Homomorphism (φ : GroundTy → GroundTy) : Prop where
  boolean : φ .boolean = .boolean
  given : ∀ s, φ (.given s) = .given s
  power : ∀ a, φ (.power a) = .power (φ a)
  product : ∀ a b, φ (.product a b) = .product (φ a) (φ b)

theorem GroundTy.Homomorphism.under {φ : GroundTy → GroundTy} (h : GroundTy.Homomorphism φ)
    {p : TyTerm} (hp : p.Plain) (ρ : TypeVar → GroundTy) :
    φ (TyTerm.under ρ p) = TyTerm.under (fun v => φ (ρ v)) p := by
  unfold TyTerm.under TypeTree.named
  induction p using TypeTree.ind with
  | leaf v => rfl
  | boolean => exact h.boolean
  | given s => exact h.given s
  | power a ih => exact (h.power _).trans (congrArg _ (ih hp))
  | product a b iha ihb =>
    have hplain := List.append_eq_nil_iff.1 hp
    exact (h.product _ _).trans (congrArg₂ _ (iha hplain.1) (ihb hplain.2))
  | data d as _ => cases hp

namespace Scheme

variable {σ : Scheme} {gs : List GroundTy} {g g' : GroundTy} {φ : GroundTy → GroundTy} {n : Nat}

structure Plain (σ : Scheme) : Prop where
  args : ∀ p ∈ σ.args, p.Plain
  result : ∀ r ∈ σ.result, r.Plain

def Determines (σ : Scheme) (n : Nat) : Prop :=
  ∃ r ∈ σ.result, ∀ v ∈ r.leaves, ∃ i < n, ∃ p ∈ σ.pattern? i, v ∈ p.leaves

theorem mem_of_pattern? {i : Nat} {p : TyTerm} (h : σ.pattern? i = some p) : p ∈ σ.args := by
  rcases Option.or_eq_some_iff.1 h with h | ⟨-, h⟩
  · exact List.mem_of_getElem? h
  · exact List.mem_of_getLast? h

theorem Matches.map {ρ : TypeVar → GroundTy} (h : σ.Matches ρ gs) (hσ : σ.Plain)
    (hφ : GroundTy.Homomorphism φ) : σ.Matches (fun v => φ (ρ v)) (gs.map φ) := by
  intro i g p hg hp
  rw [List.getElem?_map] at hg
  obtain ⟨g, hgs, rfl⟩ := Option.map_eq_some_iff.1 hg
  rw [h i g p hgs hp, hφ.under (hσ.args p (mem_of_pattern? hp))]

theorem Holds.map (h : σ.Holds gs (some g)) (hσ : σ.Plain) (hφ : GroundTy.Homomorphism φ) :
    σ.Holds (gs.map φ) (some (φ g)) := by
  obtain ⟨ρ, hargs, hresult⟩ := h
  refine ⟨_, hargs.map hσ hφ, ?_⟩
  rintro _ r ⟨⟩ hr
  rw [hresult g r rfl hr, hφ.under (hσ.result r hr)]

theorem Holds.map_none (h : σ.Holds gs none) (hσ : σ.Plain) (hφ : GroundTy.Homomorphism φ) :
    σ.Holds (gs.map φ) none := by
  obtain ⟨ρ, hargs, -⟩ := h
  exact ⟨_, hargs.map hσ hφ, fun _ _ hnone => by cases hnone⟩

theorem determines_one {p r : TyTerm} (h : ∀ v ∈ r.leaves, v ∈ p.leaves) :
    Determines ⟨[p], some r⟩ 1 :=
  ⟨r, rfl, fun v hv => ⟨0, Nat.zero_lt_one, p, rfl, h v hv⟩⟩

theorem determines_two {p q r : TyTerm} (h : ∀ v ∈ r.leaves, v ∈ p.leaves ∨ v ∈ q.leaves) :
    Determines ⟨[p, q], some r⟩ 2 := by
  refine ⟨r, rfl, fun v hv => (h v hv).elim (fun hp => ?_) fun hq => ?_⟩
  · exact ⟨0, Nat.zero_lt_two, p, rfl, hp⟩
  · exact ⟨1, Nat.one_lt_two, q, rfl, hq⟩

theorem Holds.eq (h : σ.Holds gs (some g)) (k : σ.Holds gs (some g'))
    (hσ : σ.Determines gs.length) : g = g' := by
  obtain ⟨ρ, hargs, hresult⟩ := h
  obtain ⟨ρ', hargs', hresult'⟩ := k
  obtain ⟨r, hr, hleaves⟩ := hσ
  rw [hresult g r rfl hr, hresult' g' r rfl hr]
  refine TyTerm.under_congr fun v hv => ?_
  obtain ⟨i, hi, p, hp, hvp⟩ := hleaves v hv
  have hg := List.getElem?_eq_getElem hi
  have heq := (hargs i _ p hg hp).symm.trans (hargs' i _ p hg hp)
  exact TypeTree.subst_eq_iff.1 heq v (by rwa [TypeTree.named, TypeTree.leaves_mapData])

end Scheme

section
open TypeTree

theorem BinaryOp.plain_scheme (op : BinaryOp) : op.scheme.Plain := by
  constructor <;> cases op <;> simp [scheme, Plain, applications, relation]

theorem BinaryOp.determines (op : BinaryOp) : op.scheme.Determines 2 := by
  cases op <;> exact Scheme.determines_two (by simp [leaves, relation])

theorem UnaryOp.plain_scheme (op : UnaryOp) : op.scheme.Plain := by
  constructor <;> cases op <;> simp [scheme, Plain, applications, relation]

theorem UnaryOp.determines (op : UnaryOp) : op.scheme.Determines 1 := by
  cases op <;> exact Scheme.determines_one (by simp [leaves, relation])

theorem AssocOp.plain_scheme (op : AssocOp) : op.scheme.Plain := by
  constructor <;> cases op <;> simp [scheme, Plain, applications, relation]

theorem AssocOp.determines (op : AssocOp) {n : Nat} (hn : 0 < n) : op.scheme.Determines n := by
  cases op <;> exact ⟨_, rfl, fun v hv => ⟨0, hn, _, rfl, by simpa [leaves, relation] using hv⟩⟩

theorem Atom.plain_scheme (a : Atom) : a.scheme.Plain := by
  constructor <;> cases a <;> simp [scheme, Plain, applications]

theorem SetBinder.plain_scheme (op : SetBinder) : op.scheme.Plain := by
  constructor <;> cases op <;> simp [scheme, Plain, applications]

theorem SetBinder.determines (op : SetBinder) : op.scheme.Determines 1 := by
  cases op <;> exact Scheme.determines_one (by simp [leaves])

theorem Comparison.plain_scheme (op : Comparison) : op.scheme.Plain := by
  constructor <;> cases op <;> simp [scheme, Plain, applications]

end

namespace Expr

variable {e : Expr} {s : Store} {t : Ty}

/-- The expressions that may be given a type when they are built. -/
def TakesType : Expr → Prop
  | atom .. | set .. | bound .. | free .. | extended .. => True
  | binary .. | unary .. | assoc .. | bool .. | quantified .. => False

/-- The rules of the core language name no datatype. -/
theorem plain_scheme (h : (Formula.expr e).extension? = none) : e.scheme.Plain := by
  cases e with
  | binary n op a b => exact op.plain_scheme
  | unary n op a => exact op.plain_scheme
  | assoc n op es => exact op.plain_scheme
  | atom n a t => exact a.plain_scheme
  | quantified n op ds p e => exact op.plain_scheme
  | set | bool => constructor <;> simp [scheme, TypeTree.Plain, TypeTree.applications]
  | bound | free => constructor <;> simp [scheme, Scheme.any]
  | extended n ext es ps t => cases h

/-- An expression that is not given a type has one from its operands. -/
theorem determines (h : ¬ e.TakesType) (hformed : e.Formed) :
    e.scheme.Determines e.operands.length := by
  cases e with
  | binary n op a b => exact op.determines
  | unary n op a => exact op.determines
  | assoc n op es => exact op.determines (Nat.lt_of_lt_of_le Nat.zero_lt_two hformed)
  | quantified n op ds p e => exact op.determines
  | bool n p => exact ⟨_, rfl, by simp [TypeTree.leaves]⟩
  | atom | set | bound | free | extended => exact absurd trivial h

/-- Only expressions that may be given a type have one. -/
theorem explicit?_eq_none (h : ¬ e.TakesType) : e.explicit? = none := by
  cases e <;> first | rfl | exact absurd trivial h

/-- A rule that holds for a type leaves no other one, if the type is given or left by the operands. -/
theorem admits_iff_eq (hrule : e.scheme.Holds (e.operands.map s.typing.ofExpr) (some t.named))
    (hone : e.explicit? = none ∧ e.scheme.Determines e.operands.length ∨ e.explicit? = some t)
    (g : GroundTy) : e.Admits s g ↔ g = t.named := by
  constructor
  · rintro ⟨hholds, hexplicit⟩
    rcases hone with ⟨-, hdetermines⟩ | hgiven
    · exact hholds.eq hrule (by rwa [List.length_map])
    · exact hexplicit t hgiven
  · rintro rfl
    refine ⟨hrule, fun u hu => ?_⟩
    rcases hone with ⟨hnone, -⟩ | hgiven
    · rw [hnone] at hu
      cases hu
    · obtain rfl := Option.some_inj.1 (hgiven.symm.trans hu)
      rfl

end Expr

theorem Pred.plain_scheme {p : Pred} (h : (Formula.pred p).extension? = none) : p.scheme.Plain := by
  cases p with
  | comparison n op a b => exact op.plain_scheme
  | partition n es => constructor <;> simp [scheme, TypeTree.Plain, TypeTree.applications]
  | literal | not | connective | junction | quantified => constructor <;> simp [scheme, Scheme.any]
  | extended n ext es ps => cases h

end SetLang
