import SetLang.Proofs.Encoding.Represent
import SetLang.Proofs.Encoding.Typed

/-! What a formula is encoded to. Every node stays as it is, or is replaced by a formula over what its
children are encoded to; its type is encoded with it. As the image of a type keeps everything but
datatypes, the rules of the core language hold of the encoded nodes. -/

namespace SetLang

variable {ds : List Datatype} {s : Store} {f : Factory} {S S' : EncodingState} {T t : Ty} {α : Type}

namespace Encoding

open Classical in
/-- What stands for a type, where datatypes are known by name. -/
noncomputable def groundImage (t : Encoding) : GroundTy → GroundTy
  | .leaf v => v.elim
  | .boolean => .boolean
  | .given s => .given s
  | .power a => .power (groundImage t a)
  | .product a b => .product (groundImage t a) (groundImage t b)
  | .data d as => ((t.representations.reverse.find? fun r =>
      decide (r.source.type.named = .data d as)).map (·.type.named)).getD .boolean

theorem homomorphism_groundImage (t : Encoding) : GroundTy.Homomorphism t.groundImage :=
  ⟨rfl, fun _ => rfl, fun _ => rfl, fun _ _ => rfl⟩

open Classical in
/-- The image of a type depends on the named type alone. -/
theorem groundImage_named {e : Encoding} (h : Ty.image? e.look T = some t) :
    e.groundImage T.named = t.named := by
  induction T using TypeTree.ind generalizing t with
  | leaf v => exact v.elim
  | boolean => cases h; rfl
  | given s => cases h; rfl
  | power a ih =>
    obtain ⟨b, hb, rfl⟩ := Option.map_eq_some_iff.1 h
    exact congrArg TypeTree.power (ih hb)
  | product a b iha ihb =>
    obtain ⟨c, hc, hprod⟩ := Option.bind_eq_some_iff.1 h
    obtain ⟨d, hd, rfl⟩ := Option.map_eq_some_iff.1 hprod
    exact congrArg₂ TypeTree.product (iha hc) (ihb hd)
  | data d as _ =>
    obtain ⟨r, hr, rfl⟩ := Option.map_eq_some_iff.1 h
    have hfind : (e.representations.reverse.find? fun r =>
        decide (r.source.type.named = (TypeTree.data d as : Ty).named)) = some r := by
      rw [← hr, representation?]
      congr 1
      funext r
      rw [Bool.eq_iff_iff, decide_eq_true_iff, TypeTree.beq_iff_named]
      rfl
    rw [TypeTree.named_data] at hfind ⊢
    rw [groundImage, hfind]
    rfl

end Encoding

theorem Encode.run_represented {i : Instance} {r : Representation} {create : Encode Representation}
    (h : S.encoding.representation? i = some r) : (represented i create).run S = (.ok r, S) := by
  rw [represented, run_bind_ok (run_current S), h]
  rfl

/-- Encoding a type that has an image gives the image and changes nothing. -/
theorem Encode.run_type (h : Ty.image? S.encoding.look T = some t) :
    (Encode.type T).run S = (.ok t, S) := by
  induction T using TypeTree.ind generalizing t with
  | leaf v => exact v.elim
  | boolean => cases h; rfl
  | given s => cases h; rfl
  | power a ih =>
    obtain ⟨b, hb, rfl⟩ := Option.map_eq_some_iff.1 h
    rw [Encode.type]
    exact run_bind_ok (ih hb)
  | product a b iha ihb =>
    obtain ⟨c, hc, hprod⟩ := Option.bind_eq_some_iff.1 h
    obtain ⟨d, hd, rfl⟩ := Option.map_eq_some_iff.1 hprod
    rw [Encode.type, run_bind_ok (iha hc)]
    exact run_bind_ok (ihb hd)
  | data d as _ =>
    obtain ⟨r, hr, rfl⟩ := Option.map_eq_some_iff.1 h
    rw [Encode.type]
    exact run_bind_ok (run_represented hr)

/-! Formulas and their encodings. -/

def Expr.Alike : Expr → Expr → Prop
  | .binary _ op _ _, .binary _ op' _ _ => op' = op
  | .unary _ op _, .unary _ op' _ => op' = op
  | .assoc _ op _, .assoc _ op' _ => op' = op
  | .atom _ a _, .atom _ a' _ => a' = a
  | .set _ _ _, .set _ _ _ => True
  | .bool _ _, .bool _ _ => True
  | .quantified _ op _ _ _, .quantified _ op' _ _ _ => op' = op
  | .bound _ i _, .bound _ i' _ => i' = i
  | .free _ x _, .free _ x' _ => x' = x
  | _, _ => False

def Pred.Alike : Pred → Pred → Prop
  | .literal _ b, .literal _ b' => b' = b
  | .not _ _, .not _ _ => True
  | .connective _ op _ _, .connective _ op' _ _ => op' = op
  | .junction _ op _, .junction _ op' _ => op' = op
  | .comparison _ op _ _, .comparison _ op' _ _ => op' = op
  | .partition _ _, .partition _ _ => True
  | .quantified _ op _ _, .quantified _ op' _ _ => op' = op
  | _, _ => False

/-- Only expressions of the core language are alike, and the same rule holds for them. -/
theorem Expr.Alike.core {e e' : Expr} (h : e.Alike e') : (Formula.expr e).extension? = none ∧
    (Formula.expr e').extension? = none ∧ e'.scheme = e.scheme := by
  unfold Expr.Alike at h
  split at h
  all_goals first | (subst h; exact ⟨rfl, rfl, rfl⟩) | exact ⟨rfl, rfl, rfl⟩ | exact h.elim

theorem Pred.Alike.core {p p' : Pred} (h : p.Alike p') : (Formula.pred p).extension? = none ∧
    (Formula.pred p').extension? = none ∧ p'.scheme = p.scheme := by
  unfold Pred.Alike at h
  split at h
  all_goals first | (subst h; exact ⟨rfl, rfl, rfl⟩) | exact ⟨rfl, rfl, rfl⟩ | exact h.elim

namespace Formula

def Alike : Formula → Formula → Prop
  | expr e, expr e' => e.Alike e'
  | pred p, pred p' => p.Alike p'
  | decl d, decl d' => d'.name = d.name
  | _, _ => False

structure TypeEncodes (s : Store) (S : EncodingState) (g g' : Formula) : Prop where
  typed : g'.isTyped S.store
  type : ∀ T, g.type? s = some T → ∃ t, g'.type? S.store = some t ∧ (Encode.type T).run S = (.ok t, S)

/-- A formula, whose types stand in a store, and its encoding. An application of an extension becomes a
formula over the encodings of its children, or the type of an instance. -/
inductive Encodes (s : Store) (S : EncodingState) : Formula → Formula → Prop
  | node {g g' : Formula} : g.Alike g' → TypeEncodes s S g g' →
    List.Forall₂ (Encodes s S) g.components g'.components → Encodes s S g g'
  | replaced {n : Node} {ext : Extension} {es : List Expr} {t : Option Ty} {gs : List Formula}
    {e' : Expr} : TypeEncodes s S (.expr (.extended n ext es [] t)) (.expr e') →
    List.Forall₂ (Encodes s S) (es.map .expr) gs →
    (∀ g ∈ gs, g ∈ (expr e').nodes) ∨ ext.isTypeConstructor ∧
      (∃ r ∈ S.encoding.representations, e' = r.typeExpr) →
    Encodes s S (.expr (.extended n ext es [] t)) (.expr e')

/-- A typed node of a source formula: its type is supported, and its extension is one of a datatype. -/
structure Source (ds : List Datatype) (s : Store) (g : Formula) : Prop where
  typed : g.isTyped s
  obeys : s.typing.Obeys g
  formed : g.Formed
  fits : g.NodeFits s
  supported : ∀ T, g.type? s = some T → T.Supported ds
  extension : ∀ ext, g.extension? = some ext → ∃ d ∈ ds, ext ∈ d.extensions

end Formula

namespace EncodingState

/-- A later coherent state with new representations for supported instances only. -/
structure Continues (ds : List Datatype) (S S' : EncodingState) : Prop where
  later : S.Later S'
  coherent : S'.Coherent ds
  added : ∀ r ∈ S'.encoding.representations, r ∈ S.encoding.representations ∨ r.source.type.Supported ds

theorem Continues.refl (h : S.Coherent ds) : S.Continues ds S := ⟨.refl S, h, fun _ hr => .inl hr⟩

theorem Continues.trans {S'' : EncodingState} (h : S.Continues ds S') (k : S'.Continues ds S'') :
    S.Continues ds S'' :=
  ⟨h.later.trans k.later, k.coherent, fun r hr => (k.added r hr).elim (h.added r) .inr⟩

theorem Advances.continues {n : Nat} (h : S.Advances ds n S') (hS : S.Coherent ds) :
    S.Continues ds S' :=
  ⟨h.later, h.coherent hS, fun r hr => (h.added r hr).imp_right And.left⟩

theorem Quiet.continues (h : S.Quiet S') (hS : S.Coherent ds) : S.Continues ds S' :=
  ⟨h.later, h.coherent hS, fun _ hr => .inl (h.representations ▸ hr)⟩

structure Underway (ds : List Datatype) (s : Store) (f : Factory) (S : EncodingState) : Prop where
  coherent : S.Coherent ds
  store : s.Later S.store
  target : S.encoding.target = f

theorem Underway.continue (h : S.Underway ds s f) (k : S.Continues ds S') : S'.Underway ds s f :=
  ⟨k.coherent, h.store.trans k.later.store, k.later.target.trans h.target⟩

theorem Continues.image? (h : S.Continues ds S') (hS : S.Coherent ds) (hT : T.Supported ds)
    (ht : Ty.image? S.encoding.look T = some t) : Ty.image? S'.encoding.look T = some t :=
  Ty.image?_mono (fun _ hj _ => hS.look_later h.coherent.toOrderly h.later hj) hT ht

theorem Coherent.plain (h : S.Coherent ds) (hT : T.Supported ds)
    (ht : Ty.image? S.encoding.look T = some t) : t.Plain :=
  Ty.plain_of_image? (fun _ hj _ hu => h.plain_look hj hu) hT ht

end EncodingState

/-- What a source node has become: a clean formula whose type is the image of the type of the node, and
from now on its encoding. -/
structure Formula.Became (ds : List Datatype) (s : Store) (S : EncodingState) (g g' : Formula) :
    Prop where
  type : ∀ x ∈ g.slot?, ∃ T t, s.type? x = some T ∧ T.Supported ds ∧
    Ty.image? S.encoding.look T = some t ∧ g'.type? S.store = some t
  clean : g'.Throughout (Clean S.encoding.target S.store)
  encodes : ∀ S', S.Continues ds S' → g.Encodes s S' g'

namespace Formula

variable {g g' : Formula}

theorem Became.mono (h : g.Became ds s S g') (hS : S.Coherent ds) (k : S.Continues ds S') :
    g.Became ds s S' g' := by
  refine ⟨fun x hx => ?_, ?_, fun S'' k' => h.encodes S'' (k.trans k')⟩
  · obtain ⟨T, t, hT, hsup, ht, ht'⟩ := h.type x hx
    exact ⟨T, t, hT, hsup, k.image? hS hsup ht, type?_later ht' k.later.store⟩
  · rw [k.later.target]
    exact h.clean.mono fun _ hg => hg.mono k.later.store

/-- A clean formula with the image of the type of a node encodes the node, if it is over the encodings of
the parts of the node. -/
theorem TypeEncodes.of_image (h : g'.isTyped S.store)
    (htype : ∀ x ∈ g.slot?, ∃ T t, s.type? x = some T ∧ Ty.image? S.encoding.look T = some t ∧
      g'.type? S.store = some t) : TypeEncodes s S g g' := by
  refine ⟨h, fun T hT => ?_⟩
  obtain ⟨x, hx, hT⟩ := Option.bind_eq_some_iff.1 hT
  obtain ⟨T', t, hT', ht, ht'⟩ := htype x hx
  obtain rfl := Option.some_inj.1 (hT.symm.trans hT')
  exact ⟨t, ht', Encode.run_type ht⟩

end Formula
end SetLang
