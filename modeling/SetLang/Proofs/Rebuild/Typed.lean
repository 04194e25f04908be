import SetLang.Proofs.Encoding.Homomorphism
import SetLang.Proofs.Rebuild.Run
import SetLang.Proofs.Session.Known

/-! Types of what is rebuilt. Most nodes are typed anew from rebuilt parts, and only those whose rule may leave the
type open are given the type of their source. Either way one type is left, and it is the one of the source. -/

namespace SetLang

variable {f : Factory} {s t t' : Store}

namespace Formula

def KeepsType (s t : Store) (g g' : Formula) : Prop :=
  (g'.type? t).map TypeTree.named = (g.type? s).map TypeTree.named

structure Retyped (f : Factory) (s t : Store) (g g' : Formula) : Prop where
  factory : ∀ h, g'.factory? = some h → h = f
  settled : g'.Settled t
  type : g.KeepsType s t g'

theorem Retyped.mono {g g' : Formula} (h : g.Retyped f s t g') (k : t.Later t') : g.Retyped f s t' g' :=
  ⟨h.factory, h.settled.mono k, (congrArg _ (type?_eq_of_later h.settled.typed k)).trans h.type⟩

theorem KeepsType.typing {g g' : Formula} {x x' : Nat} (h : g.KeepsType s t g') (hg : g.isTyped s)
    (hx : g.slot? = some x) (hx' : g'.slot? = some x') : t.typing.slot x' = s.typing.slot x := by
  obtain ⟨T, hT⟩ := exists_type? hg hx
  rw [KeepsType, type?, type?, hx, hx', Option.bind_some, Option.bind_some, hT, Option.map_some,
    Option.map_eq_some_iff] at h
  obtain ⟨T', hT', heq⟩ := h
  rw [Store.typing_slot hT, Store.typing_slot hT', heq]

theorem KeepsType.of_typing {g g' : Formula} {x x' : Nat} (hg : g.isTyped s) (hg' : g'.isTyped t)
    (hx : g.slot? = some x) (hx' : g'.slot? = some x') (h : t.typing.slot x' = s.typing.slot x) :
    g.KeepsType s t g' := by
  obtain ⟨T, hT⟩ := exists_type? hg hx
  obtain ⟨T', hT'⟩ := exists_type? hg' hx'
  rw [KeepsType, type?, type?, hx, hx', Option.bind_some, Option.bind_some, hT, hT', Option.map_some,
    Option.map_some, ← Store.typing_slot hT, ← Store.typing_slot hT', h]

theorem KeepsType.exists_type? {g g' : Formula} {T : Ty} (h : g.KeepsType s t g') (hT : g'.type? t = some T) :
    ∃ U, g.type? s = some U ∧ U.givens = T.givens := by
  rw [KeepsType, hT, Option.map_some, eq_comm, Option.map_eq_some_iff] at h
  obtain ⟨U, hU, heq⟩ := h
  exact ⟨U, hU, by simpa only [TypeTree.named, TypeTree.givens_mapData] using congrArg TypeTree.givens heq⟩

theorem KeepsType.map_typing {es es' : List Expr}
    (h : List.Forall₂ (fun e e' => (expr e).KeepsType s t (.expr e')) es es') (hes : ∀ e ∈ es, e.isTyped s) :
    es'.map t.typing.ofExpr = es.map s.typing.ofExpr := by
  induction h with
  | nil => rfl
  | cons he _ ih =>
    rw [List.forall_mem_cons] at hes
    exact congrArg₂ List.cons (he.typing hes.1 rfl rfl) (ih hes.2)

theorem Retyped.partsTyped {gs gs' : List Formula} (h : List.Forall₂ (Retyped f s t) gs gs') :
    ∀ g ∈ gs', g.isTyped t := fun g hg => by
  obtain ⟨k, -, hk⟩ := forall₂_exists_right h.flip hg
  exact hk.settled.typed

end Formula

open Formula

variable {K K' : Nat → Formula → Formula → Prop} {d : Nat}

theorem Expr.Remade.imp {e e' : Expr} (h : e.Remade K f s t d e') (hK : ∀ d g g', K d g g' → K' d g g') :
    e.Remade K' f s t d e' :=
  ⟨h.factory, h.fitting, h.exact, h.scheme, h.explicit, h.parts.imp (hK _), h.operands.imp fun _ _ => hK _ _ _⟩

theorem Pred.Remade.imp {p p' : Pred} (h : p.Remade K f t d p') (hK : ∀ d g g', K d g g' → K' d g g') :
    p.Remade K' f t d p' :=
  ⟨h.factory, h.fitting, h.exact, h.scheme, h.parts.imp (hK _), h.operands.imp fun _ _ => hK _ _ _⟩

/-- The type that is given leaves no other one, and where none is given the operands leave no other one. -/
theorem Expr.given?_spec {e : Expr} {T : Ty} (hT : e.type? s = some T) (hformed : e.Formed) :
    e.given? s = none ∧ e.scheme.Determines e.operands.length ∨ e.given? s = some T := by
  by_cases h : e.TakesType
  · right
    cases e <;> first | exact h.elim | simp only [given?, hT, Option.some_or]
  · left
    refine ⟨?_, e.determines h hformed⟩
    cases e <;> first | rfl | exact absurd trivial h

/-- An expression that is made anew has the type of its source. -/
theorem Expr.Remade.retyped {e e' : Expr} (h : e.Remade (fun _ => Retyped f s t) f s t d e')
    (hformed : e.Formed) (he : (Formula.expr e).Settled s) : (Formula.expr e).Retyped f s t (.expr e') := by
  obtain ⟨T, hT⟩ := exists_type? he.typed rfl
  have hparts : (Formula.expr e').PartsTyped t := Retyped.partsTyped h.parts
  have hoperands : e'.operands.map t.typing.ofExpr = e.operands.map s.typing.ofExpr :=
    KeepsType.map_typing (h.operands.imp fun _ _ ha => ha.type) fun a ha => he.parts _ (e.operands_subset a ha)
  have hrule : e'.scheme.Holds (e'.operands.map t.typing.ofExpr) (some T.named) := by
    rw [h.scheme, hoperands, ← Store.typing_slot hT]
    exact he.obeys.1
  have hone : e'.explicit? = none ∧ e'.scheme.Determines e'.operands.length ∨ e'.explicit? = some T := by
    rw [h.explicit, h.scheme, ← h.operands.length_eq]
    exact given?_spec hT hformed
  have hadmits := e'.admits_iff_eq hrule hone
  have htyped : (Formula.expr e').isTyped t :=
    h.exact.1.2 ⟨hparts, T.named, (hadmits _).2 rfl, fun g => (hadmits g).1⟩
  obtain ⟨U, hU⟩ := exists_type? htyped rfl
  have hadmitsU := h.exact.2 U hU
  refine ⟨?_, ⟨⟨Store.lt_of_type? hU, h.fitting⟩, htyped, hparts, ?_⟩, ?_⟩
  · rintro _ ⟨⟩
    exact h.factory
  · have htype : t.typing.ofExpr e' = U.named := Store.typing_slot hU
    change e'.scheme.Holds _ (some (t.typing.ofExpr e')) ∧ ∀ u, _ → t.typing.ofExpr e' = _
    rw [htype]
    exact hadmitsU
  · change (t.type? e'.node.slot).map _ = (s.type? e.node.slot).map _
    rw [hU, hT, Option.map_some, Option.map_some, (hadmits _).1 hadmitsU]

theorem Pred.Remade.retyped {p p' : Pred} (h : p.Remade (fun _ => Retyped f s t) f t d p')
    (hp : (Formula.pred p).Settled s) : (Formula.pred p).Retyped f s t (.pred p') := by
  have hparts : (Formula.pred p').PartsTyped t := Retyped.partsTyped h.parts
  have hoperands : p'.operands.map t.typing.ofExpr = p.operands.map s.typing.ofExpr :=
    KeepsType.map_typing (h.operands.imp fun _ _ ha => ha.type) fun a ha => hp.parts _ (p.operands_subset a ha)
  have hobeys : t.typing.Obeys (.pred p') := by
    change p'.scheme.Holds _ none
    rw [h.scheme, hoperands]
    exact hp.obeys
  have htyped : (Formula.pred p').isTyped t := h.exact.2 ⟨hparts, hobeys⟩
  refine ⟨?_, ⟨⟨Store.lt_of_isMarked htyped, h.fitting⟩, htyped, hparts, hobeys⟩, rfl⟩
  rintro _ ⟨⟩
  exact h.factory

theorem Declaration.Becomes.retyped {b b' : Declaration} (h : b.Becomes s t b') (hb : (Formula.decl b).isTyped s) :
    (Formula.decl b).Retyped f s t (.decl b') := by
  obtain ⟨T, hT⟩ := exists_type? hb rfl
  have hT' : b'.type? t = some T := (h.2 t (.refl t)).trans hT
  exact ⟨nofun, ⟨Store.lt_of_type? hT', Option.isSome_iff_exists.2 ⟨T, hT'⟩, List.forall_mem_nil _, trivial⟩,
    congrArg _ (h.2 t (.refl t))⟩

theorem Expr.of_isIdentifier {e : Expr} (h : (Formula.expr e).IsIdentifier) :
    e.scheme = .any ∧ e.children = [] ∧ e.operands = [] ∧ e.Formed ∧ e.Fitting := by
  cases e <;> first | exact h.elim | exact ⟨rfl, rfl, rfl, trivial, trivial⟩

theorem Build.succeeds_retyped {e : Expr} (make : Node → Expr) (hnode : ∀ n, (make n).node = n)
    (hmake : ∀ n, (Formula.expr (make n)).IsIdentifier) (hexplicit : ∀ n, (make n).explicit? = e.given? s)
    (hid : (Formula.expr e).IsIdentifier) (he : (Formula.expr e).Settled s) :
    Succeeds (Build.expr f make) t fun e' t' => t.Grown t' ∧ (Formula.expr e).Retyped f s t' (.expr e') := by
  have hmakes := makes_expr (s := t) (f := f) make hnode fun n => (Expr.of_isIdentifier (hmake n)).2.2.2.2
  refine ((succeeds_identifier make hnode (fun n => ?_)
    fun n => (Expr.of_isIdentifier (hmake n)).2.2.2.2).and_yields hmakes.value).mono fun e' t' h => ?_
  · rw [Expr.partFactories_eq, (Expr.of_isIdentifier (hmake n)).2.1]
    rfl
  · obtain ⟨⟨hgrown, hfactory, n, rfl⟩, hexact⟩ := h
    obtain ⟨hscheme, hchildren, hoperands, hformed, -⟩ := Expr.of_isIdentifier hid
    obtain ⟨hscheme', hchildren', hoperands', -, hfits⟩ := Expr.of_isIdentifier (hmake n)
    refine ⟨hgrown, Expr.Remade.retyped (d := 0)
      ⟨hfactory, hfits, hexact, hscheme'.trans hscheme.symm, hexplicit n, ?_, ?_⟩ hformed he⟩
    · rw [hchildren, hchildren']
      exact .nil
    · rw [hoperands, hoperands']
      exact .nil

namespace Rebuilder

variable {r : Rebuilder Build} {held : Nat → Set Formula} {K K' : Store → Nat → Formula → Formula → Prop}

/-- A rebuilder that replaces identifiers by expressions of their types keeps all types. -/
theorem respects_retyped (htype : r.type = pure)
    (hextended : ∀ e ext es ps o, r.extended e ext es ps o = r.factory.extendedExpr ext es ps o)
    (hheld : ∀ d, ∀ g ∈ held d, g.Formed ∧ g.Settled s)
    (hfree : ∀ n x u t d, .expr (.free n x u) ∈ held d → s.Grown t →
      Succeeds (r.free x ((Expr.free n x u).given? s)) t fun e t' =>
        t.Grown t' ∧ (Formula.expr (.free n x u)).Retyped r.factory s t' (.expr e))
    (hbound : ∀ n i u t d, .expr (.bound n i u) ∈ held d → s.Grown t →
      Succeeds (r.bound i d ((Expr.bound n i u).given? s)) t fun e t' =>
        t.Grown t' ∧ (Formula.expr (.bound n i u)).Retyped r.factory s t' (.expr e)) :
    r.Respects s held fun t _ => Retyped r.factory s t where
  type := htype
  extended := hextended
  factory _ _ _ _ h := h.factory
  free n x u t d hx ht := (hfree n x u t d hx ht).mono fun _ _ h => ⟨h.1, fun _ k => h.2.mono k.later⟩
  bound n i u t d hi ht := (hbound n i u t d hi ht).mono fun _ _ h => ⟨h.1, fun _ k => h.2.mono k.later⟩
  decl _ _ _ _ hb h := h.retyped (hheld _ _ hb).2.typed
  expr _ _ _ _ _ he _ _ h k := (h.retyped (hheld _ _ he).1 (hheld _ _ he).2).mono k.later
  pred _ _ _ _ _ hp _ h k := (h.retyped (hheld _ _ hp).2).mono k.later

/-- What a rebuilder makes goes with the nodes in both ways, if it does in either. -/
theorem Respects.and (h : r.Respects s held K) (h' : r.Respects s held K') :
    r.Respects s held fun t d g g' => K t d g g' ∧ K' t d g g' where
  type := h.type
  extended := h.extended
  factory _ _ _ _ hK := h.factory _ _ _ _ hK.1
  free n x u t d hx ht := by
    obtain ⟨e, t', hrun, hgrown, hK⟩ := h.free n x u t d hx ht
    obtain ⟨e', t'', hrun', -, hK'⟩ := h'.free n x u t d hx ht
    cases hrun.symm.trans hrun'
    exact ⟨e, t', hrun, hgrown, fun t'' k => ⟨hK t'' k, hK' t'' k⟩⟩
  bound n i u t d hi ht := by
    obtain ⟨e, t', hrun, hgrown, hK⟩ := h.bound n i u t d hi ht
    obtain ⟨e', t'', hrun', -, hK'⟩ := h'.bound n i u t d hi ht
    cases hrun.symm.trans hrun'
    exact ⟨e, t', hrun, hgrown, fun t'' k => ⟨hK t'' k, hK' t'' k⟩⟩
  decl b b' t d hb hbecomes := ⟨h.decl b b' t d hb hbecomes, h'.decl b b' t d hb hbecomes⟩
  expr e e' t t' d he hid ht hmade k :=
    ⟨h.expr e e' t t' d he hid ht (hmade.imp fun _ _ _ => And.left) k,
      h'.expr e e' t t' d he hid ht (hmade.imp fun _ _ _ => And.right) k⟩
  pred p p' t t' d hp ht hmade k :=
    ⟨h.pred p p' t t' d hp ht (hmade.imp fun _ _ _ => And.left) k,
      h'.pred p p' t t' d hp ht (hmade.imp fun _ _ _ => And.right) k⟩

end Rebuilder
end SetLang
