import SetLang.Proofs.Rebuild

/-! Runs of rebuilding. A rebuilder that only replaces identifiers succeeds on every formula that its factory
made: all other nodes are accepted a second time. -/

namespace SetLang

/-- A node that a factory makes: it meets the conditions of construction there, whatever factory it is of. -/
structure Formula.Makable (f : Factory) (s : Store) (g : Formula) : Prop where
  formed : g.Formed
  fits : g.NodeFits s
  registered : ∀ ext, g.extension? = some ext → (f.extension? ext.id).isSome

structure Formula.Remakable (f : Factory) (s : Store) (g : Formula) : Prop where
  formed : g.Formed
  fits : g.NodeFits s
  accepted : g.Accepted
  factory : ∀ h, g.factory? = some h → h = f

namespace Formula

variable {f : Factory} {s : Store} {n : Node} {ext : Extension} {es : List Expr} {ps : List Pred} {t : Option Ty}

theorem Makable.accept_expr (h : (expr (.extended n ext es ps t)).Makable f s) :
    f.accept ext .expression es.length ps.length = .ok () :=
  Language.accept_eq_ok_iff.2 ⟨h.registered ext rfl, h.formed.2.1, h.fits.2.2, h.formed.2.2⟩

theorem Makable.accept_pred (h : (pred (.extended n ext es ps)).Makable f s) :
    f.accept ext .predicate es.length ps.length = .ok () :=
  Language.accept_eq_ok_iff.2 ⟨h.registered ext rfl, h.formed.2.1, h.fits.2.2, h.formed.2.2⟩

namespace Remakable

theorem mono {s' : Store} {g : Formula} (h : g.Remakable f s) (k : s.Later s') : g.Remakable f s' :=
  ⟨h.formed, h.fits.mono k, h.accepted, h.factory⟩

theorem makable {g : Formula} (h : g.Remakable f s) : g.Makable f s := by
  refine ⟨h.formed, h.fits, fun ext hext => ?_⟩
  obtain ⟨f', hf', hfound⟩ := h.formed.registered hext
  exact h.factory f' hf' ▸ hfound

end Remakable
end Formula

/-- What a session holds can be made anew. -/
theorem Session.Moves.remakable {s : Store} {held : Set Formula} {f : Factory} {g : Formula}
    (h : Session.Moves .empty ∅ s held) (hg : g ∈ held) (hf : g.OfFactory f) :
    ∀ k ∈ g.nodes, k.Remakable f s := by
  intro k hk
  have hheld := g.nodes_subset h.sound.closed hg hk
  exact ⟨h.sound.formed k hheld, h.sound.fits k hheld, h.accepted k hheld, h.madeBy hg hf k hk⟩

def Declaration.Becomes (s t : Store) (b b' : Declaration) : Prop :=
  b'.name = b.name ∧ ∀ t', t.Grown t' → b'.type? t' = b.type? s

section

variable {s t t' : Store} {K : Store → Nat → Formula → Formula → Prop} {d : Nat} {g g' : Formula}
  {es es' : List Expr} {ps ps' : List Pred} {bs bs' : List Declaration}

theorem Declaration.Becomes.mono {b b' : Declaration} (h : b.Becomes s t b') (k : t.Grown t') :
    b.Becomes s t' b' := ⟨h.1, fun _ k' => h.2 _ (k.trans k')⟩

def Formula.Becomes (K : Store → Nat → Formula → Formula → Prop) (t : Store) (d : Nat) (g g' : Formula) : Prop :=
  ∀ t', t.Grown t' → g.Rebuilt (K t') d g'

theorem Formula.Becomes.mono (h : g.Becomes K t d g') (k : t.Grown t') : g.Becomes K t' d g' :=
  fun _ k' => h _ (k.trans k')

theorem Formula.becomes_exprs
    (h : List.Forall₂ (fun e e' => (Formula.expr e).Becomes K t d (.expr e')) es es') :
    List.Forall₂ (Formula.Becomes K t d) (es.map .expr) (es'.map .expr) :=
  List.forall₂_map_left_iff.2 (List.forall₂_map_right_iff.2 h)

theorem Formula.becomes_preds
    (h : List.Forall₂ (fun p p' => (Formula.pred p).Becomes K t d (.pred p')) ps ps') :
    List.Forall₂ (Formula.Becomes K t d) (ps.map .pred) (ps'.map .pred) :=
  List.forall₂_map_left_iff.2 (List.forall₂_map_right_iff.2 h)

theorem Formula.becomes_decls
    (h : List.Forall₂ (fun b b' => (Formula.decl b).Becomes K t d (.decl b')) bs bs') :
    List.Forall₂ (Formula.Becomes K t d) (bs.map .decl) (bs'.map .decl) :=
  List.forall₂_map_left_iff.2 (List.forall₂_map_right_iff.2 h)

theorem Expr.allRebuilt_of_becomes
    (h : List.Forall₂ (fun e e' => (Formula.expr e).Becomes K t d (.expr e')) es es') (k : t.Grown t') :
    Expr.AllRebuilt (K t') d es es' := Expr.allRebuilt_iff.2 (h.imp fun _ _ he => he t' k)

theorem Pred.allRebuilt_of_becomes
    (h : List.Forall₂ (fun p p' => (Formula.pred p).Becomes K t d (.pred p')) ps ps') (k : t.Grown t') :
    Pred.AllRebuilt (K t') d ps ps' := Pred.allRebuilt_iff.2 (h.imp fun _ _ hp => hp t' k)

end

def Expr.given? (s : Store) (e : Expr) : Option Ty :=
  match e with
  | .binary .. | .unary .. | .assoc .. | .bool .. | .quantified .. => none
  | .atom .. | .set .. | .bound .. | .free .. | .extended .. => (e.type? s).or e.explicit?

/-- An expression made anew: by the same rule, with the given type, over what has become of the parts. It is
typed as construction types it. -/
structure Expr.Remade (K : Nat → Formula → Formula → Prop) (f : Factory) (s t : Store) (d : Nat) (e e' : Expr) :
    Prop where
  factory : e'.factory = f
  fitting : e'.Fitting
  exact : (Formula.expr e').Exact t
  scheme : e'.scheme = e.scheme
  explicit : e'.explicit? = e.given? s
  parts : List.Forall₂ (K (d + (Formula.expr e).declared.length)) e.children e'.children
  operands : List.Forall₂ (fun a a' => K (d + (Formula.expr e).declared.length) (.expr a) (.expr a'))
    e.operands e'.operands

structure Pred.Remade (K : Nat → Formula → Formula → Prop) (f : Factory) (t : Store) (d : Nat) (p p' : Pred) :
    Prop where
  factory : p'.factory = f
  fitting : p'.Fitting
  exact : (Formula.pred p').Exact t
  scheme : p'.scheme = p.scheme
  parts : List.Forall₂ (K (d + (Formula.pred p).declared.length)) p.children p'.children
  operands : List.Forall₂ (fun a a' => K (d + (Formula.pred p).declared.length) (.expr a) (.expr a'))
    p.operands p'.operands

namespace Rebuilder

/-- The parts of what is held below so many declarations are held below these and the declarations of their own. -/
def ClosedBelow (held : Nat → Set Formula) : Prop :=
  ∀ d, ∀ g ∈ held d, ∀ k ∈ g.parts, k ∈ held (d + g.declared.length)

theorem ClosedBelow.of_closedSet {held : Set Formula} (h : ClosedSet held) : ClosedBelow fun _ => held :=
  fun _ g hg k hk => h g hg k (g.parts_subset_components hk)

/-- The rebuilder replaces identifiers at most, and what it makes of nodes goes with them as `K` says, where nodes
are held below so many declarations. The types of the formula stand in `s`, those of what is made in later
stores. -/
structure Respects (r : Rebuilder Build) (s : Store) (held : Nat → Set Formula)
    (K : Store → Nat → Formula → Formula → Prop) : Prop where
  type : r.type = pure
  extended : ∀ e ext es ps o, r.extended e ext es ps o = r.factory.extendedExpr ext es ps o
  factory : ∀ t d g g', K t d g g' → ∀ h, g'.factory? = some h → h = r.factory
  free : ∀ n x u t d, .expr (.free n x u) ∈ held d → s.Grown t →
    Succeeds (r.free x ((Expr.free n x u).given? s)) t fun e t' =>
      t.Grown t' ∧ ∀ t'', t'.Grown t'' → K t'' d (.expr (.free n x u)) (.expr e)
  bound : ∀ n i u t d, .expr (.bound n i u) ∈ held d → s.Grown t →
    Succeeds (r.bound i d ((Expr.bound n i u).given? s)) t fun e t' =>
      t.Grown t' ∧ ∀ t'', t'.Grown t'' → K t'' d (.expr (.bound n i u)) (.expr e)
  decl : ∀ b b' t d, .decl b ∈ held d → b.Becomes s t b' → K t d (.decl b) (.decl b')
  expr : ∀ e e' t t' d, .expr e ∈ held d → ¬ (Formula.expr e).IsIdentifier → s.Grown t →
    e.Remade (K t) r.factory s t d e' → t.Grown t' → K t' d (.expr e) (.expr e')
  pred : ∀ p p' t t' d, .pred p ∈ held d → s.Grown t → p.Remade (K t) r.factory t d p' → t.Grown t' →
    K t' d (.pred p) (.pred p')

variable {r : Rebuilder Build} {s t : Store} {held : Nat → Set Formula}
  {K : Store → Nat → Formula → Formula → Prop} {d : Nat}

theorem Respects.becomes_decls (hr : r.Respects s held K) {bs bs' : List Declaration}
    (hbs : ∀ b ∈ bs, .decl b ∈ held d) (h : List.Forall₂ (Declaration.Becomes s t) bs bs') :
    List.Forall₂ (fun b b' => (Formula.decl b).Becomes K t d (.decl b')) bs bs' :=
  List.forall₂_iff_zip.2 ⟨h.length_eq, fun hmem => fun _ k =>
    hr.decl _ _ _ _ (hbs _ (List.of_mem_zip hmem).1) ((List.forall₂_iff_zip.1 h).2 hmem |>.mono k)⟩

theorem run_optType (hr : r.type = pure) (o : Option Ty) (t : Store) : (r.optType o).run t = (.ok o, t) := by
  cases o with
  | none => rfl
  | some T =>
    rw [optType, hr]
    rfl

theorem run_nodeType (hr : r.type = pure) (e : Expr) (t : Store) :
    (r.nodeType s e).run t = (.ok ((e.type? s).or e.explicit?), t) := run_optType hr _ t

theorem succeeds_declare {b : Declaration} {name : String} {o : Option Ty} (hname : name = b.name)
    (ho : o = b.type? s) : Succeeds (Build.declare name o) t fun b' t' => t.Grown t' ∧ b.Becomes s t' b' := by
  refine ⟨_, _, rfl, t.grown_push o, hname, fun t' k => ?_⟩
  have hslot : t.types.size < (t.types.push o).size := by simp
  rw [← ho]
  refine (k.type? t.types.size hslot).trans ?_
  simp [Store.type?]

theorem succeeds_decls (hr : r.type = pure) (bs : List Declaration) (t : Store) :
    Succeeds (r.decls s bs) t fun bs' t' => t.Grown t' ∧ List.Forall₂ (Declaration.Becomes s t') bs bs' := by
  induction bs generalizing t with
  | nil => exact Succeeds.pure ⟨.refl t, .nil⟩
  | cons b bs ih =>
    have hdecl : Succeeds (r.decl s b) t fun b' t' => t.Grown t' ∧ b.Becomes s t' b' :=
      Succeeds.bind_run (run_optType hr _ t) (succeeds_declare rfl rfl)
    refine hdecl.bind fun b' t₁ h₁ => (ih t₁).bind fun bs' t₂ h₂ => ?_
    exact Succeeds.pure ⟨h₁.1.trans h₂.1, .cons (h₁.2.mono h₂.1) h₂.2⟩

/-- Declarations are copied into the node that declares them. -/
theorem succeeds_copies {bs bs' : List Declaration} (h : List.Forall₂ (Declaration.Becomes s t) bs bs') :
    Succeeds (bs'.mapM Build.copy) t fun bs'' t' =>
      t.Grown t' ∧ List.Forall₂ (Declaration.Becomes s t') bs bs'' := by
  induction bs' generalizing bs t with
  | nil =>
    cases h
    exact Succeeds.pure ⟨.refl t, .nil⟩
  | cons b' bs' ih =>
    obtain ⟨b, bs, hb, hbs, rfl⟩ := List.forall₂_cons_right_iff.1 h
    rw [List.mapM_cons]
    have hcopy : Succeeds (Build.copy b') t fun b'' t' => t.Grown t' ∧ b.Becomes s t' b'' :=
      Succeeds.bind_run (run_get t) (succeeds_declare hb.1 (hb.2 t (.refl t)))
    refine hcopy.bind fun b'' t₁ h₁ => (ih (hbs.imp fun _ _ hc => hc.mono h₁.1)).bind fun bs'' t₂ h₂ => ?_
    exact Succeeds.pure ⟨h₁.1.trans h₂.1, .cons (h₁.2.mono h₂.1) h₂.2⟩

/-- A node over what has become of the parts of a node. -/
theorem succeeds_made (hr : r.Respects s held K) {e : Expr} (he : .expr e ∈ held d)
    (hid : ¬ (Formula.expr e).IsIdentifier) (ht : s.Grown t) (make : Node → Expr) (hnode : ∀ n, (make n).node = n)
    (hfits : ∀ n, (make n).Fitting)
    (hlike : ∀ n, (make n).scheme = e.scheme ∧ (make n).explicit? = e.given? s)
    (hparts : ∀ n, List.Forall₂
      (Formula.Becomes K t (d + (Formula.expr e).declared.length)) e.children (make n).children)
    (hoperands : ∀ n, List.Forall₂ (fun a a' =>
      (Formula.expr a).Becomes K t (d + (Formula.expr e).declared.length) (.expr a')) e.operands (make n).operands)
    (hrebuilt : ∀ n t', t.Grown t' → K t' d (.expr e) (.expr (make n)) → e.Rebuilt (K t') d (make n)) :
    Succeeds (Build.expr r.factory make) t fun e' t' =>
      t.Grown t' ∧ (Formula.expr e).Becomes K t' d (.expr e') := by
  have hmakes := Build.makes_expr (s := t) (f := r.factory) make hnode hfits
  refine ((Build.succeeds_node make hnode (fun n g hg => ?_) hfits).and_yields hmakes.value).mono
    fun e' t' h => ?_
  · rw [Expr.partFactories_eq] at hg
    obtain ⟨c', hc', hfactory⟩ := List.mem_filterMap.1 hg
    obtain ⟨c, -, hc⟩ := forall₂_exists_right (hparts n).flip hc'
    exact hr.factory _ _ _ _ (hc t (.refl t)).node g hfactory
  · obtain ⟨⟨⟨n, rfl, hn⟩, hgrown⟩, hexact⟩ := h
    refine ⟨hgrown, fun t'' k => hrebuilt n t'' (hgrown.trans k) ?_⟩
    exact hr.expr _ _ t' t'' d he hid (ht.trans hgrown)
      { factory := by rw [Expr.factory, hnode, hn]
        fitting := hfits n
        exact := hexact
        scheme := (hlike n).1
        explicit := (hlike n).2
        parts := (hparts n).imp fun _ _ h => (h t' hgrown).node
        operands := (hoperands n).imp fun _ _ h => (h t' hgrown).node } k

theorem succeeds_madePred (hr : r.Respects s held K) {p : Pred} (hp : .pred p ∈ held d) (ht : s.Grown t)
    (make : Node → Pred) (hnode : ∀ n, (make n).node = n) (hfits : ∀ n, (make n).Fitting)
    (hlike : ∀ n, (make n).scheme = p.scheme)
    (hparts : ∀ n, List.Forall₂
      (Formula.Becomes K t (d + (Formula.pred p).declared.length)) p.children (make n).children)
    (hoperands : ∀ n, List.Forall₂ (fun a a' =>
      (Formula.expr a).Becomes K t (d + (Formula.pred p).declared.length) (.expr a')) p.operands (make n).operands)
    (hrebuilt : ∀ n t', t.Grown t' → K t' d (.pred p) (.pred (make n)) → p.Rebuilt (K t') d (make n)) :
    Succeeds (Build.pred r.factory make) t fun p' t' =>
      t.Grown t' ∧ (Formula.pred p).Becomes K t' d (.pred p') := by
  have hmakes := Build.makes_pred (s := t) (f := r.factory) make hnode hfits
  refine ((Build.succeeds_predNode make hnode (fun n g hg => ?_) hfits).and_yields hmakes.value).mono
    fun p' t' h => ?_
  · rw [Pred.partFactories_eq] at hg
    obtain ⟨c', hc', hfactory⟩ := List.mem_filterMap.1 hg
    obtain ⟨c, -, hc⟩ := forall₂_exists_right (hparts n).flip hc'
    exact hr.factory _ _ _ _ (hc t (.refl t)).node g hfactory
  · obtain ⟨⟨⟨n, rfl, hn⟩, hgrown⟩, hexact⟩ := h
    refine ⟨hgrown, fun t'' k => hrebuilt n t'' (hgrown.trans k) ?_⟩
    exact hr.pred _ _ t' t'' d hp (ht.trans hgrown)
      { factory := by rw [Pred.factory, hnode, hn]
        fitting := hfits n
        exact := hexact
        scheme := hlike n
        parts := (hparts n).imp fun _ _ h => (h t' hgrown).node
        operands := (hoperands n).imp fun _ _ h => (h t' hgrown).node } k

/-- Steps of a construction, one after the other. -/
theorem succeeds_bind {α β : Type} {x : Build α} {y : α → Build β} {P : α → Store → Prop}
    {Q : β → Store → Prop} (hx : Succeeds x t fun a t' => t.Grown t' ∧ P a t')
    (hy : ∀ a t', t.Grown t' → P a t' → Succeeds (y a) t' fun b t'' => t'.Grown t'' ∧ Q b t'') :
    Succeeds (x >>= y) t fun b t' => t.Grown t' ∧ Q b t' := hx.chain (fun h k => h.trans k) hy

theorem run_lift {α : Type} {x : Build α} {a : α} {t' : Store} (h : x.run t = (.ok a, t')) :
    (liftM x : Derive α).run t = (.ok a, t') := by
  have h : x t = (.ok a, t') := h
  change (x.run >>= fun r => _ : StateM Store _) t = _
  simp only [bind, StateT.bind, ExceptT.run, h]
  rfl

theorem succeeds_lift {α : Type} {x : Build α} {Q : α → Store → Prop} (h : Succeeds x t Q) :
    Succeeds (liftM x : Derive α) t Q := by
  obtain ⟨a, t', hrun, hQ⟩ := h
  exact ⟨a, t', run_lift hrun, hQ⟩

section

variable {f : Factory}

/-- What a factory accepted with so many children, it accepts again. -/
theorem succeeds_accepted {α : Type} {x : Build α} {Q : α → Store → Prop} {g : Language} {ext : Extension}
    {kind : ExtensionKind} {m n m' n' : Nat} (haccept : g.accept ext kind m n = .ok ()) (hm : m = m')
    (hn : n = n') (h : Succeeds x t Q) : Succeeds (do
      Build.lift (g.accept ext kind m' n')
      x) t Q := by
  subst hm hn
  rw [haccept]
  exact h

/-- Declarations are made anew for the node that declares them. -/
theorem succeeds_declaring {α : Type} {x : List Declaration → Build α} {Q : α → Store → Prop}
    {bs bs' : List Declaration} {m : Misuse} (hne : bs ≠ [])
    (h : List.Forall₂ (Declaration.Becomes s t) bs bs')
    (k : ∀ bs'' t', t.Grown t' → List.Forall₂ (Declaration.Becomes s t') bs bs'' →
      Succeeds (x bs'') t' fun a t'' => t'.Grown t'' ∧ Q a t'') : Succeeds (do
      Build.require (!bs'.isEmpty) m
      let bs'' ← bs'.mapM Build.copy
      x bs'') t fun a t' => t.Grown t' ∧ Q a t' := by
  refine Build.succeeds_required ?_ (succeeds_bind (succeeds_copies h) k)
  rw [Bool.not_eq_true', List.isEmpty_eq_false_iff]
  exact ne_nil_of_forall₂ h hne

end

mutual

/-- Rebuilding an expression. -/
theorem succeeds_expr (hr : r.Respects s held K) (hclosed : ClosedBelow held)
    (hheld : ∀ {d g}, g ∈ held d → g.Makable r.factory s) : ∀ (e : Expr) (d : Nat) (t : Store), s.Grown t →
      .expr e ∈ held d → Succeeds (r.expr s d e) t fun e' t' =>
        t.Grown t' ∧ (Formula.expr e).Becomes K t' d (.expr e')
  | .binary n op a b, d, t, ht, he => by
    have ha := hclosed _ _ he (.expr a) List.mem_cons_self
    have hb := hclosed _ _ he (.expr b) (List.mem_cons_of_mem _ List.mem_cons_self)
    refine Succeeds.bind_run (run_nodeType hr.type _ t) ?_
    refine succeeds_bind (succeeds_expr hr hclosed hheld a d t ht ha) fun a' t₁ k₁ ha' => ?_
    refine succeeds_bind (succeeds_expr hr hclosed hheld b d t₁ (ht.trans k₁) hb) fun b' t₂ k₂ hb' => ?_
    have ha' := ha'.mono k₂
    exact succeeds_made hr he id ((ht.trans k₁).trans k₂) (.binary · op a' b') (fun _ => rfl) (fun _ => trivial)
      (fun _ => ⟨rfl, rfl⟩) (fun _ => .cons ha' (.cons hb' .nil)) (fun _ => .cons ha' (.cons hb' .nil))
      fun _ t' k hK => .binary hK (ha' t' k) (hb' t' k)
  | .unary n op a, d, t, ht, he => by
    have ha := hclosed _ _ he (.expr a) List.mem_cons_self
    refine Succeeds.bind_run (run_nodeType hr.type _ t) ?_
    refine succeeds_bind (succeeds_expr hr hclosed hheld a d t ht ha) fun a' t₁ k₁ ha' => ?_
    exact succeeds_made hr he id (ht.trans k₁) (.unary · op a') (fun _ => rfl) (fun _ => trivial)
      (fun _ => ⟨rfl, rfl⟩) (fun _ => .cons ha' .nil) (fun _ => .cons ha' .nil)
      fun _ t' k hK => .unary hK (ha' t' k)
  | .assoc n op es, d, t, ht, he => by
    have hes : ∀ e ∈ es, .expr e ∈ held d := fun e h => hclosed _ _ he _ (List.mem_map_of_mem h)
    refine Succeeds.bind_run (run_nodeType hr.type _ t) ?_
    refine succeeds_bind (succeeds_exprs hr hclosed hheld es d t ht hes) fun es' t₁ k₁ hes' => ?_
    have hlen : 2 ≤ es'.length := hes'.length_eq ▸ (hheld he).formed
    exact Build.succeeds_required (decide_eq_true hlen) <| succeeds_made hr he id (ht.trans k₁) (.assoc · op es')
      (fun _ => rfl) (fun _ => trivial) (fun _ => ⟨rfl, rfl⟩) (fun _ => Formula.becomes_exprs hes') (fun _ => hes')
      fun _ t' k hK => .assoc hK (Expr.allRebuilt_of_becomes hes' k)
  | .atom n a o, d, t, ht, he => by
    refine Succeeds.bind_run (run_nodeType hr.type _ t) ?_
    exact succeeds_made hr he id ht (.atom · a _) (fun _ => rfl) (fun _ => trivial) (fun _ => ⟨rfl, rfl⟩)
      (fun _ => .nil) (fun _ => .nil)
      fun _ t' k hK => .atom hK
  | .set n es o, d, t, ht, he => by
    have hes : ∀ e ∈ es, .expr e ∈ held d := fun e h => hclosed _ _ he _ (List.mem_map_of_mem h)
    refine Succeeds.bind_run (run_nodeType hr.type _ t) ?_
    refine succeeds_bind (succeeds_exprs hr hclosed hheld es d t ht hes) fun es' t₁ k₁ hes' => ?_
    exact succeeds_made hr he id (ht.trans k₁) (.set · es' _) (fun _ => rfl) (fun _ => trivial)
      (fun _ => ⟨rfl, rfl⟩) (fun _ => Formula.becomes_exprs hes') (fun _ => hes')
      fun _ t' k hK => .set hK (Expr.allRebuilt_of_becomes hes' k)
  | .bool n p, d, t, ht, he => by
    have hp := hclosed _ _ he (.pred p) List.mem_cons_self
    refine Succeeds.bind_run (run_nodeType hr.type _ t) ?_
    refine succeeds_bind (succeeds_pred hr hclosed hheld p d t ht hp) fun p' t₁ k₁ hp' => ?_
    exact succeeds_made hr he id (ht.trans k₁) (.bool · p') (fun _ => rfl) (fun _ => trivial)
      (fun _ => ⟨rfl, rfl⟩) (fun _ => .cons hp' .nil) (fun _ => .nil)
      fun _ t' k hK => .bool hK (hp' t' k)
  | .quantified n op bs p e, d, t, ht, he => by
    have hbs : ∀ b ∈ bs, .decl b ∈ held (d + bs.length) := fun b h =>
      hclosed _ _ he _ (List.mem_append_left _ (List.mem_map_of_mem h))
    have hp := hclosed _ _ he (.pred p) (List.mem_append_right _ List.mem_cons_self)
    have hbody := hclosed _ _ he (.expr e)
      (List.mem_append_right _ (List.mem_cons_of_mem _ List.mem_cons_self))
    refine Succeeds.bind_run (run_nodeType hr.type _ t) ?_
    refine succeeds_bind (succeeds_decls hr.type bs t) fun bs' t₁ k₁ hbs' => ?_
    have ht₁ := ht.trans k₁
    refine succeeds_bind (succeeds_pred hr hclosed hheld p _ t₁ ht₁ hp) fun p' t₂ k₂ hp' => ?_
    have ht₂ := ht₁.trans k₂
    refine succeeds_bind (succeeds_expr hr hclosed hheld e _ t₂ ht₂ hbody) fun e' t₃ k₃ he' => ?_
    have hbs' := hbs'.imp fun _ _ hb => hb.mono (k₂.trans k₃)
    refine succeeds_declaring (x := fun bs'' => Build.expr r.factory (.quantified · op bs'' p' e'))
      (hheld he).formed hbs' fun bs'' t₄ k₄ hbs'' => ?_
    have hdecls := hr.becomes_decls (d := d + bs.length) hbs hbs''
    have hp' := hp'.mono (k₃.trans k₄)
    have he' := he'.mono k₄
    exact succeeds_made hr he id ((ht₂.trans k₃).trans k₄) (.quantified · op bs'' p' e') (fun _ => rfl)
      (fun _ => trivial) (fun _ => ⟨rfl, rfl⟩)
      (fun _ => List.rel_append (Formula.becomes_decls hdecls) (.cons hp' (.cons he' .nil)))
      (fun _ => .cons he' .nil)
      fun _ t' k hK => .quantified hK (hdecls.imp fun _ _ hb => hb t' k)
      (hp' t' k) (he' t' k)
  | .bound n i o, d, t, ht, he => by
    refine Succeeds.bind_run (run_nodeType hr.type _ t) ?_
    exact (hr.bound n i o t d he ht).mono fun _ _ h =>
      ⟨h.1, fun t' k => .identifier trivial (h.2 t' k)⟩
  | .free n x o, d, t, ht, he => by
    refine Succeeds.bind_run (run_nodeType hr.type _ t) ?_
    exact (hr.free n x o t d he ht).mono fun _ _ h =>
      ⟨h.1, fun t' k => .identifier trivial (h.2 t' k)⟩
  | .extended n ext es ps o, d, t, ht, he => by
    have hes : ∀ e ∈ es, .expr e ∈ held d := fun e h =>
      hclosed _ _ he _ (List.mem_append_left _ (List.mem_map_of_mem h))
    have hps : ∀ p ∈ ps, .pred p ∈ held d := fun p h =>
      hclosed _ _ he _ (List.mem_append_right _ (List.mem_map_of_mem h))
    refine Succeeds.bind_run (run_nodeType hr.type _ t) ?_
    refine succeeds_bind (succeeds_exprs hr hclosed hheld es d t ht hes) fun es' t₁ k₁ hes' => ?_
    refine succeeds_bind (succeeds_preds hr hclosed hheld ps d t₁ (ht.trans k₁) hps)
      fun ps' t₂ k₂ hps' => ?_
    have hes' := hes'.imp fun _ _ h => h.mono k₂
    rw [hr.extended]
    exact succeeds_accepted ((hheld he).accept_expr) hes'.length_eq hps'.length_eq <|
      succeeds_made hr he id ((ht.trans k₁).trans k₂) (.extended · ext es' ps' _) (fun _ => rfl)
        (fun _ => ⟨(hheld he).fits.2.1, hes'.length_eq ▸ (hheld he).fits.2.2⟩) (fun _ => ⟨rfl, rfl⟩)
        (fun _ => List.rel_append (Formula.becomes_exprs hes') (Formula.becomes_preds hps')) (fun _ => hes')
      fun _ t' k hK => .extended hK (Expr.allRebuilt_of_becomes hes' k)
      (Pred.allRebuilt_of_becomes hps' k)

theorem succeeds_exprs (hr : r.Respects s held K) (hclosed : ClosedBelow held)
    (hheld : ∀ {d g}, g ∈ held d → g.Makable r.factory s) : ∀ (es : List Expr) (d : Nat) (t : Store), s.Grown t →
      (∀ e ∈ es, .expr e ∈ held d) → Succeeds (r.exprs s d es) t fun es' t' =>
        t.Grown t' ∧ List.Forall₂ (fun e e' => (Formula.expr e).Becomes K t' d (.expr e')) es es'
  | [], _, t, _, _ => Succeeds.pure ⟨.refl t, .nil⟩
  | e :: es, d, t, ht, hes => by
    rw [List.forall_mem_cons] at hes
    refine succeeds_bind (succeeds_expr hr hclosed hheld e d t ht hes.1) fun e' t₁ k₁ he' => ?_
    refine succeeds_bind (succeeds_exprs hr hclosed hheld es d t₁ (ht.trans k₁) hes.2)
      fun es' t₂ k₂ hes' => ?_
    exact Succeeds.pure ⟨.refl t₂, .cons (he'.mono k₂) hes'⟩

theorem succeeds_pred (hr : r.Respects s held K) (hclosed : ClosedBelow held)
    (hheld : ∀ {d g}, g ∈ held d → g.Makable r.factory s) : ∀ (p : Pred) (d : Nat) (t : Store), s.Grown t →
      .pred p ∈ held d → Succeeds (r.pred s d p) t fun p' t' =>
        t.Grown t' ∧ (Formula.pred p).Becomes K t' d (.pred p')
  | .literal n b, d, t, ht, hp => succeeds_madePred hr hp ht (.literal · b) (fun _ => rfl) (fun _ => trivial)
      (fun _ => rfl) (fun _ => .nil) (fun _ => .nil) fun _ t' k hK => .literal hK
  | .not n p, d, t, ht, hp => by
    have hq := hclosed _ _ hp (.pred p) List.mem_cons_self
    refine succeeds_bind (succeeds_pred hr hclosed hheld p d t ht hq) fun p' t₁ k₁ hp' => ?_
    exact succeeds_madePred hr hp (ht.trans k₁) (.not · p') (fun _ => rfl) (fun _ => trivial)
      (fun _ => rfl) (fun _ => .cons hp' .nil) (fun _ => .nil)
      fun _ t' k hK => .not hK (hp' t' k)
  | .connective n op p q, d, t, ht, hpq => by
    have hp := hclosed _ _ hpq (.pred p) List.mem_cons_self
    have hq := hclosed _ _ hpq (.pred q) (List.mem_cons_of_mem _ List.mem_cons_self)
    refine succeeds_bind (succeeds_pred hr hclosed hheld p d t ht hp) fun p' t₁ k₁ hp' => ?_
    refine succeeds_bind (succeeds_pred hr hclosed hheld q d t₁ (ht.trans k₁) hq) fun q' t₂ k₂ hq' => ?_
    have hp' := hp'.mono k₂
    exact succeeds_madePred hr hpq ((ht.trans k₁).trans k₂) (.connective · op p' q') (fun _ => rfl)
      (fun _ => trivial) (fun _ => rfl) (fun _ => .cons hp' (.cons hq' .nil)) (fun _ => .nil)
      fun _ t' k hK => .connective hK (hp' t' k) (hq' t' k)
  | .junction n op ps, d, t, ht, hp => by
    have hps : ∀ p ∈ ps, .pred p ∈ held d := fun p h => hclosed _ _ hp _ (List.mem_map_of_mem h)
    refine succeeds_bind (succeeds_preds hr hclosed hheld ps d t ht hps) fun ps' t₁ k₁ hps' => ?_
    have hlen : 2 ≤ ps'.length := hps'.length_eq ▸ (hheld hp).formed
    exact Build.succeeds_required (decide_eq_true hlen) <| succeeds_madePred hr hp (ht.trans k₁)
      (.junction · op ps') (fun _ => rfl) (fun _ => trivial) (fun _ => rfl)
      (fun _ => Formula.becomes_preds hps') (fun _ => .nil)
      fun _ t' k hK => .junction hK (Pred.allRebuilt_of_becomes hps' k)
  | .comparison n op a b, d, t, ht, hp => by
    have ha := hclosed _ _ hp (.expr a) List.mem_cons_self
    have hb := hclosed _ _ hp (.expr b) (List.mem_cons_of_mem _ List.mem_cons_self)
    refine succeeds_bind (succeeds_expr hr hclosed hheld a d t ht ha) fun a' t₁ k₁ ha' => ?_
    refine succeeds_bind (succeeds_expr hr hclosed hheld b d t₁ (ht.trans k₁) hb) fun b' t₂ k₂ hb' => ?_
    have ha' := ha'.mono k₂
    exact succeeds_madePred hr hp ((ht.trans k₁).trans k₂) (.comparison · op a' b') (fun _ => rfl)
      (fun _ => trivial) (fun _ => rfl) (fun _ => .cons ha' (.cons hb' .nil))
      (fun _ => .cons ha' (.cons hb' .nil))
      fun _ t' k hK => .comparison hK (ha' t' k) (hb' t' k)
  | .partition n es, d, t, ht, hp => by
    have hes : ∀ e ∈ es, .expr e ∈ held d := fun e h => hclosed _ _ hp _ (List.mem_map_of_mem h)
    refine succeeds_bind (succeeds_exprs hr hclosed hheld es d t ht hes) fun es' t₁ k₁ hes' => ?_
    have hne : es' ≠ [] := ne_nil_of_forall₂ hes' (hheld hp).formed
    exact Build.succeeds_required (by simpa using hne) <| succeeds_madePred hr hp (ht.trans k₁)
      (.partition · es') (fun _ => rfl) (fun _ => trivial) (fun _ => rfl)
      (fun _ => Formula.becomes_exprs hes') (fun _ => hes')
      fun _ t' k hK => .partition hK (Expr.allRebuilt_of_becomes hes' k)
  | .quantified n op bs p, d, t, ht, hq => by
    have hbs : ∀ b ∈ bs, .decl b ∈ held (d + bs.length) := fun b h =>
      hclosed _ _ hq _ (List.mem_append_left _ (List.mem_map_of_mem h))
    have hp := hclosed _ _ hq (.pred p) (List.mem_append_right _ List.mem_cons_self)
    refine succeeds_bind (succeeds_decls hr.type bs t) fun bs' t₁ k₁ hbs' => ?_
    have ht₁ := ht.trans k₁
    refine succeeds_bind (succeeds_pred hr hclosed hheld p _ t₁ ht₁ hp) fun p' t₂ k₂ hp' => ?_
    have ht₂ := ht₁.trans k₂
    have hbs' := hbs'.imp fun _ _ hb => hb.mono k₂
    refine succeeds_declaring (x := fun bs'' => Build.pred r.factory (.quantified · op bs'' p'))
      (hheld hq).formed hbs' fun bs'' t₃ k₃ hbs'' => ?_
    have hdecls := hr.becomes_decls (d := d + bs.length) hbs hbs''
    have hp' := hp'.mono k₃
    exact succeeds_madePred hr hq (ht₂.trans k₃) (.quantified · op bs'' p') (fun _ => rfl) (fun _ => trivial)
      (fun _ => rfl) (fun _ => List.rel_append (Formula.becomes_decls hdecls) (.cons hp' .nil)) (fun _ => .nil)
      fun _ t' k hK => .quantified hK (hdecls.imp fun _ _ hb => hb t' k)
      (hp' t' k)
  | .extended n ext es ps, d, t, ht, hp => by
    have hes : ∀ e ∈ es, .expr e ∈ held d := fun e h =>
      hclosed _ _ hp _ (List.mem_append_left _ (List.mem_map_of_mem h))
    have hps : ∀ p ∈ ps, .pred p ∈ held d := fun p h =>
      hclosed _ _ hp _ (List.mem_append_right _ (List.mem_map_of_mem h))
    refine succeeds_bind (succeeds_exprs hr hclosed hheld es d t ht hes) fun es' t₁ k₁ hes' => ?_
    refine succeeds_bind (succeeds_preds hr hclosed hheld ps d t₁ (ht.trans k₁) hps)
      fun ps' t₂ k₂ hps' => ?_
    have hes' := hes'.imp fun _ _ h => h.mono k₂
    exact succeeds_accepted ((hheld hp).accept_pred) hes'.length_eq hps'.length_eq <|
      succeeds_madePred hr hp ((ht.trans k₁).trans k₂) (.extended · ext es' ps') (fun _ => rfl)
        (fun _ => ⟨(hheld hp).fits.2.1, hes'.length_eq ▸ (hheld hp).fits.2.2⟩) (fun _ => rfl)
        (fun _ => List.rel_append (Formula.becomes_exprs hes') (Formula.becomes_preds hps')) (fun _ => hes')
      fun _ t' k hK => .extended hK (Expr.allRebuilt_of_becomes hes' k)
      (Pred.allRebuilt_of_becomes hps' k)

theorem succeeds_preds (hr : r.Respects s held K) (hclosed : ClosedBelow held)
    (hheld : ∀ {d g}, g ∈ held d → g.Makable r.factory s) : ∀ (ps : List Pred) (d : Nat) (t : Store), s.Grown t →
      (∀ p ∈ ps, .pred p ∈ held d) → Succeeds (r.preds s d ps) t fun ps' t' =>
        t.Grown t' ∧ List.Forall₂ (fun p p' => (Formula.pred p).Becomes K t' d (.pred p')) ps ps'
  | [], _, t, _, _ => Succeeds.pure ⟨.refl t, .nil⟩
  | p :: ps, d, t, ht, hps => by
    rw [List.forall_mem_cons] at hps
    refine succeeds_bind (succeeds_pred hr hclosed hheld p d t ht hps.1) fun p' t₁ k₁ hp' => ?_
    refine succeeds_bind (succeeds_preds hr hclosed hheld ps d t₁ (ht.trans k₁) hps.2)
      fun ps' t₂ k₂ hps' => ?_
    exact Succeeds.pure ⟨.refl t₂, .cons (hp'.mono k₂) hps'⟩

end

/-- Rebuilding a formula that is no assignment. -/
theorem succeeds_formula {held : Set Formula} (hr : r.Respects s (fun _ => held) K) (hclosed : ClosedSet held)
    (hheld : ∀ g ∈ held, g.Remakable r.factory s) {f : Formula} (hf : f ∈ held) (ha : f.isAssignment = false) :
    Succeeds (r.formula f) s fun g t => s.Grown t ∧ f.Rebuilt (K t) 0 g := by
  have hbelow := ClosedBelow.of_closedSet hclosed
  have hheld : ∀ {g}, g ∈ held → g.Makable r.factory s := fun hg => (hheld _ hg).makable
  refine Succeeds.bind_run rfl ?_
  cases f with
  | assignment a => cases ha
  | expr e =>
    refine succeeds_lift (Succeeds.map ((succeeds_expr hr hbelow hheld e 0 s (.refl s) hf).mono ?_))
    exact fun e' t h => ⟨h.1, h.2 t (.refl t)⟩
  | pred p =>
    refine succeeds_lift (Succeeds.map ((succeeds_pred hr hbelow hheld p 0 s (.refl s) hf).mono ?_))
    exact fun p' t h => ⟨h.1, h.2 t (.refl t)⟩
  | decl b =>
    refine succeeds_lift (Succeeds.map (Succeeds.bind_run (run_optType hr.type _ s) ?_))
    exact (succeeds_declare rfl rfl).mono fun b' t h => ⟨h.1, hr.decl _ _ _ _ hf h.2⟩

end Rebuilder

/-- What a rebuilder makes of a node if it replaces identifiers alone: identifiers become what `Leaf` says, and
declarations keep names and types. -/
structure Formula.Replaced (Leaf : Nat → Expr → Expr → Prop) (f : Factory) (held : Nat → Set Formula)
    (s t : Store) (d : Nat) (g g' : Formula) : Prop where
  source : g ∈ held d
  factory : ∀ h, g'.factory? = some h → h = f
  leaf : ∀ e, g = .expr e → g.IsIdentifier → ∃ e', g' = .expr e' ∧ Leaf d e e'
  decl : ∀ b, g = .decl b → ∃ b', g' = .decl b' ∧ b'.name = b.name ∧ b'.type? t = b.type? s

namespace Rebuilder

variable {r : Rebuilder Build} {s : Store} {held : Nat → Set Formula} {Leaf : Nat → Expr → Expr → Prop}

/-- A rebuilder that copies all but identifiers. -/
theorem respects_replaced (htype : r.type = pure)
    (hextended : ∀ e ext es ps o, r.extended e ext es ps o = r.factory.extendedExpr ext es ps o)
    (hfree : ∀ n x u o t d, Succeeds (r.free x o) t fun e t' =>
      t.Grown t' ∧ e.factory = r.factory ∧ Leaf d (.free n x u) e)
    (hbound : ∀ n i u o t d, Succeeds (r.bound i d o) t fun e t' =>
      t.Grown t' ∧ e.factory = r.factory ∧ Leaf d (.bound n i u) e) :
    r.Respects s held (Formula.Replaced Leaf r.factory held s) where
  type := htype
  extended := hextended
  factory _ _ _ _ h := h.factory
  free n x u t d hx _ := (hfree n x u _ t d).mono fun e t' h => by
    refine ⟨h.1, fun t'' _ => ⟨hx, ?_, ?_, ?_⟩⟩
    · rintro _ ⟨⟩
      exact h.2.1
    · rintro _ ⟨⟩ _
      exact ⟨e, rfl, h.2.2⟩
    · rintro b ⟨⟩
  bound n i u t d hi _ := (hbound n i u _ t d).mono fun e t' h => by
    refine ⟨h.1, fun t'' _ => ⟨hi, ?_, ?_, ?_⟩⟩
    · rintro _ ⟨⟩
      exact h.2.1
    · rintro _ ⟨⟩ _
      exact ⟨e, rfl, h.2.2⟩
    · rintro b ⟨⟩
  decl b b' t d hb h := by
    refine ⟨hb, ?_, ?_, ?_⟩
    · rintro _ ⟨⟩
    · rintro e ⟨⟩
    · rintro _ ⟨⟩
      exact ⟨b', rfl, h.1, h.2 t (.refl t)⟩
  expr e e' t t' d he hid _ h _ := by
    refine ⟨he, ?_, ?_, nofun⟩
    · rintro _ ⟨⟩
      exact h.factory
    · rintro _ ⟨⟩ hid'
      exact absurd hid' hid
  pred p p' t t' d hp _ h _ := by
    refine ⟨hp, ?_, nofun, nofun⟩
    rintro _ ⟨⟩
    exact h.factory

end Rebuilder
end SetLang
