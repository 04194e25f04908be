import SetLang.Proofs.Equality
import SetLang.Proofs.Path
import SetLang.Proofs.Session.Accepted
import SetLang.Proofs.Session.Conditions
import SetLang.Rebuild

/-! Rebuilding. Everything but the identifiers of a formula is made anew as it was, over rebuilt parts. What is
asked of a node and of what has become of it is left open: it is shown once that rebuilding ends, and that
what it gives goes with its source node by node. -/

namespace SetLang

section

variable (K : Nat → Formula → Formula → Prop)

mutual

/-- What becomes of an expression below so many declarations. `K` holds of each node and of what has become of
it; that says all of an identifier, and any other node stays as it is over rebuilt parts. -/
inductive Expr.Rebuilt : Nat → Expr → Expr → Prop
  | identifier {d : Nat} {e e' : Expr} : (Formula.expr e).IsIdentifier → K d (.expr e) (.expr e') →
    Expr.Rebuilt d e e'
  | binary {d : Nat} {n n' : Node} {op : BinaryOp} {a a' b b' : Expr} :
    K d (.expr (.binary n op a b)) (.expr (.binary n' op a' b')) → Expr.Rebuilt d a a' → Expr.Rebuilt d b b' →
    Expr.Rebuilt d (.binary n op a b) (.binary n' op a' b')
  | unary {d : Nat} {n n' : Node} {op : UnaryOp} {a a' : Expr} :
    K d (.expr (.unary n op a)) (.expr (.unary n' op a')) → Expr.Rebuilt d a a' →
    Expr.Rebuilt d (.unary n op a) (.unary n' op a')
  | assoc {d : Nat} {n n' : Node} {op : AssocOp} {es es' : List Expr} :
    K d (.expr (.assoc n op es)) (.expr (.assoc n' op es')) → Expr.AllRebuilt d es es' →
    Expr.Rebuilt d (.assoc n op es) (.assoc n' op es')
  | atom {d : Nat} {n n' : Node} {a : Atom} {t t' : Option Ty} :
    K d (.expr (.atom n a t)) (.expr (.atom n' a t')) → Expr.Rebuilt d (.atom n a t) (.atom n' a t')
  | set {d : Nat} {n n' : Node} {es es' : List Expr} {t t' : Option Ty} :
    K d (.expr (.set n es t)) (.expr (.set n' es' t')) → Expr.AllRebuilt d es es' →
    Expr.Rebuilt d (.set n es t) (.set n' es' t')
  | bool {d : Nat} {n n' : Node} {p p' : Pred} :
    K d (.expr (.bool n p)) (.expr (.bool n' p')) → Pred.Rebuilt d p p' → Expr.Rebuilt d (.bool n p) (.bool n' p')
  | quantified {d : Nat} {n n' : Node} {op : SetBinder} {bs bs' : List Declaration} {p p' : Pred}
    {e e' : Expr} : K d (.expr (.quantified n op bs p e)) (.expr (.quantified n' op bs' p' e')) →
    List.Forall₂ (fun b b' => K (d + bs.length) (.decl b) (.decl b')) bs bs' →
    Pred.Rebuilt (d + bs.length) p p' → Expr.Rebuilt (d + bs.length) e e' →
    Expr.Rebuilt d (.quantified n op bs p e) (.quantified n' op bs' p' e')
  | extended {d : Nat} {n n' : Node} {ext : Extension} {es es' : List Expr} {ps ps' : List Pred}
    {t t' : Option Ty} : K d (.expr (.extended n ext es ps t)) (.expr (.extended n' ext es' ps' t')) →
    Expr.AllRebuilt d es es' → Pred.AllRebuilt d ps ps' →
    Expr.Rebuilt d (.extended n ext es ps t) (.extended n' ext es' ps' t')

inductive Expr.AllRebuilt : Nat → List Expr → List Expr → Prop
  | nil {d : Nat} : Expr.AllRebuilt d [] []
  | cons {d : Nat} {e e' : Expr} {es es' : List Expr} : Expr.Rebuilt d e e' → Expr.AllRebuilt d es es' →
    Expr.AllRebuilt d (e :: es) (e' :: es')

inductive Pred.Rebuilt : Nat → Pred → Pred → Prop
  | literal {d : Nat} {n n' : Node} {b : Bool} :
    K d (.pred (.literal n b)) (.pred (.literal n' b)) → Pred.Rebuilt d (.literal n b) (.literal n' b)
  | not {d : Nat} {n n' : Node} {p p' : Pred} :
    K d (.pred (.not n p)) (.pred (.not n' p')) → Pred.Rebuilt d p p' → Pred.Rebuilt d (.not n p) (.not n' p')
  | connective {d : Nat} {n n' : Node} {op : Connective} {p p' q q' : Pred} :
    K d (.pred (.connective n op p q)) (.pred (.connective n' op p' q')) → Pred.Rebuilt d p p' →
    Pred.Rebuilt d q q' → Pred.Rebuilt d (.connective n op p q) (.connective n' op p' q')
  | junction {d : Nat} {n n' : Node} {op : Junction} {ps ps' : List Pred} :
    K d (.pred (.junction n op ps)) (.pred (.junction n' op ps')) → Pred.AllRebuilt d ps ps' →
    Pred.Rebuilt d (.junction n op ps) (.junction n' op ps')
  | comparison {d : Nat} {n n' : Node} {op : Comparison} {a a' b b' : Expr} :
    K d (.pred (.comparison n op a b)) (.pred (.comparison n' op a' b')) → Expr.Rebuilt d a a' →
    Expr.Rebuilt d b b' → Pred.Rebuilt d (.comparison n op a b) (.comparison n' op a' b')
  | partition {d : Nat} {n n' : Node} {es es' : List Expr} :
    K d (.pred (.partition n es)) (.pred (.partition n' es')) → Expr.AllRebuilt d es es' →
    Pred.Rebuilt d (.partition n es) (.partition n' es')
  | quantified {d : Nat} {n n' : Node} {op : Quantifier} {bs bs' : List Declaration} {p p' : Pred} :
    K d (.pred (.quantified n op bs p)) (.pred (.quantified n' op bs' p')) →
    List.Forall₂ (fun b b' => K (d + bs.length) (.decl b) (.decl b')) bs bs' →
    Pred.Rebuilt (d + bs.length) p p' → Pred.Rebuilt d (.quantified n op bs p) (.quantified n' op bs' p')
  | extended {d : Nat} {n n' : Node} {ext : Extension} {es es' : List Expr} {ps ps' : List Pred} :
    K d (.pred (.extended n ext es ps)) (.pred (.extended n' ext es' ps')) → Expr.AllRebuilt d es es' →
    Pred.AllRebuilt d ps ps' → Pred.Rebuilt d (.extended n ext es ps) (.extended n' ext es' ps')

inductive Pred.AllRebuilt : Nat → List Pred → List Pred → Prop
  | nil {d : Nat} : Pred.AllRebuilt d [] []
  | cons {d : Nat} {p p' : Pred} {ps ps' : List Pred} : Pred.Rebuilt d p p' → Pred.AllRebuilt d ps ps' →
    Pred.AllRebuilt d (p :: ps) (p' :: ps')

end

def Formula.Rebuilt (d : Nat) : Formula → Formula → Prop
  | expr e, expr e' => e.Rebuilt K d e'
  | pred p, pred p' => p.Rebuilt K d p'
  | decl b, decl b' => K d (.decl b) (.decl b')
  | _, _ => False

end

variable {K : Nat → Formula → Formula → Prop} {d : Nat} {f f' : Formula}

theorem Expr.allRebuilt_iff {es es' : List Expr} :
    Expr.AllRebuilt K d es es' ↔ List.Forall₂ (Expr.Rebuilt K d) es es' := by
  constructor
  · intro h
    induction es generalizing es' with
    | nil =>
      cases h
      exact .nil
    | cons e es ih =>
      cases h with
      | cons he hes => exact .cons he (ih hes)
  · intro h
    induction h with
    | nil => exact .nil
    | cons he _ ih => exact .cons he ih

theorem Pred.allRebuilt_iff {ps ps' : List Pred} :
    Pred.AllRebuilt K d ps ps' ↔ List.Forall₂ (Pred.Rebuilt K d) ps ps' := by
  constructor
  · intro h
    induction ps generalizing ps' with
    | nil =>
      cases h
      exact .nil
    | cons p ps ih =>
      cases h with
      | cons hp hps => exact .cons hp (ih hps)
  · intro h
    induction h with
    | nil => exact .nil
    | cons hp _ ih => exact .cons hp ih

namespace Formula

theorem forall₂_exprs {es es' : List Expr} (h : Expr.AllRebuilt K d es es') :
    List.Forall₂ (Formula.Rebuilt K d) (es.map .expr) (es'.map .expr) :=
  List.forall₂_map_left_iff.2 (List.forall₂_map_right_iff.2 (Expr.allRebuilt_iff.1 h))

theorem forall₂_preds {ps ps' : List Pred} (h : Pred.AllRebuilt K d ps ps') :
    List.Forall₂ (Formula.Rebuilt K d) (ps.map .pred) (ps'.map .pred) :=
  List.forall₂_map_left_iff.2 (List.forall₂_map_right_iff.2 (Pred.allRebuilt_iff.1 h))

theorem forall₂_decls {bs bs' : List Declaration}
    (h : List.Forall₂ (fun b b' => K d (.decl b) (.decl b')) bs bs') :
    List.Forall₂ (Formula.Rebuilt K d) (bs.map .decl) (bs'.map .decl) :=
  List.forall₂_map_left_iff.2 (List.forall₂_map_right_iff.2 h)

namespace Rebuilt

theorem node (h : f.Rebuilt K d f') : K d f f' := by
  unfold Formula.Rebuilt at h
  split at h
  · cases h <;> assumption
  · cases h <;> assumption
  · exact h
  · exact h.elim

/-- Below a node that is no identifier stands what has become of its parts. -/
theorem parts (h : f.Rebuilt K d f') (hid : ¬ f.IsIdentifier) :
    List.Forall₂ (Formula.Rebuilt K (d + f.declared.length)) f.parts f'.parts := by
  unfold Formula.Rebuilt at h
  split at h
  · cases h with
    | identifier hid' _ => exact absurd hid' hid
    | binary _ ha hb => exact .cons ha (.cons hb .nil)
    | unary _ ha => exact .cons ha .nil
    | assoc _ hes => exact forall₂_exprs hes
    | atom _ => exact .nil
    | set _ hes => exact forall₂_exprs hes
    | bool _ hp => exact .cons hp .nil
    | quantified _ hbs hp he => exact List.rel_append (forall₂_decls hbs) (.cons hp (.cons he .nil))
    | extended _ hes hps => exact List.rel_append (forall₂_exprs hes) (forall₂_preds hps)
  · cases h with
    | literal _ => exact .nil
    | not _ hp => exact .cons hp .nil
    | connective _ hp hq => exact .cons hp (.cons hq .nil)
    | junction _ hps => exact forall₂_preds hps
    | comparison _ ha hb => exact .cons ha (.cons hb .nil)
    | partition _ hes => exact forall₂_exprs hes
    | quantified _ hbs hp => exact List.rel_append (forall₂_decls hbs) (.cons hp .nil)
    | extended _ hes hps => exact List.rel_append (forall₂_exprs hes) (forall₂_preds hps)
  · exact .nil
  · exact h.elim

/-- Only an identifier becomes one. -/
theorem isIdentifier (h : f.Rebuilt K d f') (hid : f'.IsIdentifier) : f.IsIdentifier := by
  unfold Formula.Rebuilt at h
  split at h
  · cases h with
    | identifier hid' _ => exact hid'
    | _ => exact hid.elim
  · exact hid.elim
  · exact hid.elim
  · exact h.elim

theorem components_eq (h : f.Rebuilt K d f') : f.components = f.parts ∧ f'.components = f'.parts := by
  unfold Formula.Rebuilt at h
  split at h
  · exact ⟨rfl, rfl⟩
  · exact ⟨rfl, rfl⟩
  · exact ⟨rfl, rfl⟩
  · exact h.elim

theorem declared_length (h : f.Rebuilt K d f') (hid : ¬ f.IsIdentifier) :
    f'.declared.length = f.declared.length := by
  unfold Formula.Rebuilt at h
  split at h
  · cases h with
    | identifier hid' _ => exact absurd hid' hid
    | quantified _ hbs _ _ => exact hbs.length_eq.symm
    | _ => rfl
  · cases h with
    | quantified _ hbs _ => exact hbs.length_eq.symm
    | _ => rfl
  · rfl
  · exact h.elim

end Rebuilt

theorem IsIdentifier.parts (h : f.IsIdentifier) : f.parts = [] := by
  unfold IsIdentifier at h
  split at h
  · rfl
  · rfl
  · exact h.elim

namespace Rebuilt

/-- Something has become of each node. -/
theorem exists_of_mem_nodes (h : f.Rebuilt K d f') {g : Formula} (hg : g ∈ f.nodes) :
    ∃ d', ∃ g' ∈ f'.nodes, g.Rebuilt K d' g' := by
  have hclosed : ClosedSet {g | ∃ d', ∃ g' ∈ f'.nodes, g.Rebuilt K d' g'} := by
    rintro g ⟨d', g', hg', hrebuilt⟩ k hk
    rw [hrebuilt.components_eq.1] at hk
    by_cases hid : g.IsIdentifier
    · rw [hid.parts] at hk
      cases hk
    · obtain ⟨k', hk', hrebuilt'⟩ := forall₂_exists_right (hrebuilt.parts hid) hk
      exact ⟨_, k', nodes_closed hg' (hrebuilt.components_eq.2 ▸ hk'), hrebuilt'⟩
  exact f.nodes_subset hclosed ⟨d, f', mem_nodes_self f', h⟩ hg

/-- Each node comes from a node, or stands in what has become of an identifier. -/
theorem exists_source (h : f.Rebuilt K d f') {g' : Formula} (hg' : g' ∈ f'.nodes) :
    (∃ d', ∃ g ∈ f.nodes, ¬ g.IsIdentifier ∧ g.Rebuilt K d' g') ∨
      ∃ d', ∃ g ∈ f.nodes, g.IsIdentifier ∧ ∃ k, K d' g k ∧ g' ∈ k.nodes := by
  have start : ∀ {d' g k}, g ∈ f.nodes → g.Rebuilt K d' k →
      (∃ d', ∃ g ∈ f.nodes, ¬ g.IsIdentifier ∧ g.Rebuilt K d' k) ∨
        ∃ d', ∃ g ∈ f.nodes, g.IsIdentifier ∧ ∃ k', K d' g k' ∧ k ∈ k'.nodes := by
    intro d' g k hg hrebuilt
    by_cases hid : g.IsIdentifier
    · exact .inr ⟨d', g, hg, hid, k, hrebuilt.node, mem_nodes_self k⟩
    · exact .inl ⟨d', g, hg, hid, hrebuilt⟩
  have hclosed : ClosedSet {g' | (∃ d', ∃ g ∈ f.nodes, ¬ g.IsIdentifier ∧ g.Rebuilt K d' g') ∨
      ∃ d', ∃ g ∈ f.nodes, g.IsIdentifier ∧ ∃ k, K d' g k ∧ g' ∈ k.nodes} := by
    rintro g' (⟨d', g, hg, hid, hrebuilt⟩ | ⟨d', g, hg, hid, k, hk, hg'⟩) c hc
    · rw [hrebuilt.components_eq.2] at hc
      obtain ⟨p, hp, hrebuilt'⟩ := forall₂_exists_right (hrebuilt.parts hid).flip hc
      exact start (nodes_closed hg (hrebuilt.components_eq.1 ▸ hp)) hrebuilt'
    · exact .inr ⟨d', g, hg, hid, k, hk, nodes_closed hg' hc⟩
  exact f'.nodes_subset hclosed (start (mem_nodes_self f) h) hg'

/-- What stands at a path has become what stands there now. -/
theorem at? (h : f.Rebuilt K d f') {g : Formula} {is : List Nat} (hg : f.at? is = some g) :
    ∃ g', f'.at? is = some g' ∧ g.Rebuilt K (d + f.declaredAlong is) g' := by
  induction is generalizing f f' d with
  | nil =>
    cases hg
    exact ⟨f', rfl, h⟩
  | cons i is ih =>
    obtain ⟨k, hk, hg⟩ := Option.bind_eq_some_iff.1 hg
    by_cases hid : f.IsIdentifier
    · rw [hid.parts] at hk
      cases hk
    · obtain ⟨k', hk', hrebuilt⟩ := forall₂_exists_getElem? (h.parts hid) hk
      obtain ⟨g', hg', hgg'⟩ := ih hrebuilt hg
      refine ⟨g', Option.bind_eq_some_iff.2 ⟨k', hk', hg'⟩, ?_⟩
      rw [declaredAlong, hk, Option.map_some, Option.getD_some, ← Nat.add_assoc]
      exact hgg'

/-- What stands at a path now has become of what stood there, if what becomes of identifiers has no parts. -/
theorem exists_at? (hleaf : ∀ d g g', g.IsIdentifier → K d g g' → g'.parts = []) (h : f.Rebuilt K d f')
    {g' : Formula} {is : List Nat} (hg' : f'.at? is = some g') : f'.declaredAlong is = f.declaredAlong is ∧
      ∃ g, f.at? is = some g ∧ g.Rebuilt K (d + f.declaredAlong is) g' := by
  induction is generalizing f f' d with
  | nil =>
    cases hg'
    exact ⟨rfl, f, rfl, h⟩
  | cons i is ih =>
    obtain ⟨k', hk', hg'⟩ := Option.bind_eq_some_iff.1 hg'
    by_cases hid : f.IsIdentifier
    · rw [hleaf _ _ _ hid h.node] at hk'
      cases hk'
    · obtain ⟨k, hk, hrebuilt⟩ := forall₂_exists_getElem? (h.parts hid).flip hk'
      obtain ⟨hdeclared, g, hg, hgg'⟩ := ih hrebuilt hg'
      refine ⟨?_, g, Option.bind_eq_some_iff.2 ⟨k, hk, hg⟩, ?_⟩
      · simp only [declaredAlong, hk, hk', Option.map_some, Option.getD_some, hdeclared,
          h.declared_length hid]
      · rw [declaredAlong, hk, Option.map_some, Option.getD_some, ← Nat.add_assoc]
        exact hgg'

end Rebuilt
end Formula

/-! A formula goes with itself if every node of it does. -/

mutual

theorem Expr.Rebuilt.refl : ∀ (e : Expr) (d : Nat), (Formula.expr e).Everywhere (fun d g => K d g g) d →
    e.Rebuilt K d e
  | .binary _ _ a b, d, h => .binary h.self (Expr.Rebuilt.refl a d (h.part (g := .expr a) List.mem_cons_self))
      (Expr.Rebuilt.refl b d (h.part (g := .expr b) (List.mem_cons_of_mem _ List.mem_cons_self)))
  | .unary _ _ a, d, h => .unary h.self (Expr.Rebuilt.refl a d (h.part (g := .expr a) List.mem_cons_self))
  | .assoc _ _ es, d, h =>
    .assoc h.self (Expr.AllRebuilt.refl es d fun _ he => h.part (List.mem_map_of_mem he))
  | .atom _ _ _, _, h => .atom h.self
  | .set _ es _, d, h =>
    .set h.self (Expr.AllRebuilt.refl es d fun _ he => h.part (List.mem_map_of_mem he))
  | .bool _ p, d, h => .bool h.self (Pred.Rebuilt.refl p d (h.part (g := .pred p) List.mem_cons_self))
  | .quantified _ _ bs p e, d, h => by
    have hdecls : List.Forall₂ (fun b b' => K (d + bs.length) (.decl b) (.decl b')) bs bs :=
      List.forall₂_same.2 fun b hb => (h.part (List.mem_append_left _ (List.mem_map_of_mem hb))).self
    have hp := h.part (g := .pred p) (List.mem_append_right _ List.mem_cons_self)
    have he := h.part (g := .expr e) (List.mem_append_right _ (List.mem_cons_of_mem _ List.mem_cons_self))
    exact .quantified h.self hdecls (Pred.Rebuilt.refl p _ hp) (Expr.Rebuilt.refl e _ he)
  | .bound _ _ _, _, h | .free _ _ _, _, h => .identifier trivial h.self
  | .extended _ _ es ps _, d, h => .extended h.self
      (Expr.AllRebuilt.refl es d fun _ he => h.part (List.mem_append_left _ (List.mem_map_of_mem he)))
      (Pred.AllRebuilt.refl ps d fun _ hp => h.part (List.mem_append_right _ (List.mem_map_of_mem hp)))

theorem Expr.AllRebuilt.refl : ∀ (es : List Expr) (d : Nat),
    (∀ e ∈ es, (Formula.expr e).Everywhere (fun d g => K d g g) d) → Expr.AllRebuilt K d es es
  | [], _, _ => .nil
  | e :: es, d, h => .cons (Expr.Rebuilt.refl e d (h e List.mem_cons_self))
      (Expr.AllRebuilt.refl es d fun e' he' => h e' (List.mem_cons_of_mem _ he'))

theorem Pred.Rebuilt.refl : ∀ (p : Pred) (d : Nat), (Formula.pred p).Everywhere (fun d g => K d g g) d →
    p.Rebuilt K d p
  | .literal _ _, _, h => .literal h.self
  | .not _ p, d, h => .not h.self (Pred.Rebuilt.refl p d (h.part (g := .pred p) List.mem_cons_self))
  | .connective _ _ p q, d, h => .connective h.self
      (Pred.Rebuilt.refl p d (h.part (g := .pred p) List.mem_cons_self))
      (Pred.Rebuilt.refl q d (h.part (g := .pred q) (List.mem_cons_of_mem _ List.mem_cons_self)))
  | .junction _ _ ps, d, h =>
    .junction h.self (Pred.AllRebuilt.refl ps d fun _ hp => h.part (List.mem_map_of_mem hp))
  | .comparison _ _ a b, d, h => .comparison h.self
      (Expr.Rebuilt.refl a d (h.part (g := .expr a) List.mem_cons_self))
      (Expr.Rebuilt.refl b d (h.part (g := .expr b) (List.mem_cons_of_mem _ List.mem_cons_self)))
  | .partition _ es, d, h =>
    .partition h.self (Expr.AllRebuilt.refl es d fun _ he => h.part (List.mem_map_of_mem he))
  | .quantified _ _ bs p, d, h => by
    have hdecls : List.Forall₂ (fun b b' => K (d + bs.length) (.decl b) (.decl b')) bs bs :=
      List.forall₂_same.2 fun b hb => (h.part (List.mem_append_left _ (List.mem_map_of_mem hb))).self
    have hp := h.part (g := .pred p) (List.mem_append_right _ List.mem_cons_self)
    exact .quantified h.self hdecls (Pred.Rebuilt.refl p _ hp)
  | .extended _ _ es ps, d, h => .extended h.self
      (Expr.AllRebuilt.refl es d fun _ he => h.part (List.mem_append_left _ (List.mem_map_of_mem he)))
      (Pred.AllRebuilt.refl ps d fun _ hp => h.part (List.mem_append_right _ (List.mem_map_of_mem hp)))

theorem Pred.AllRebuilt.refl : ∀ (ps : List Pred) (d : Nat),
    (∀ p ∈ ps, (Formula.pred p).Everywhere (fun d g => K d g g) d) → Pred.AllRebuilt K d ps ps
  | [], _, _ => .nil
  | p :: ps, d, h => .cons (Pred.Rebuilt.refl p d (h p List.mem_cons_self))
      (Pred.AllRebuilt.refl ps d fun p' hp' => h p' (List.mem_cons_of_mem _ hp'))

end

theorem Formula.Rebuilt.refl (hf : f.isAssignment = false) (h : f.Everywhere (fun d g => K d g g) d) :
    f.Rebuilt K d f := by
  cases f with
  | expr e => exact Expr.Rebuilt.refl e d h
  | pred p => exact Pred.Rebuilt.refl p d h
  | decl b => exact h.self
  | assignment a => cases hf

/-! A formula stays structurally equal where its identifiers do. -/

/-- What becomes of identifiers and of declarations is structurally equal to them. -/
structure KeepsNames (K : Nat → Formula → Formula → Prop) : Prop where
  leaf : ∀ d g g', g.IsIdentifier → K d g g' → g.same g' = true
  decl : ∀ d b b', K d (.decl b) (.decl b') → b'.name = b.name

theorem KeepsNames.sameNames (hK : KeepsNames K) {bs bs' : List Declaration}
    (h : List.Forall₂ (fun b b' => K d (.decl b) (.decl b')) bs bs') :
    Declaration.sameNames bs bs' = true := by
  rw [Declaration.sameNames_iff]
  induction h with
  | nil => rfl
  | cons hb _ ih => rw [List.map_cons, List.map_cons, ih, hK.decl _ _ _ hb]

mutual

theorem Expr.Rebuilt.same (hK : KeepsNames K) : ∀ {e e' : Expr} {d : Nat}, e.Rebuilt K d e' →
    e.same e' = true
  | .binary _ _ a b, _, _, h => by
    cases h with
    | identifier hid _ => exact hid.elim
    | binary _ ha hb => simp [Expr.same, Expr.Rebuilt.same hK ha, Expr.Rebuilt.same hK hb]
  | .unary _ _ a, _, _, h => by
    cases h with
    | identifier hid _ => exact hid.elim
    | unary _ ha => simp [Expr.same, Expr.Rebuilt.same hK ha]
  | .assoc _ _ es, _, _, h => by
    cases h with
    | identifier hid _ => exact hid.elim
    | assoc _ hes => simp [Expr.same, Expr.AllRebuilt.same hK hes]
  | .atom _ _ _, _, _, h => by
    cases h with
    | identifier hid _ => exact hid.elim
    | atom _ => simp [Expr.same]
  | .set _ es _, _, _, h => by
    cases h with
    | identifier hid _ => exact hid.elim
    | set _ hes => simp [Expr.same, Expr.AllRebuilt.same hK hes]
  | .bool _ p, _, _, h => by
    cases h with
    | identifier hid _ => exact hid.elim
    | bool _ hp => simp [Expr.same, Pred.Rebuilt.same hK hp]
  | .quantified _ _ bs p e, _, _, h => by
    cases h with
    | identifier hid _ => exact hid.elim
    | quantified _ hbs hp he => simp [Expr.same, hK.sameNames hbs,
        Pred.Rebuilt.same hK hp, Expr.Rebuilt.same hK he]
  | .bound _ _ _, _, _, h => by
    cases h with
    | identifier hid h => exact hK.leaf _ _ _ hid h
  | .free _ _ _, _, _, h => by
    cases h with
    | identifier hid h => exact hK.leaf _ _ _ hid h
  | .extended _ ext es ps _, _, _, h => by
    cases h with
    | identifier hid _ => exact hid.elim
    | extended _ hes hps =>
      simp [Expr.same, Expr.AllRebuilt.same hK hes, Pred.AllRebuilt.same hK hps, ext.beq_refl]

theorem Expr.AllRebuilt.same (hK : KeepsNames K) : ∀ {es es' : List Expr} {d : Nat}, Expr.AllRebuilt K d es es' →
    Expr.sameAll es es' = true
  | [], _, _, .nil => by simp [Expr.sameAll]
  | e :: es, _, _, .cons he hes => by
    simp [Expr.sameAll, Expr.Rebuilt.same hK he, Expr.AllRebuilt.same hK hes]

theorem Pred.Rebuilt.same (hK : KeepsNames K) : ∀ {p p' : Pred} {d : Nat}, p.Rebuilt K d p' → p.same p' = true
  | .literal _ _, _, _, .literal _ => by simp [Pred.same]
  | .not _ p, _, _, .not _ hp => by simp [Pred.same, Pred.Rebuilt.same hK hp]
  | .connective _ _ p q, _, _, .connective _ hp hq => by
    simp [Pred.same, Pred.Rebuilt.same hK hp, Pred.Rebuilt.same hK hq]
  | .junction _ _ ps, _, _, .junction _ hps => by simp [Pred.same, Pred.AllRebuilt.same hK hps]
  | .comparison _ _ a b, _, _, .comparison _ ha hb => by
    simp [Pred.same, Expr.Rebuilt.same hK ha, Expr.Rebuilt.same hK hb]
  | .partition _ es, _, _, .partition _ hes => by simp [Pred.same, Expr.AllRebuilt.same hK hes]
  | .quantified _ _ bs p, _, _, .quantified _ hbs hp => by
    simp [Pred.same, hK.sameNames hbs, Pred.Rebuilt.same hK hp]
  | .extended _ ext es ps, _, _, .extended _ hes hps => by
    simp [Pred.same, Expr.AllRebuilt.same hK hes, Pred.AllRebuilt.same hK hps, ext.beq_refl]

theorem Pred.AllRebuilt.same (hK : KeepsNames K) : ∀ {ps ps' : List Pred} {d : Nat}, Pred.AllRebuilt K d ps ps' →
    Pred.sameAll ps ps' = true
  | [], _, _, .nil => by simp [Pred.sameAll]
  | p :: ps, _, _, .cons hp hps => by
    simp [Pred.sameAll, Pred.Rebuilt.same hK hp, Pred.AllRebuilt.same hK hps]

end

theorem Formula.Rebuilt.same (hK : KeepsNames K) (h : f.Rebuilt K d f') : f.same f' = true := by
  unfold Formula.Rebuilt at h
  split at h
  · exact Expr.Rebuilt.same hK h
  · exact Pred.Rebuilt.same hK h
  · simp [Formula.same, hK.decl _ _ _ h]
  · exact h.elim

end SetLang
