import SetLang.Proofs.Rebuild

/-! Scopes in what is rebuilt. Nodes are met in the order in which they were, and the declarations in scope are
those of the nodes around, followed by the ones around the formula. -/

namespace SetLang

variable {K : Nat → Formula → Formula → Prop} {d : Nat} {sc sc' : List Declaration} {o o' : Occurrence}
  {g g' : Formula} {bs bs' : List Declaration}

/-- A node of a formula in one scope, and what has become of it in another. The declarations inside the formula go
with each other, and those around are what they are. What became an identifier was one, below so many
declarations. -/
inductive Occurrence.Rebuilt (K : Nat → Formula → Formula → Prop) (d : Nat) (sc sc' : List Declaration) :
    Occurrence → Occurrence → Prop
  | intro {bs bs' : List Declaration} {d' : Nat} {g g' : Formula} :
    List.Forall₂ (fun b b' => ∃ d, K d (.decl b) (.decl b')) bs bs' → K d' g g' →
    (g'.IsIdentifier → g.IsIdentifier ∧ d' = d + bs.length) →
    Occurrence.Rebuilt K d sc sc' ⟨bs ++ sc, g⟩ ⟨bs' ++ sc', g'⟩

namespace Occurrence.Rebuilt

theorem self (h : K d g g') (hid : g'.IsIdentifier → g.IsIdentifier) :
    Occurrence.Rebuilt K d sc sc' ⟨sc, g⟩ ⟨sc', g'⟩ :=
  show Occurrence.Rebuilt K d sc sc' ⟨[] ++ sc, g⟩ ⟨[] ++ sc', g'⟩ from .intro .nil h fun hid' => ⟨hid hid', rfl⟩

theorem binder (hbs : List.Forall₂ (fun b b' => K (d + bs.length) (.decl b) (.decl b')) bs bs')
    (h : Occurrence.Rebuilt K (d + bs.length) (bs.reverse ++ sc) (bs'.reverse ++ sc') o o') :
    Occurrence.Rebuilt K d sc sc' o o' := by
  cases h with
  | @intro cs cs' d' g g' hcs hK hid =>
    rw [← List.append_assoc, ← List.append_assoc]
    have hrev : List.Forall₂ (fun b b' => ∃ d, K d (.decl b) (.decl b')) bs.reverse bs'.reverse :=
      List.forall₂_reverse_iff.2 (hbs.imp fun _ _ hb => ⟨_, hb⟩)
    refine .intro (List.rel_append hcs hrev) hK fun h => ⟨(hid h).1, (hid h).2.trans ?_⟩
    rw [List.length_append, List.length_reverse, Nat.add_assoc, Nat.add_comm bs.length]

theorem decls {d' : Nat} (h : List.Forall₂ (fun b b' => K d' (.decl b) (.decl b')) bs bs') :
    List.Forall₂ (Occurrence.Rebuilt K d sc sc') (bs.map fun b => ⟨sc, .decl b⟩)
      (bs'.map fun b => ⟨sc', .decl b⟩) :=
  List.forall₂_map_left_iff.2 <| List.forall₂_map_right_iff.2 <| h.imp fun b b' hb =>
    show Occurrence.Rebuilt K d sc sc' ⟨[] ++ sc, .decl b⟩ ⟨[] ++ sc', .decl b'⟩ from .intro .nil hb False.elim

end Occurrence.Rebuilt

theorem Expr.allOccurrences_eq (sc : List Declaration) (es : List Expr) :
    Expr.allOccurrences sc es = es.flatMap (·.occurrences sc) := by
  induction es with
  | nil => rfl
  | cons e es ih => rw [Expr.allOccurrences, ih, List.flatMap_cons]

theorem Pred.allOccurrences_eq (sc : List Declaration) (ps : List Pred) :
    Pred.allOccurrences sc ps = ps.flatMap (·.occurrences sc) := by
  induction ps with
  | nil => rfl
  | cons p ps ih => rw [Pred.allOccurrences, ih, List.flatMap_cons]

namespace Formula

/-- The nodes of a formula in a scope. What stands below assignments is left out. -/
def occurrencesIn (sc : List Declaration) : Formula → List Occurrence
  | expr e => e.occurrences sc
  | pred p => p.occurrences sc
  | decl b => [⟨sc, .decl b⟩]
  | assignment a => [⟨sc, .assignment a⟩]

/-- The nodes of a part of a formula in a scope. The declarations of the formula are in scope there, and stand
themselves in the scope of the formula. -/
def occurrencesBelow (sc : List Declaration) (g : Formula) : Formula → List Occurrence
  | decl b => [⟨sc, .decl b⟩]
  | k => k.occurrencesIn (g.declared.reverse ++ sc)

theorem occurrencesIn_eq (g : Formula) (sc : List Declaration) :
    g.occurrencesIn sc = ⟨sc, g⟩ :: g.parts.flatMap (g.occurrencesBelow sc) := by
  have hbs : ∀ bs : List Declaration, bs.map (Occurrence.mk sc <| decl ·) =
      bs.flatMap fun b => [⟨sc, decl b⟩] := fun _ => List.map_eq_flatMap
  cases g with
  | expr e => cases e <;> simp [occurrencesIn, parts, Expr.children, List.flatMap_map, occurrencesBelow, declared,
      Expr.allOccurrences_eq, Pred.allOccurrences_eq, hbs]
  | pred p => cases p <;> simp [occurrencesIn, parts, Pred.children, List.flatMap_map, occurrencesBelow, declared,
      Expr.allOccurrences_eq, Pred.allOccurrences_eq, hbs]
  | decl b | assignment a => rfl

theorem mem_occurrencesIn_self (g : Formula) (sc : List Declaration) : ⟨sc, g⟩ ∈ g.occurrencesIn sc := by
  rw [occurrencesIn_eq]
  exact List.mem_cons_self

/-- What stands below a part of a formula stands below the formula. -/
theorem mem_occurrencesIn_of_mem_parts {k : Formula} (hk : k ∈ g.parts) (ho : o ∈ g.occurrencesBelow sc k) :
    o ∈ g.occurrencesIn sc := by
  rw [occurrencesIn_eq]
  exact List.mem_cons_of_mem _ (List.mem_flatMap.2 ⟨k, hk, ho⟩)

end Formula

def KeepsIdentifiers (K : Nat → Formula → Formula → Prop) : Prop :=
  ∀ d g g', g.IsIdentifier → K d g g' → g'.IsIdentifier

theorem Expr.occurrences_of_isIdentifier {e : Expr} (h : (Formula.expr e).IsIdentifier) (sc : List Declaration) :
    e.occurrences sc = [⟨sc, .expr e⟩] := by
  cases e <;> first | exact h.elim | rfl

mutual

theorem Expr.Rebuilt.occurrences (hK : KeepsIdentifiers K) : ∀ {e e' : Expr} {d : Nat}, e.Rebuilt K d e' →
    ∀ sc sc', List.Forall₂ (Occurrence.Rebuilt K d sc sc') (e.occurrences sc) (e'.occurrences sc')
  | e, e', d, .identifier hid h, _, _ => by
    rw [Expr.occurrences_of_isIdentifier hid, Expr.occurrences_of_isIdentifier (hK _ _ _ hid h)]
    exact .cons (.self h fun _ => hid) .nil
  | _, _, _, .binary h ha hb, _, _ =>
    .cons (.self h id) (List.rel_append (Expr.Rebuilt.occurrences hK ha _ _) (Expr.Rebuilt.occurrences hK hb _ _))
  | _, _, _, .unary h ha, _, _ => .cons (.self h id) (Expr.Rebuilt.occurrences hK ha _ _)
  | _, _, _, .assoc h hes, _, _ => .cons (.self h id) (Expr.AllRebuilt.occurrences hK hes _ _)
  | _, _, _, .atom h, _, _ => .cons (.self h id) .nil
  | _, _, _, .set h hes, _, _ => .cons (.self h id) (Expr.AllRebuilt.occurrences hK hes _ _)
  | _, _, _, .bool h hp, _, _ => .cons (.self h id) (Pred.Rebuilt.occurrences hK hp _ _)
  | _, _, _, .quantified h hbs hp he, _, _ => by
    refine .cons (.self h id) (List.rel_append (Occurrence.Rebuilt.decls hbs) (List.rel_append ?_ ?_))
    · exact (Pred.Rebuilt.occurrences hK hp _ _).imp fun _ _ => .binder hbs
    · exact (Expr.Rebuilt.occurrences hK he _ _).imp fun _ _ => .binder hbs
  | _, _, _, .extended h hes hps, _, _ => .cons (.self h id)
      (List.rel_append (Expr.AllRebuilt.occurrences hK hes _ _) (Pred.AllRebuilt.occurrences hK hps _ _))

theorem Expr.AllRebuilt.occurrences (hK : KeepsIdentifiers K) : ∀ {es es' : List Expr} {d : Nat},
    Expr.AllRebuilt K d es es' → ∀ sc sc', List.Forall₂ (Occurrence.Rebuilt K d sc sc')
      (Expr.allOccurrences sc es) (Expr.allOccurrences sc' es')
  | _, _, _, .nil, _, _ => .nil
  | _, _, _, .cons he hes, _, _ =>
    List.rel_append (Expr.Rebuilt.occurrences hK he _ _) (Expr.AllRebuilt.occurrences hK hes _ _)

theorem Pred.Rebuilt.occurrences (hK : KeepsIdentifiers K) : ∀ {p p' : Pred} {d : Nat}, p.Rebuilt K d p' →
    ∀ sc sc', List.Forall₂ (Occurrence.Rebuilt K d sc sc') (p.occurrences sc) (p'.occurrences sc')
  | _, _, _, .literal h, _, _ => .cons (.self h id) .nil
  | _, _, _, .not h hp, _, _ => .cons (.self h id) (Pred.Rebuilt.occurrences hK hp _ _)
  | _, _, _, .connective h hp hq, _, _ =>
    .cons (.self h id) (List.rel_append (Pred.Rebuilt.occurrences hK hp _ _) (Pred.Rebuilt.occurrences hK hq _ _))
  | _, _, _, .junction h hps, _, _ => .cons (.self h id) (Pred.AllRebuilt.occurrences hK hps _ _)
  | _, _, _, .comparison h ha hb, _, _ =>
    .cons (.self h id) (List.rel_append (Expr.Rebuilt.occurrences hK ha _ _) (Expr.Rebuilt.occurrences hK hb _ _))
  | _, _, _, .partition h hes, _, _ => .cons (.self h id) (Expr.AllRebuilt.occurrences hK hes _ _)
  | _, _, _, .quantified h hbs hp, _, _ => .cons (.self h id) <| List.rel_append (Occurrence.Rebuilt.decls hbs) <|
      (Pred.Rebuilt.occurrences hK hp _ _).imp fun _ _ => .binder hbs
  | _, _, _, .extended h hes hps, _, _ => .cons (.self h id)
      (List.rel_append (Expr.AllRebuilt.occurrences hK hes _ _) (Pred.AllRebuilt.occurrences hK hps _ _))

theorem Pred.AllRebuilt.occurrences (hK : KeepsIdentifiers K) : ∀ {ps ps' : List Pred} {d : Nat},
    Pred.AllRebuilt K d ps ps' → ∀ sc sc', List.Forall₂ (Occurrence.Rebuilt K d sc sc')
      (Pred.allOccurrences sc ps) (Pred.allOccurrences sc' ps')
  | _, _, _, .nil, _, _ => .nil
  | _, _, _, .cons hp hps, _, _ =>
    List.rel_append (Pred.Rebuilt.occurrences hK hp _ _) (Pred.AllRebuilt.occurrences hK hps _ _)

end

/-- Below a predicate the same declarations are in scope, whatever is around it. -/
theorem Pred.exists_occurrence (p : Pred) (sc : List Declaration) (ho : o ∈ p.occurrences sc') :
    ∃ bs g, o = ⟨bs ++ sc', g⟩ ∧ ⟨bs ++ sc, g⟩ ∈ p.occurrences sc := by
  have hself : p.Rebuilt (fun _ g g' => g = g') 0 p := .refl p 0 fun _ _ _ => rfl
  have hkeeps : KeepsIdentifiers fun _ g g' => g = g' := fun _ _ _ h heq => heq ▸ h
  obtain ⟨_, ho', h⟩ := forall₂_exists_right (Pred.Rebuilt.occurrences hkeeps hself sc sc').flip ho
  cases h with
  | @intro bs bs' _ g _ hbs hg _ =>
    obtain rfl : bs = bs' := List.forall₂_eq_eq_eq ▸ hbs.imp fun _ _ ⟨_, hb⟩ => Formula.decl.inj hb
    exact ⟨bs, g, by rw [hg], ho'⟩

end SetLang
