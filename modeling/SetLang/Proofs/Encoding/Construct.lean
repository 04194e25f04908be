import SetLang.Proofs.Encoding.Supported
import SetLang.Proofs.Session.Build

/-! Construction of typed nodes. A node over typed parts of the same factory is typed if its rule and
the type given to it leave one type without datatypes. -/

namespace SetLang

variable {s s' : Store} {f : Factory}

namespace Build

/-- A new expression of a known type, where datatypes are known by name. -/
theorem succeeds_named (make : Node → Expr) {t : Ty} (hnode : ∀ n, (make n).node = n)
    (hfactory : ∀ n, ∀ g ∈ (make n).partFactories, g.id = f.id) (hfits : ∀ n, (make n).Fitting)
    (hparts : ∀ n, (Formula.expr (make n)).PartsTyped s)
    (hadmits : ∀ n g, (make n).Admits s g ↔ g = t.named) :
    Succeeds (Build.expr f make) s fun e s' => (∃ n, e = make n ∧ n.factory = f) ∧ s.Later s' ∧
      ∃ u, e.type? s' = some u ∧ u.named = t.named := by
  generalize he : make ⟨f, s.types.size⟩ = e
  have hslot : e.node.slot = s.types.size := by rw [← he, hnode]
  have hgrown := s.grown_addSlot
  have hroom : s.types.size < s.addSlot.types.size := by simp [Store.size_addSlot]
  have hsame : (e.partFactories.all fun g => g.id == f.id) = true := by
    rw [List.all_eq_true]
    intro g hg
    rw [hfactory _ g (he ▸ hg), beq_self_eq_true]
  have hone : ∀ g, (Formula.expr e).PartsTyped s.addSlot ∧ e.Admits s.addSlot g ↔ g = t.named := by
    intro g
    rw [Expr.admits_iff hgrown.later (he ▸ hparts _), ← he, hadmits]
    exact and_iff_right ((hparts _).mono hgrown.later)
  have hanswers := Expr.synthesized_spec (s := s.addSlot) (he ▸ hfits _)
  unfold Succeeds
  rw [run_expr f make he.symm, if_pos hsame]
  generalize e.synthesized? s.addSlot = r at hanswers
  cases hanswers with
  | one u hu =>
    refine ⟨e, _, rfl, ⟨_, he.symm, rfl⟩, (hgrown.put hslot.ge (hslot ▸ hroom) u).later, u, ?_, ?_⟩
    · rw [Expr.type?, Store.type?_put (hslot ▸ hroom), if_pos rfl]
    · exact ((hu _).1 ((hone _).2 rfl)).symm
  | none hnot => exact absurd ⟨_, hone⟩ hnot

theorem succeeds_expr (make : Node → Expr) {t : Ty} (ht : t.Plain) (hnode : ∀ n, (make n).node = n)
    (hfactory : ∀ n, ∀ g ∈ (make n).partFactories, g = f) (hfits : ∀ n, (make n).Fitting)
    (hparts : ∀ n, (Formula.expr (make n)).PartsTyped s)
    (hadmits : ∀ n g, (make n).Admits s g ↔ g = t.named) :
    Succeeds (Build.expr f make) s fun e s' =>
      (∃ n, e = make n ∧ n.factory = f) ∧ s.Later s' ∧ e.type? s' = some t :=
  (succeeds_named make hnode (fun n g hg => congrArg Factory.id (hfactory n g hg)) hfits hparts hadmits).mono
    fun _ _ ⟨he, hlater, u, hu, hnamed⟩ => ⟨he, hlater, by rw [hu, ht.eq_of_named_eq hnamed.symm]⟩

/-- A loop, where each step keeps what the steps before it have made. -/
theorem succeeds_mapM {α β : Type} {xs : List α} {g : α → Build β} {P : α → β → Store → Prop}
    (hP : ∀ a b s s', s.Later s' → P a b s → P a b s')
    (h : ∀ a ∈ xs, ∀ s', s.Later s' → Succeeds (g a) s' fun b s'' => s'.Later s'' ∧ P a b s'') :
    Succeeds (xs.mapM g) s fun bs s' => s.Later s' ∧ List.Forall₂ (fun a b => P a b s') xs bs :=
  Succeeds.mapM hP h

theorem succeeds_pred (make : Node → Pred) (hnode : ∀ n, (make n).node = n)
    (hfactory : ∀ n, ∀ g ∈ (make n).partFactories, g = f) (hfits : ∀ n, (make n).Fitting)
    (hparts : ∀ n, (Formula.pred (make n)).PartsTyped s)
    (hobeys : ∀ n, s.typing.Obeys (.pred (make n))) :
    Succeeds (Build.pred f make) s fun p s' =>
      (∃ n, p = make n ∧ n.factory = f) ∧ s.Later s' ∧ p.isTyped s' := by
  generalize hp : make ⟨f, s.marks.size⟩ = p
  have hslot : p.node.slot = s.marks.size := by rw [← hp, hnode]
  have hgrown := s.grown_addMark
  have hroom : s.marks.size < s.addMark.marks.size := by simp [Store.size_addMark]
  have hsame : (p.partFactories.all fun g => g.id == f.id) = true := by
    rw [List.all_eq_true]
    intro g hg
    rw [hfactory _ g (hp ▸ hg), beq_self_eq_true]
  obtain ⟨b, hb, hiff⟩ := Pred.synthesized_spec (s := s.addMark) (hp ▸ hfits _)
  have hparts' : (Formula.pred p).PartsTyped s := hp ▸ hparts _
  obtain rfl : b = true := hiff.2 ⟨hparts'.mono hgrown.later,
    (Pred.obeys_iff hgrown.later hparts').2 (hp ▸ hobeys _)⟩
  unfold Succeeds
  rw [run_pred f make hp.symm, if_pos hsame, hb]
  refine ⟨p, _, rfl, ⟨_, hp.symm, rfl⟩, (hgrown.mark hslot.ge (hslot ▸ hroom)).later, ?_⟩
  rw [Pred.isTyped, Store.isMarked_mark (hslot ▸ hroom), decide_eq_true rfl, Bool.true_or]

end Build

def Expr.Names (f : Factory) (s : Store) (t : Ty) (e : Expr) : Prop :=
  ∃ n x, e = .free n x (some t) ∧ n.factory = f ∧ s.type? n.slot = some t

theorem Expr.Names.mono {t : Ty} {e : Expr} (h : e.Names f s t) (k : s.Later s') :
    e.Names f s' t := by
  obtain ⟨n, x, he, hn, hx⟩ := h
  exact ⟨n, x, he, hn, k.type? _ _ hx⟩

theorem Factory.succeeds_free_named (f : Factory) (x : String) (t : Ty) (s : Store) :
    Succeeds (f.free x (some t)) s fun e s' => (∃ n, e = .free n x (some t) ∧ n.factory = f) ∧
      s.Later s' ∧ ∃ u, e.type? s' = some u ∧ u.named = t.named := by
  refine Build.succeeds_named (.free · x (some t)) (fun _ => rfl) (fun _ _ h => by cases h)
    (fun _ => trivial) (fun _ _ h => by cases h) fun n g => ?_
  simp [Expr.Admits, Expr.explicit?, Expr.scheme, Scheme.any, Scheme.Holds]

theorem Factory.succeeds_free (f : Factory) (x : String) {t : Ty} (ht : t.Plain) (s : Store) :
    Succeeds (f.free x (some t)) s fun e s' => s.Later s' ∧ e.Names f s' t := by
  refine (f.succeeds_free_named x t s).mono fun e s' h => ?_
  obtain ⟨⟨n, rfl, hn⟩, hlater, u, hu, hnamed⟩ := h
  obtain rfl := ht.eq_of_named_eq hnamed.symm
  exact ⟨hlater, n, x, rfl, hn, hu⟩

end SetLang
