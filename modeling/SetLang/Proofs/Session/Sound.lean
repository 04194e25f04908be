import SetLang.Assignment
import SetLang.Proofs.Typing.Principal
import SetLang.Proofs.Typing.Synthesis

/-! Sessions. A session builds formulas from formulas that it holds, and checks them. Throughout a
session the slots of its formulas are their own, and what is typed obeys its rule. -/

namespace SetLang

/-- Quantifiers, junctions, partitions and extended formulas have the parts that construction asks for,
and extensions are registered and build formulas of their kind. -/
def Expr.Formed : Expr → Prop
  | assoc _ _ es => 2 ≤ es.length
  | quantified _ _ ds _ _ => ds ≠ []
  | extended n ext _ ps _ =>
    (n.factory.extension? ext.id).isSome ∧ ext.kind = .expression ∧ ext.arity.predicates.admits ps.length
  | _ => True

def Pred.Formed : Pred → Prop
  | junction _ _ ps => 2 ≤ ps.length
  | partition _ es => es ≠ []
  | quantified _ _ ds _ => ds ≠ []
  | extended n ext _ ps =>
    (n.factory.extension? ext.id).isSome ∧ ext.kind = .predicate ∧ ext.arity.predicates.admits ps.length
  | _ => True

def Formula.Formed : Formula → Prop
  | expr e => e.Formed
  | pred p => p.Formed
  | assignment _ | decl _ => True

namespace Store

structure Later (s s' : Store) : Prop where
  types : s.types.size ≤ s'.types.size
  marks : s.marks.size ≤ s'.marks.size
  type? : ∀ x t, s.type? x = some t → s'.type? x = some t
  isMarked : ∀ x, s.isMarked x → s'.isMarked x

theorem Later.refl (s : Store) : s.Later s := ⟨Nat.le_refl _, Nat.le_refl _, fun _ _ h => h, fun _ h => h⟩

/-- A factory takes a number, and no slot. -/
theorem later_factories (s : Store) (n : Nat) : s.Later { s with factories := n } :=
  ⟨Nat.le_refl _, Nat.le_refl _, fun _ _ h => h, fun _ h => h⟩

theorem Later.trans {s s' s'' : Store} (h : s.Later s') (k : s'.Later s'') : s.Later s'' :=
  ⟨h.types.trans k.types, h.marks.trans k.marks, fun x t ht => k.type? x t (h.type? x t ht),
    fun x hx => k.isMarked x (h.isMarked x hx)⟩

instance : Std.Refl Later := ⟨.refl⟩

instance : IsTrans Store Later := ⟨fun _ _ _ => .trans⟩

structure Grown (s s' : Store) : Prop where
  types : s.types.size ≤ s'.types.size
  marks : s.marks.size ≤ s'.marks.size
  type? : ∀ x < s.types.size, s'.type? x = s.type? x
  isMarked : ∀ x < s.marks.size, s'.isMarked x = s.isMarked x

variable {s s' s'' : Store} {x : Nat}

theorem Grown.refl (s : Store) : s.Grown s :=
  ⟨Nat.le_refl _, Nat.le_refl _, fun _ _ => rfl, fun _ _ => rfl⟩

theorem Grown.trans (h : s.Grown s') (k : s'.Grown s'') : s.Grown s'' :=
  ⟨h.types.trans k.types, h.marks.trans k.marks,
    fun x hx => (k.type? x (hx.trans_le h.types)).trans (h.type? x hx),
    fun x hx => (k.isMarked x (hx.trans_le h.marks)).trans (h.isMarked x hx)⟩

theorem lt_of_type? {t : Ty} (h : s.type? x = some t) : x < s.types.size := by
  by_contra hn
  rw [Store.type?, Array.getElem?_eq_none (Nat.le_of_not_lt hn)] at h
  cases h

theorem lt_of_isMarked (h : s.isMarked x) : x < s.marks.size := by
  by_contra hn
  rw [Store.isMarked, Array.getElem?_eq_none (Nat.le_of_not_lt hn)] at h
  cases h

theorem Grown.later (h : s.Grown s') : s.Later s' :=
  ⟨h.types, h.marks, fun x t ht => by rw [h.type? x (lt_of_type? ht), ht],
    fun x hx => by rw [h.isMarked x (lt_of_isMarked hx), hx]⟩

theorem typing_slot {t : Ty} (h : s.type? x = some t) : s.typing.slot x = t.named := by
  change ((s.type? x).getD .boolean).named = _
  rw [h]
  rfl

end Store

namespace Formula

variable {s s' : Store} {f : Formula}

theorem exists_type? (h : f.isTyped s) {x : Nat} (hx : f.slot? = some x) :
    ∃ t, s.type? x = some t := by
  cases f with
  | expr e => cases hx; exact Option.isSome_iff_exists.1 h
  | decl d => cases hx; exact Option.isSome_iff_exists.1 h
  | pred p => cases hx
  | assignment a => cases hx

theorem isTyped_mono (h : f.isTyped s) (k : s.Later s') : f.isTyped s' := by
  cases f with
  | expr e =>
    obtain ⟨t, ht⟩ := exists_type? h rfl
    exact Option.isSome_iff_exists.2 ⟨t, k.type? _ t ht⟩
  | decl d =>
    obtain ⟨t, ht⟩ := exists_type? h rfl
    exact Option.isSome_iff_exists.2 ⟨t, k.type? _ t ht⟩
  | pred p => exact k.isMarked _ h
  | assignment a => exact k.isMarked _ h

theorem type?_later {t : Ty} (h : f.type? s = some t) (k : s.Later s') : f.type? s' = some t := by
  obtain ⟨x, hx, ht⟩ := Option.bind_eq_some_iff.1 h
  exact Option.bind_eq_some_iff.2 ⟨x, hx, k.type? x t ht⟩

theorem type?_eq_of_later (h : f.isTyped s) (k : s.Later s') : f.type? s' = f.type? s := by
  cases hslot : f.slot? with
  | none => rw [type?, type?, hslot, Option.bind_none, Option.bind_none]
  | some x =>
    obtain ⟨t, ht⟩ := exists_type? h hslot
    have htype : f.type? s = some t := Option.bind_eq_some_iff.2 ⟨x, hslot, ht⟩
    rw [htype, type?_later htype k]

theorem PartsTyped.mono (h : f.PartsTyped s) (k : s.Later s') : f.PartsTyped s' :=
  fun g hg => isTyped_mono (h g hg) k

theorem NodeFits.mono (h : f.NodeFits s) (k : s.Later s') : f.NodeFits s' := by
  cases f with
  | expr e => exact ⟨h.1.trans_le k.types, h.2⟩
  | pred p => exact ⟨h.1.trans_le k.marks, h.2⟩
  | assignment a => exact ⟨h.1.trans_le k.marks, h.2⟩
  | decl d => exact Nat.lt_of_lt_of_le h k.types

end Formula

theorem Expr.operands_subset (e : Expr) : ∀ a ∈ e.operands, .expr a ∈ e.children := by
  intro a ha
  cases e <;> simp_all [operands, children]

theorem Pred.operands_subset (p : Pred) : ∀ a ∈ p.operands, .expr a ∈ p.children := by
  intro a ha
  cases p <;> simp_all [operands, children]

section
variable {s s' : Store}

/-- Expressions that are typed have their types in every typing that keeps what is filled. -/
theorem Store.map_ofExpr_eq {τ : Typing} {es : List Expr} (h : ∀ e ∈ es, e.isTyped s)
    (hτ : ∀ x t, s.type? x = some t → τ.slot x = t.named) :
    es.map τ.ofExpr = es.map s.typing.ofExpr := List.map_congr_left fun e he => by
  obtain ⟨t, ht⟩ := Formula.exists_type? (f := .expr e) (h e he) rfl
  rw [Typing.ofExpr, Typing.ofExpr, hτ _ t ht, Store.typing_slot ht]

theorem Store.Later.map_ofExpr {es : List Expr} (k : s.Later s') (h : ∀ e ∈ es, e.isTyped s) :
    es.map s'.typing.ofExpr = es.map s.typing.ofExpr :=
  Store.map_ofExpr_eq h fun x t ht => Store.typing_slot (k.type? x t ht)

/-- What a node admits depends on the types of its parts. -/
theorem Expr.admits_iff {e : Expr} (k : s.Later s') (h : (Formula.expr e).PartsTyped s)
    (g : GroundTy) : e.Admits s' g ↔ e.Admits s g := by
  unfold Admits
  rw [k.map_ofExpr fun a ha => h _ (e.operands_subset a ha)]

theorem Pred.obeys_iff {p : Pred} (k : s.Later s') (h : (Formula.pred p).PartsTyped s) :
    s'.typing.Obeys (.pred p) ↔ s.typing.Obeys (.pred p) := by
  change p.scheme.Holds _ none ↔ p.scheme.Holds _ none
  rw [k.map_ofExpr fun a ha => h _ (p.operands_subset a ha)]

end

/-- Whether a node obeys its rule depends on its type and on the types of its parts. -/
theorem Typing.Obeys.congr {τ τ' : Typing} {f : Formula} (h : τ.Obeys f)
    (hself : ∀ x, f.slot? = some x → τ.slot x = τ'.slot x)
    (hparts : ∀ g ∈ f.components, ∀ x, g.slot? = some x → τ.slot x = τ'.slot x) : τ'.Obeys f := by
  have hexprs : ∀ es : List Expr, (∀ e ∈ es, .expr e ∈ f.components) →
      es.map τ'.ofExpr = es.map τ.ofExpr := fun es hes =>
    List.map_congr_left fun e he => (hparts _ (hes e he) _ rfl).symm
  cases f with
  | expr e =>
    have htype : τ'.ofExpr e = τ.ofExpr e := (hself _ rfl).symm
    obtain ⟨hrule, hexplicit⟩ := h
    refine ⟨?_, fun t ht => htype.trans (hexplicit t ht)⟩
    rw [hexprs e.operands e.operands_subset, htype]
    exact hrule
  | pred p =>
    change p.scheme.Holds _ none at h
    change p.scheme.Holds _ none
    rw [hexprs p.operands p.operands_subset]
    exact h
  | decl d => trivial
  | assignment a =>
    have htarget : ∀ e ∈ a.targets, τ'.ofExpr e = τ.ofExpr e := fun e he =>
      (hparts _ (List.mem_append_right _ (List.mem_map_of_mem he)) _ rfl).symm
    obtain ⟨n, targets, assigned⟩ := a
    cases assigned with
    | values es =>
      intro p hp
      have hvalue : τ'.ofExpr p.2 = τ.ofExpr p.2 :=
        (hparts _ (List.mem_append_left _ (List.mem_map_of_mem (List.of_mem_zip hp).2)) _ rfl).symm
      rw [htarget _ (List.of_mem_zip hp).1, hvalue]
      exact h p hp
    | member e =>
      intro p hp
      have hset : τ'.ofExpr e = τ.ofExpr e := (hparts _ List.mem_cons_self _ rfl).symm
      rw [htarget _ hp, hset]
      exact h p hp
    | such ds p =>
      intro p' hp
      have hdecl : τ'.ofDecl p'.2 = τ.ofDecl p'.2 :=
        (hparts _ (List.mem_append_left _ (List.mem_append_left _
          (List.mem_map_of_mem (List.of_mem_zip hp).2))) _ rfl).symm
      rw [htarget _ (List.of_mem_zip hp).1, hdecl]
      exact h p' hp

/-- A check that is accepted is one of a well-typed formula, and publishes what its typings say. -/
theorem Formula.published_of_check {s s' : Store} {f : Formula} {env inferred : Environment}
    (hfits : f.Fits s) (hr : f.check? s env = some (.ok (inferred, s'))) :
    f.WellTyped s env ∧ ∀ τ : Typing, τ.Types s env f → τ.Published s s' env inferred f := by
  obtain ⟨hw, _, _, heq, hpub⟩ | ⟨-, e, heq⟩ := check_spec hfits hr
  · cases heq
    exact ⟨hw, hpub⟩
  · cases heq

/-- What is held fits the store: nodes are as construction leaves them and have slots of their own,
and a typed node has typed parts and obeys its rule. -/
structure Store.Sound (s : Store) (held : Set Formula) : Prop where
  fits : ∀ f ∈ held, f.NodeFits s
  formed : ∀ f ∈ held, f.Formed
  closed : ClosedSet held
  slots : ∀ f ∈ held, ∀ g ∈ held, ∀ x, f.slot? = some x → g.slot? = some x → f = g
  marks : ∀ f ∈ held, ∀ g ∈ held, ∀ x, f.mark? = some x → g.mark? = some x → f = g
  typed : ∀ f ∈ held, f.isTyped s → f.PartsTyped s ∧ s.typing.Obeys f

namespace Store.Sound

variable {s s' : Store} {held held' : Set Formula} {f : Formula}

theorem empty : Store.empty.Sound ∅ := by
  constructor <;> intro f hf <;> cases hf

theorem mono (h : s.Sound held') (hsub : held ⊆ held') (hclosed : ClosedSet held) : s.Sound held :=
  ⟨fun f hf => h.fits f (hsub hf), fun f hf => h.formed f (hsub hf), hclosed,
    fun f hf g hg => h.slots f (hsub hf) g (hsub hg),
    fun f hf g hg => h.marks f (hsub hf) g (hsub hg), fun f hf => h.typed f (hsub hf)⟩

theorem slot_lt (h : s.Sound held) (hf : f ∈ held) {x : Nat} (hx : f.slot? = some x) :
    x < s.types.size := by
  have hfit := h.fits f hf
  cases f with
  | expr e => cases hx; exact hfit.1
  | decl d => cases hx; exact hfit
  | pred p => cases hx
  | assignment a => cases hx

theorem mark_lt (h : s.Sound held) (hf : f ∈ held) {x : Nat} (hx : f.mark? = some x) :
    x < s.marks.size := by
  have hfit := h.fits f hf
  cases f with
  | expr e => cases hx
  | decl d => cases hx
  | pred p => cases hx; exact hfit.1
  | assignment a => cases hx; exact hfit.1

theorem typing_slot_eq (k : s.Later s') {g : Formula} (hg : g.isTyped s) {x : Nat}
    (hx : g.slot? = some x) : s.typing.slot x = s'.typing.slot x := by
  obtain ⟨t, ht⟩ := Formula.exists_type? hg hx
  rw [typing_slot ht, typing_slot (k.type? x t ht)]

/-- A typed node obeys its rule whatever is filled in later. -/
theorem obeys_later (k : s.Later s') (hf : f.isTyped s) (hparts : f.PartsTyped s)
    (h : s.typing.Obeys f) : s'.typing.Obeys f :=
  h.congr (fun _ hx => typing_slot_eq k hf hx) fun g hg _ hx => typing_slot_eq k (hparts g hg) hx

/-- What is held is typed after new slots were added only if it was before. -/
theorem isTyped_of_grown (h : s.Sound held) (k : s.Grown s') (hf : f ∈ held) (htyped : f.isTyped s') :
    f.isTyped s := by
  cases f with
  | expr e =>
    have heq := k.type? _ (h.slot_lt hf rfl)
    simpa [Formula.isTyped, Expr.isTyped, Expr.type?, heq] using htyped
  | decl d =>
    have heq := k.type? _ (h.slot_lt hf rfl)
    simpa [Formula.isTyped, Declaration.type?, heq] using htyped
  | pred p =>
    have heq := k.isMarked _ (h.mark_lt hf rfl)
    simpa [Formula.isTyped, Pred.isTyped, heq] using htyped
  | assignment a =>
    have heq := k.isMarked _ (h.mark_lt hf rfl)
    simpa [Formula.isTyped, Assignment.isTyped, heq] using htyped

theorem grown (h : s.Sound held) (k : s.Grown s') : s'.Sound held := by
  refine ⟨fun f hf => (h.fits f hf).mono k.later, h.formed, h.closed, h.slots, h.marks,
    fun f hf htyped => ?_⟩
  have hold := h.isTyped_of_grown k hf htyped
  obtain ⟨hparts, hobeys⟩ := h.typed f hf hold
  exact ⟨hparts.mono k.later, obeys_later k.later hold hparts hobeys⟩

/-- A new node over what is held, with a slot that nothing held has. -/
theorem add (h : s.Sound held) (hfits : f.NodeFits s) (hformed : f.Formed)
    (hparts : ∀ g ∈ f.components, g ∈ held)
    (hslot : ∀ g ∈ held, ∀ x, f.slot? = some x → g.slot? ≠ some x)
    (hmark : ∀ g ∈ held, ∀ x, f.mark? = some x → g.mark? ≠ some x)
    (htyped : f.isTyped s → f.PartsTyped s ∧ s.typing.Obeys f) : s.Sound (insert f held) := by
  refine ⟨?_, ?_, ?_, ?_, ?_, ?_⟩
  · rintro g (rfl | hg)
    exacts [hfits, h.fits g hg]
  · rintro g (rfl | hg)
    exacts [hformed, h.formed g hg]
  · rintro g (rfl | hg) k hk
    exacts [.inr (hparts k hk), .inr (h.closed g hg k hk)]
  · rintro g (rfl | hg) k (rfl | hk) x hgx hkx
    exacts [rfl, absurd hkx (hslot k hk x hgx), absurd hgx (hslot g hg x hkx),
      h.slots g hg k hk x hgx hkx]
  · rintro g (rfl | hg) k (rfl | hk) x hgx hkx
    exacts [rfl, absurd hkx (hmark k hk x hgx), absurd hgx (hmark g hg x hkx),
      h.marks g hg k hk x hgx hkx]
  · rintro g (rfl | hg)
    exacts [htyped, h.typed g hg]

/-- A check fills slots of the formula only, and all of them. -/
theorem later_of_published {env inferred : Environment} {τ : Typing}
    (hsize : s.SameSize s') (h : τ.Published s s' env inferred f) : s.Later s' := by
  refine ⟨hsize.types.ge, hsize.marks.ge, fun x t ht => ?_, fun x hx => (h.marks x).2 (.inl hx)⟩
  rw [h.kept x (.inr (by simp [ht])), ht]

/-- All nodes of a checked formula have the types that the check found. -/
theorem isTyped_of_published {env inferred : Environment} {τ : Typing}
    (h : τ.Published s s' env inferred f) {o : Occurrence} (ho : o ∈ f.occurrences) :
    o.node.isTyped s' ∧ ∀ x, o.node.slot? = some x → τ.slot x = s'.typing.slot x := by
  have hslot : ∀ x, o.node.slot? = some x → ∃ t, s'.type? x = some t ∧ τ.slot x = t.named := by
    intro x hx
    obtain ⟨t, ht, heq⟩ := Option.map_eq_some_iff.1 (h.types x (List.mem_filterMap.2 ⟨o, ho, hx⟩))
    exact ⟨t, ht, heq.symm⟩
  have hmark : ∀ x, o.node.mark? = some x → s'.isMarked x := fun x hx =>
    (h.marks x).2 (.inr (List.mem_filterMap.2 ⟨o, ho, hx⟩))
  refine ⟨?_, fun x hx => ?_⟩
  · obtain ⟨scope, n⟩ := o
    cases n with
    | expr e => exact Option.isSome_iff_exists.2 ((hslot _ rfl).imp fun _ h => h.1)
    | decl d => exact Option.isSome_iff_exists.2 ((hslot _ rfl).imp fun _ h => h.1)
    | pred p => exact hmark _ rfl
    | assignment a => exact hmark _ rfl
  · obtain ⟨t, ht, heq⟩ := hslot x hx
    rw [heq, typing_slot ht]

/-- What is typed after a check was so before, or is a node of the checked formula. -/
theorem cases_of_published {env inferred : Environment} {τ : Typing} (h : s.Sound held)
    (hpub : τ.Published s s' env inferred f) (hwithin : Within held f.occurrences) {g : Formula}
    (hg : g ∈ held) (htyped : g.isTyped s') : g.isTyped s ∨ ∃ o ∈ f.occurrences, o.node = g := by
  have hslot : ∀ x, g.slot? = some x → (s'.type? x).isSome →
      (s.type? x).isSome ∨ ∃ o ∈ f.occurrences, o.node = g := by
    intro x hx hsome
    by_cases hin : x ∈ f.typeSlots
    · obtain ⟨o, ho, hn⟩ := List.mem_filterMap.1 hin
      exact .inr ⟨o, ho, h.slots _ (hwithin o ho) g hg x hn hx⟩
    · exact .inl (by rwa [← hpub.kept x (.inl hin)])
  have hmark : ∀ x, g.mark? = some x → s'.isMarked x →
      s.isMarked x ∨ ∃ o ∈ f.occurrences, o.node = g := by
    intro x hx hmarked
    rcases (hpub.marks x).1 hmarked with hold | hin
    · exact .inl hold
    · obtain ⟨o, ho, hn⟩ := List.mem_filterMap.1 hin
      exact .inr ⟨o, ho, h.marks _ (hwithin o ho) g hg x hn hx⟩
  cases g with
  | expr e => exact hslot _ rfl htyped
  | decl d => exact hslot _ rfl htyped
  | pred p => exact hmark _ rfl htyped
  | assignment a => exact hmark _ rfl htyped

theorem check {env inferred : Environment} (h : s.Sound held) (hf : f ∈ held)
    (hr : f.check? s env = some (.ok (inferred, s'))) : s.Later s' ∧ s'.Sound held := by
  have hwithin := Formula.within h.closed f hf
  obtain ⟨hw, hpub⟩ := Formula.published_of_check (fun o ho => h.fits _ (hwithin o ho)) hr
  obtain ⟨τ, hτ⟩ := hw.typed
  have hpub := hpub τ hτ
  have hlater := later_of_published (Formula.sizes_check? hr) hpub
  have hnode : ∀ o ∈ f.occurrences, o.node.PartsTyped s' ∧ s'.typing.Obeys o.node := by
    intro o ho
    refine ⟨fun g hg => ?_, (hτ.node o ho).1.congr (isTyped_of_published hpub ho).2 fun g hg => ?_⟩
    all_goals obtain ⟨o', ho', rfl⟩ := f.closed o ho g hg
    exacts [(isTyped_of_published hpub ho').1, (isTyped_of_published hpub ho').2]
  refine ⟨hlater, fun g hg => (h.fits g hg).mono hlater, h.formed, h.closed, h.slots, h.marks,
    fun g hg htyped => ?_⟩
  obtain hold | ⟨o, ho, rfl⟩ := cases_of_published h hpub hwithin hg htyped
  · obtain ⟨hparts, hobeys⟩ := h.typed g hg hold
    exact ⟨hparts.mono hlater, obeys_later hlater hold hparts hobeys⟩
  · exact hnode o ho

end Store.Sound
end SetLang
