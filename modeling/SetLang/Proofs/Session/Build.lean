import SetLang.Proofs.Session.Sound

/-! What construction adds to a session: a node over parts that are held, with a slot of its own. -/

namespace SetLang

/-- The factory of a node; declarations belong to any. -/
def Formula.factory? : Formula → Option Factory
  | expr e => some e.factory
  | pred p => some p.factory
  | assignment a => some a.node.factory
  | decl _ => none

def Formula.extension? : Formula → Option Extension
  | expr (.extended _ ext _ _ _) => some ext
  | pred (.extended _ ext _ _) => some ext
  | _ => none

/-- An extended node belongs to a factory in which its extension is registered. -/
theorem Formula.Formed.registered {g : Formula} {ext : Extension} (h : g.Formed) (hext : g.extension? = some ext) :
    ∃ f, g.factory? = some f ∧ (f.extension? ext.id).isSome := by
  unfold Formula.extension? at hext
  split at hext <;> cases hext
  all_goals exact ⟨_, rfl, h.1⟩

def Formula.MadeBy (f : Factory) (g : Formula) : Prop := ∀ h ∈ g.nodes, ∀ f', h.factory? = some f' → f' = f

/-- The factory of the formula is the only one of its identity that nodes belong to. -/
def Formula.OfFactory (f : Factory) (g : Formula) : Prop :=
  g.factory? = some f ∧ ∀ h ∈ g.nodes, ∀ f', h.factory? = some f' → f'.id = f.id → f' = f

theorem Formula.ofFactory_of_replicate {f : Factory} {g : Formula} (n : Nat) (hg : g.factory? = some f)
    (h : g.occurrences.filterMap (·.node.factory?) = .replicate n f) : g.OfFactory f := by
  refine ⟨hg, ?_⟩
  rintro _ ⟨o, ho, rfl⟩ f' hf' -
  exact List.eq_of_mem_replicate (h ▸ List.mem_filterMap.2 ⟨o, ho, hf'⟩)

section

open Formula

theorem Formula.factories_exprs (es : List Expr) :
    (es.map Formula.expr).filterMap factory? = es.map Expr.factory := by
  simp [factory?, Function.comp_def]

theorem Formula.factories_preds (ps : List Pred) :
    (ps.map Formula.pred).filterMap factory? = ps.map Pred.factory := by
  simp [factory?, Function.comp_def]

theorem Formula.factories_decls (ds : List Declaration) :
    (ds.map Formula.decl).filterMap factory? = [] := by
  simp [factory?]

theorem Expr.partFactories_eq (e : Expr) : e.partFactories = e.children.filterMap factory? := by
  cases e <;> simp only [partFactories, children, List.filterMap_append, factories_exprs,
    factories_preds, factories_decls] <;> rfl

theorem Pred.partFactories_eq (p : Pred) : p.partFactories = p.children.filterMap factory? := by
  cases p <;> simp only [partFactories, children, List.filterMap_append, factories_exprs,
    factories_preds, factories_decls] <;> rfl

end

namespace Store

variable {s : Store}

def addSlot (s : Store) : Store := { s with types := s.types.push none }

def addMark (s : Store) : Store := { s with marks := s.marks.push false }

theorem size_addSlot : s.addSlot.types.size = s.types.size + 1 := by simp [addSlot]

theorem size_addMark : s.addMark.marks.size = s.marks.size + 1 := by simp [addMark]

theorem grown_push (s : Store) (t : Option Ty) : s.Grown { s with types := s.types.push t } := by
  refine ⟨by simp, Nat.le_refl _, fun x hx => ?_, fun _ _ => rfl⟩
  simp [type?, Array.getElem?_push, Nat.ne_of_lt hx]

theorem grown_addSlot (s : Store) : s.Grown s.addSlot := s.grown_push none

theorem grown_addMark (s : Store) : s.Grown s.addMark := by
  refine ⟨Nat.le_refl _, by simp [addMark], fun _ _ => rfl, fun x hx => ?_⟩
  simp [isMarked, addMark, Array.getElem?_push, Nat.ne_of_lt hx]

theorem type?_addSlot (s : Store) : s.addSlot.type? s.types.size = none := by simp [type?, addSlot]

theorem isMarked_addMark (s : Store) : s.addMark.isMarked s.marks.size = false := by simp [isMarked, addMark]

/-- Filling a slot that the earlier store does not have. -/
theorem Grown.put {s' : Store} (h : s.Grown s') {slot : Nat} (hs : s.types.size ≤ slot)
    (hs' : slot < s'.types.size) (t : Ty) : s.Grown (s'.put slot t) := by
  refine ⟨by simpa using h.types, h.marks, fun x hx => ?_, h.isMarked⟩
  rw [type?_put hs', if_neg (by omega), h.type? x hx]

theorem Grown.mark {s' : Store} (h : s.Grown s') {slot : Nat} (hs : s.marks.size ≤ slot)
    (hs' : slot < s'.marks.size) : s.Grown (s'.mark slot) := by
  refine ⟨h.types, by simpa using h.marks, h.type?, fun x hx => ?_⟩
  rw [isMarked_mark hs', decide_eq_false (by omega), Bool.false_or, h.isMarked x hx]

/-- Filling an empty slot. -/
theorem later_put {slot : Nat} (h : s.type? slot = none) (hs : slot < s.types.size) (t : Ty) :
    s.Later (s.put slot t) := by
  refine ⟨by simp, Nat.le_refl _, fun x u hx => ?_, fun _ hx => hx⟩
  rw [type?_put hs, if_neg, hx]
  rintro rfl
  rw [h] at hx
  cases hx

theorem later_mark {slot : Nat} (hs : slot < s.marks.size) : s.Later (s.mark slot) := by
  refine ⟨Nat.le_refl _, by simp, fun _ _ hx => hx, fun x hx => ?_⟩
  rw [isMarked_mark hs, hx, Bool.or_true]

end Store

namespace Build

variable {s : Store}

theorem run_typeSlot : (typeSlot none).run s = (.ok s.types.size, s.addSlot) := rfl

theorem run_markSlot : markSlot.run s = (.ok s.marks.size, s.addMark) := rfl

theorem run_expr (f : Factory) (make : Node → Expr) {e : Expr} (he : e = make ⟨f, s.types.size⟩) :
    (Build.expr f make).run s =
      if e.partFactories.all fun g => g.id == f.id then
        match e.synthesized? s.addSlot with
        | .ok (some t) => (.ok e, s.addSlot.put e.node.slot t)
        | .ok none => (.ok e, s.addSlot)
        | .error m => (.error m, s.addSlot)
      else (.error .mixedFactories, s.addSlot) := by
  subst he
  rw [Build.expr, run_bind_ok run_typeSlot]
  simp only [run_bind, requireFactory, require]
  split_ifs with h
  · simp only [run_pure, run_get]
    cases (make ⟨f, s.types.size⟩).synthesized? s.addSlot with
    | error m => rfl
    | ok r => cases r <;> rfl
  · rfl

theorem run_pred (f : Factory) (make : Node → Pred) {p : Pred} (hp : p = make ⟨f, s.marks.size⟩) :
    (Build.pred f make).run s =
      if p.partFactories.all fun g => g.id == f.id then
        match p.synthesized s.addMark with
        | .ok true => (.ok p, s.addMark.mark p.node.slot)
        | .ok false => (.ok p, s.addMark)
        | .error m => (.error m, s.addMark)
      else (.error .mixedFactories, s.addMark) := by
  subst hp
  rw [Build.pred, run_bind_ok run_markSlot]
  simp only [run_bind, requireFactory, require]
  split_ifs with h
  · simp only [run_pure, run_get]
    cases (make ⟨f, s.marks.size⟩).synthesized s.addMark with
    | error m => rfl
    | ok b => cases b <;> rfl
  · rfl

/-- A construction with a condition that holds. -/
theorem succeeds_required {α : Type} {x : Build α} {Q : α → Store → Prop} {b : Bool} {m : Misuse} (hb : b)
    (h : Succeeds x s Q) : Succeeds (do
      require b m
      x) s Q := by
  subst hb
  exact Succeeds.bind_run rfl h

theorem yields_required {α : Type} {x : Build α} {Q : α → Store → Prop} {b : Bool} {m : Misuse} (h : Yields x s Q) :
    Yields (do
      require b m
      x) s Q := by
  cases b with
  | true => exact h
  | false => exact Yields.throw

theorem ids_of_all {f : Factory} {fs : List Factory} (h : (fs.all fun g => g.id == f.id) = true) :
    ∀ g ∈ fs, g.id = f.id := fun g hg => eq_of_beq (List.all_eq_true.1 h g hg)

/-- What is built is the node that was asked for, in the factory of its parts. -/
theorem yields_node (f : Factory) (make : Node → Expr) : Yields (Build.expr f make) s fun e _ =>
    ∃ n, e = make n ∧ n.factory = f ∧ ∀ g ∈ e.partFactories, g.id = f.id := by
  intro e s' hrun
  rw [run_expr f make rfl] at hrun
  split_ifs at hrun with hids
  · split at hrun <;> cases hrun <;> exact ⟨_, rfl, rfl, ids_of_all hids⟩
  · cases hrun

theorem yields_expr (f : Factory) (make : Node → Expr) :
    Yields (Build.expr f make) s fun e _ => ∃ n, e = make n :=
  (yields_node f make).mono fun _ _ => Exists.imp fun _ => And.left

/-- A predicate that is built does not change the types. -/
theorem yields_predNode (f : Factory) (make : Node → Pred) : Yields (Build.pred f make) s fun p s' =>
    (∃ n, p = make n ∧ n.factory = f ∧ ∀ g ∈ p.partFactories, g.id = f.id) ∧ s'.types = s.types := by
  intro p s' hrun
  rw [run_pred f make rfl] at hrun
  split_ifs at hrun with hids
  · split at hrun <;> cases hrun <;> exact ⟨⟨_, rfl, rfl, ids_of_all hids⟩, rfl⟩
  · cases hrun

theorem yields_pred (f : Factory) (make : Node → Pred) :
    Yields (Build.pred f make) s fun p _ => ∃ n, p = make n :=
  (yields_predNode f make).mono fun _ _ h => h.1.imp fun _ => And.left

end Build

/-- A new expression that is given a type that its rule admits. -/
theorem Expr.obeys_put {s : Store} {e : Expr} {t : Ty} (hempty : s.type? e.node.slot = none)
    (hroom : e.node.slot < s.types.size) (hparts : (Formula.expr e).PartsTyped s)
    (hadmits : e.Admits s t.named) : (Formula.expr e).PartsTyped (s.put e.node.slot t) ∧
      (s.put e.node.slot t).typing.Obeys (.expr e) := by
  have hlater := Store.later_put hempty hroom t
  have htype : (s.put e.node.slot t).typing.ofExpr e = t.named :=
    Store.typing_slot (by rw [Store.type?_put hroom, if_pos rfl])
  have hoperands := hlater.map_ofExpr fun a ha => hparts _ (e.operands_subset a ha)
  obtain ⟨hrule, hexplicit⟩ := hadmits
  refine ⟨hparts.mono hlater, ?_, fun u hu => htype.trans (hexplicit u hu)⟩
  rw [hoperands, htype]
  exact hrule

def Store.soundness : Invariant Store Formula := ⟨Sound, Later, .refl, .trans⟩

variable {s : Store} {held : Set Formula} {f : Factory}

theorem Store.Sound.insert_expr {s' : Store} {e : Expr} (h : s.Sound held)
    (k : s.Grown s') (hslot : e.node.slot = s.types.size) (hroom : s.types.size < s'.types.size)
    (hfits : e.Fitting) (hformed : e.Formed) (hparts : ∀ g ∈ e.children, g ∈ held)
    (htyped : e.isTyped s' → (Formula.expr e).PartsTyped s' ∧ s'.typing.Obeys (.expr e)) :
    s'.Sound (insert (.expr e) held) := by
  refine (h.grown k).add ⟨hslot ▸ hroom, hfits⟩ hformed hparts (fun g hg x hx hgx => ?_)
    (fun g hg x hx => by cases hx) htyped
  cases hx
  have := h.slot_lt hg hgx
  omega

theorem Store.Sound.insert_pred {s' : Store} {p : Pred} (h : s.Sound held)
    (k : s.Grown s') (hslot : p.node.slot = s.marks.size) (hroom : s.marks.size < s'.marks.size)
    (hfits : p.Fitting) (hformed : p.Formed) (hparts : ∀ g ∈ p.children, g ∈ held)
    (htyped : p.isTyped s' → (Formula.pred p).PartsTyped s' ∧ s'.typing.Obeys (.pred p)) :
    s'.Sound (insert (.pred p) held) := by
  refine (h.grown k).add ⟨hslot ▸ hroom, hfits⟩ hformed hparts
    (fun g hg x hx => by cases hx) (fun g hg x hx hgx => ?_) htyped
  cases hx
  have := h.mark_lt hg hgx
  omega

namespace Build

/-- A new expression over what is held. -/
theorem preserves_expr (make : Node → Expr) (hnode : ∀ n, (make n).node = n)
    (hfits : ∀ n, (make n).Fitting) (hformed : ∀ n, n.factory = f → (make n).Formed)
    (hparts : ∀ n, ∀ g ∈ (make n).children, g ∈ held) :
    Preserves Store.soundness (Build.expr f make) s held fun e _ held' => .expr e ∈ held' := by
  intro (hsound : s.Sound held)
  generalize he : make ⟨f, s.types.size⟩ = e
  have hslot : e.node.slot = s.types.size := by rw [← he, hnode]
  have hroom : s.types.size < s.addSlot.types.size := by simp [Store.size_addSlot]
  have hgrown := s.grown_addSlot
  rw [run_expr f make he.symm]
  split_ifs
  · have hanswers := Expr.synthesized_spec (s := s.addSlot) (he ▸ hfits _)
    generalize e.synthesized? s.addSlot = r at hanswers
    cases hanswers with
    | one t hC =>
      have hput := hgrown.put hslot.ge (hslot ▸ hroom) t
      refine ⟨_, Set.subset_insert _ _, hput.later,
        hsound.insert_expr hput hslot (by simpa using hroom) (he ▸ hfits _) (he ▸ hformed _ rfl)
          (he ▸ hparts _) fun _ => ?_, fun a ha => ?_⟩
      · obtain ⟨hall, hadmits⟩ := (hC _).2 rfl
        exact Expr.obeys_put (hslot ▸ s.type?_addSlot) (hslot ▸ hroom) hall hadmits
      · cases ha
        exact Set.mem_insert _ _
    | none hnot =>
      refine ⟨_, Set.subset_insert _ _, hgrown.later,
        hsound.insert_expr hgrown hslot hroom (he ▸ hfits _) (he ▸ hformed _ rfl) (he ▸ hparts _)
          fun htyped => ?_, fun a ha => ?_⟩
      · rw [Expr.isTyped, Expr.type?, hslot, Store.type?_addSlot] at htyped
        cases htyped
      · cases ha
        exact Set.mem_insert _ _
  · exact ⟨held, Set.Subset.rfl, hgrown.later, hsound.grown hgrown,
      fun a ha => by cases ha⟩

/-- A new predicate over what is held. -/
theorem preserves_pred (make : Node → Pred) (hnode : ∀ n, (make n).node = n)
    (hfits : ∀ n, (make n).Fitting) (hformed : ∀ n, n.factory = f → (make n).Formed)
    (hparts : ∀ n, ∀ g ∈ (make n).children, g ∈ held) :
    Preserves Store.soundness (Build.pred f make) s held fun p _ held' => .pred p ∈ held' := by
  intro (hsound : s.Sound held)
  generalize hp : make ⟨f, s.marks.size⟩ = p
  have hslot : p.node.slot = s.marks.size := by rw [← hp, hnode]
  have hroom : s.marks.size < s.addMark.marks.size := by simp [Store.size_addMark]
  have hgrown := s.grown_addMark
  rw [run_pred f make hp.symm]
  split_ifs
  · obtain ⟨b, hb, hiff⟩ := Pred.synthesized_spec (s := s.addMark) (hp ▸ hfits _)
    rw [hb]
    cases b with
    | true =>
      have hmark := hgrown.mark hslot.ge (hslot ▸ hroom)
      refine ⟨_, Set.subset_insert _ _, hmark.later,
        hsound.insert_pred hmark hslot (by simpa using hroom) (hp ▸ hfits _) (hp ▸ hformed _ rfl)
          (hp ▸ hparts _) fun _ => ?_, fun a ha => ?_⟩
      · obtain ⟨hall, hobeys⟩ := hiff.1 rfl
        exact ⟨hall.mono (Store.later_mark (hslot ▸ hroom)), hobeys⟩
      · cases ha
        exact Set.mem_insert _ _
    | false =>
      refine ⟨_, Set.subset_insert _ _, hgrown.later,
        hsound.insert_pred hgrown hslot hroom (hp ▸ hfits _) (hp ▸ hformed _ rfl) (hp ▸ hparts _)
          fun htyped => ?_, fun a ha => ?_⟩
      · rw [Pred.isTyped, hslot, Store.isMarked_addMark] at htyped
        cases htyped
      · cases ha
        exact Set.mem_insert _ _
  · exact ⟨held, Set.Subset.rfl, hgrown.later, hsound.grown hgrown,
      fun a ha => by cases ha⟩

/-- A new declaration, with or without a type. -/
theorem preserves_declare (name : String) (t : Option Ty) :
    Preserves Store.soundness (declare name t) s held fun d _ held' => .decl d ∈ held' := by
  intro (hsound : s.Sound held)
  have hgrown := s.grown_push t
  have hsound' := (hsound.grown hgrown).add (f := .decl ⟨name, s.types.size⟩)
    (by simp [Formula.NodeFits]) trivial (fun _ hg => by cases hg) (fun g hg x hx hgx => ?_)
    (fun g hg x hx => by cases hx) fun _ => ⟨(fun _ hg => by cases hg), trivial⟩
  · refine ⟨_, Set.subset_insert _ _, hgrown.later, hsound', fun d hd => ?_⟩
    cases hd
    exact Set.mem_insert _ _
  · cases hx
    exact absurd (hsound.slot_lt hg hgx) (Nat.lt_irrefl _)

theorem preserves_copy (d : Declaration) :
    Preserves Store.soundness (copy d) s held fun d _ held' => .decl d ∈ held' :=
  preserves_declare _ _

theorem preserves_copies (ds : List Declaration) :
    Preserves Store.soundness (ds.mapM copy) s held fun ds' _ held' =>
      (∀ d ∈ ds', .decl d ∈ held') ∧ ds'.length = ds.length := by
  induction ds generalizing s held with
  | nil => exact Preserves.pure fun _ => ⟨(fun _ h => by cases h), rfl⟩
  | cons d ds ih =>
    rw [List.mapM_cons]
    refine (preserves_copy d).bind fun d' s₁ held₁ _ _ hd => ?_
    refine ih.bind fun ds' s₂ held₂ hsub _ ⟨hds, hlen⟩ => Preserves.pure fun _ => ?_
    exact ⟨List.forall_mem_cons.2 ⟨hsub hd, hds⟩, by simp [hlen]⟩

theorem preserves_require {I : Invariant Store Formula} (condition : Bool) (m : Misuse) :
    Preserves I (require condition m) s held fun _ s' held' =>
      s' = s ∧ held' = held ∧ condition = true := by
  unfold require
  cases condition with
  | true => exact Preserves.pure fun _ => ⟨rfl, rfl, rfl⟩
  | false => exact Preserves.throw

theorem preserves_requireTargets {I : Invariant Store Formula} (targets : List Expr)
    (seen : List String) : Preserves I (requireTargets seen targets) s held fun _ s' held' =>
      s' = s ∧ held' = held := by
  induction targets generalizing seen with
  | nil => exact Preserves.pure fun _ => ⟨rfl, rfl⟩
  | cons e targets ih =>
    unfold requireTargets
    cases e.freeName? with
    | none => exact Preserves.throw
    | some x =>
      refine (preserves_require _ _).bind fun _ s' held' _ _ h => ?_
      obtain ⟨rfl, rfl, -⟩ := h
      exact ih _

theorem preserves_assignment {targets : List Expr} {assigned : Assigned}
    (htargets : ∀ e ∈ targets, .expr e ∈ held) (hassigned : ∀ g ∈ assigned.components, g ∈ held) :
    Preserves Store.soundness (assignment f targets assigned) s held fun a _ held' =>
      .assignment a ∈ held' := by
  unfold assignment
  refine (preserves_require _ _).bind fun _ s' held' _ _ h => ?_
  obtain ⟨rfl, rfl, -⟩ := h
  refine (preserves_requireTargets _ _).bind fun _ s' held' _ _ h => ?_
  obtain ⟨rfl, rfl⟩ := h
  refine (preserves_require _ _).bind fun _ s' held' _ _ h => ?_
  obtain ⟨rfl, rfl, hcount⟩ := h
  refine (preserves_require _ _).bind fun _ s' held' _ _ h => ?_
  obtain ⟨rfl, rfl, -⟩ := h
  intro (hsound : s'.Sound held')
  generalize ha : (⟨⟨f, s'.marks.size⟩, targets, assigned⟩ : Assignment) = a
  have hcount : a.targets.length = a.assigned.count := by simpa [← ha] using hcount
  have hlen : a.targets.length = a.assigned.slots.length := by
    rw [hcount]
    cases a.assigned <;> simp [Assigned.count, Assigned.slots]
  have hgrown := s'.grown_addMark
  have hslot : a.node.slot = s'.marks.size := by rw [← ha]
  have hroom : s'.marks.size < s'.addMark.marks.size := by simp [Store.size_addMark]
  obtain ⟨b, hb, hiff⟩ := Assignment.synthesized_spec (s := s'.addMark) hlen
  have hadd : ∀ s'' : Store, s'.Grown s'' → s'.marks.size < s''.marks.size →
      (a.isTyped s'' → (Formula.assignment a).PartsTyped s'' ∧
        s''.typing.Obeys (.assignment a)) → s''.Sound (insert (.assignment a) held') := by
    intro s'' hgrown hroom htyped
    refine (hsound.grown hgrown).add ⟨hslot ▸ hroom, ?_⟩ trivial ?_ (fun _ _ _ hx => by cases hx)
      (fun g hg x hx hgx => ?_) htyped
    · revert hlen
      cases a.assigned <;> simp [Assigned.slots]
    · subst ha
      simpa [Formula.components, or_imp, forall_and] using ⟨hassigned, htargets⟩
    · cases hx
      exact absurd (hsound.mark_lt hg hgx) (hslot ▸ Nat.lt_irrefl _)
  rw [run_bind_ok run_markSlot]
  simp only [run_bind, run_get, ha, hb]
  cases b with
  | true =>
    have hmark := hgrown.mark (Nat.le_refl _) hroom
    have hroom' : s'.marks.size < (s'.addMark.mark s'.marks.size).marks.size := by simpa using hroom
    refine ⟨_, Set.subset_insert _ _, hmark.later, hadd _ hmark hroom' fun _ => ?_,
      fun a ha => ?_⟩
    · obtain ⟨hall, hobeys⟩ := hiff.1 rfl
      exact ⟨hall.mono (Store.later_mark hroom), hobeys⟩
    · cases ha
      exact Set.mem_insert _ _
  | false =>
    refine ⟨_, Set.subset_insert _ _, hgrown.later,
      hadd _ hgrown hroom fun htyped => ?_, fun a ha => ?_⟩
    · have hmarked : s'.addMark.isMarked a.node.slot := htyped
      rw [hslot, Store.isMarked_addMark] at hmarked
      cases hmarked
    · cases ha
      exact Set.mem_insert _ _

end Build
end SetLang
