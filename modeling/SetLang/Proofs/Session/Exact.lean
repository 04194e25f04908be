import SetLang.Proofs.Session

/-! Calls. A call only adds slots and fills none twice. What it makes is typed exactly if its parts are typed
and its rule holds, for an expression with one type and no other. -/

namespace SetLang

variable {s s' s'' : Store} {f : Factory}

namespace Formula

variable {n : Formula} {x : Nat}

/-- The node is typed exactly if its parts are and its rule holds. For an expression, the rule and the type
given to it leave one type, which it then has. -/
def Exact (s : Store) : Formula → Prop
  | expr e => (e.isTyped s ↔ (expr e).PartsTyped s ∧ ∃! g, e.Admits s g) ∧
      ∀ t, e.type? s = some t → e.Admits s t.named
  | pred p => p.isTyped s ↔ (pred p).PartsTyped s ∧ s.typing.Obeys (.pred p)
  | assignment a => a.isTyped s ↔ (assignment a).PartsTyped s ∧ s.typing.Obeys (.assignment a)
  | decl _ => True

theorem exact_mark (hx : n.mark? = some x) (hroom : x < s.marks.size) (hparts : n.PartsTyped s)
    (hobeys : s.typing.Obeys n) : n.Exact (s.mark x) := by
  have hmarked : (s.mark x).isMarked x := by simp [Store.isMarked_mark hroom]
  have hparts : n.PartsTyped (s.mark x) := hparts.mono (Store.later_mark hroom)
  cases n with
  | expr e | decl d => cases hx
  | pred p | assignment a =>
    cases hx
    exact iff_of_true hmarked ⟨hparts, hobeys⟩

theorem exact_of_unmarked (hx : n.mark? = some x) (hempty : s.isMarked x = false)
    (hnot : ¬ (n.PartsTyped s ∧ s.typing.Obeys n)) : n.Exact s := by
  have hempty : ¬ s.isMarked x := by simp [hempty]
  cases n with
  | expr e | decl d => cases hx
  | pred p | assignment a =>
    cases hx
    exact iff_of_false hempty hnot

end Formula

namespace Expr

variable {e : Expr} {t : Ty}

theorem exact_put (hempty : s.type? e.node.slot = none) (hroom : e.node.slot < s.types.size)
    (hC : ∀ g, ((Formula.expr e).PartsTyped s ∧ e.Admits s g) ↔ g = t.named) :
    (Formula.expr e).Exact (s.put e.node.slot t) := by
  have hparts := ((hC _).2 rfl).1
  have hlater := Store.later_put hempty hroom t
  have htype : e.type? (s.put e.node.slot t) = some t := by rw [type?, Store.type?_put hroom, if_pos rfl]
  have hadmits : ∀ g, e.Admits (s.put e.node.slot t) g ↔ g = t.named := fun g =>
    (admits_iff hlater hparts g).trans ((and_iff_right hparts).symm.trans (hC g))
  refine ⟨iff_of_true (by rw [isTyped, htype]; rfl) ⟨hparts.mono hlater, t.named, (hadmits _).2 rfl,
    fun g => (hadmits g).1⟩, fun u hu => ?_⟩
  rw [htype, Option.some.injEq] at hu
  exact (hadmits _).2 (hu ▸ rfl)

theorem exact_of_empty (hempty : s.type? e.node.slot = none)
    (hnot : ¬ ∃ g, ∀ g', ((Formula.expr e).PartsTyped s ∧ e.Admits s g') ↔ g' = g) :
    (Formula.expr e).Exact s := by
  refine ⟨iff_of_false (by simp [isTyped, type?, hempty]) ?_, fun t ht => ?_⟩
  · rintro ⟨hparts, g, hg, hunique⟩
    exact hnot ⟨g, fun g' => ⟨fun h => hunique g' h.2, fun h => ⟨hparts, h ▸ hg⟩⟩⟩
  · rw [type?, hempty] at ht
    cases ht

end Expr

namespace Build

abbrev KeepsSlots {α : Type} (x : Build α) (s : Store) : Prop := Faults x s (· ≠ .slotChange)

/-- The run only adds slots and fills none twice, and its value is as stated. -/
structure Makes {α : Type} (x : Build α) (s : Store) (K : α → Store → Prop) : Prop where
  grown : s.Grown (x.run s).2
  kept : KeepsSlots x s
  value : Yields x s K

namespace Makes

variable {α β : Type} {x : Build α} {g : α → Build β} {K : α → Store → Prop} {L : β → Store → Prop}
  {a : α} {m : Misuse}

theorem of_ok (hrun : x.run s = (.ok a, s')) (hgrown : s.Grown s') (h : K a s') : Makes x s K where
  grown := by rwa [hrun]
  kept e he := by
    rw [hrun] at he
    cases he
  value b s'' hb := by
    rw [hrun] at hb
    cases hb
    exact h

theorem of_error (hrun : x.run s = (.error m, s')) (hgrown : s.Grown s') (h : m ≠ .slotChange) :
    Makes x s K where
  grown := by rwa [hrun]
  kept e he := by
    rw [hrun] at he
    cases he
    exact h
  value b s'' hb := by
    rw [hrun] at hb
    cases hb

theorem pure (h : K a s) : Makes (pure a : Build α) s K := of_ok rfl (.refl s) h

theorem throw (h : m ≠ .slotChange) : Makes (throw m : Build α) s K := of_error rfl (.refl s) h

theorem bind (h : Makes x s K) (k : ∀ a s', K a s' → Makes (g a) s' L) : Makes (x >>= g) s L := by
  cases hrun : x.run s with
  | mk r s' =>
    have hgrown := h.grown
    rw [hrun] at hgrown
    cases r with
    | ok a =>
      have hnext := k a s' (h.value a s' hrun)
      refine ⟨?_, h.kept.bind fun b t hb => (k b t (h.value b t hb)).kept,
        h.value.bind fun b t hb => (k b t hb).value⟩
      rw [run_bind_ok hrun]
      exact hgrown.trans hnext.grown
    | error m =>
      exact of_error (by rw [run_bind, hrun]) hgrown (h.kept m (by rw [hrun]))

end Makes

theorem makes_require {condition : Bool} {m : Misuse} (hm : m ≠ .slotChange) :
    Makes (require condition m) s fun _ _ => condition = true := by
  unfold require
  cases condition with
  | true => exact .pure rfl
  | false => exact .throw hm

theorem makes_requireTargets (targets : List Expr) (seen : List String) :
    Makes (requireTargets seen targets) s fun _ _ => True := by
  induction targets generalizing seen s with
  | nil => exact .pure trivial
  | cons e targets ih =>
    unfold requireTargets
    cases e.freeName? with
    | none => exact .throw (by simp)
    | some x => exact (makes_require (by simp)).bind fun _ _ _ => ih _

/-- An extension is accepted, or refused with an error of its own. -/
theorem makes_accept {l : Language} {ext : Extension} {kind : ExtensionKind} {m n : Nat} :
    Makes (lift (l.accept ext kind m n)) s fun _ _ => l.accept ext kind m n = .ok () := by
  cases haccept : l.accept ext kind m n with
  | ok a => exact .pure rfl
  | error e =>
    refine .throw ?_
    unfold Language.accept at haccept
    split_ifs at haccept <;> cases haccept <;> simp

theorem makes_declare (name : String) (t : Option Ty) : Makes (declare name t) s fun _ _ => True :=
  .of_ok rfl (s.grown_push t) trivial

theorem makes_copies (ds : List Declaration) : Makes (ds.mapM copy) s fun _ _ => True := by
  induction ds generalizing s with
  | nil => exact .pure trivial
  | cons d ds ih =>
    rw [List.mapM_cons]
    have hcopy : Makes (copy d) s fun _ _ => True := .of_ok rfl (s.grown_push (d.type? s)) trivial
    exact hcopy.bind fun _ _ _ => ih.bind fun _ _ _ => .pure trivial

theorem makes_expr (make : Node → Expr) (hnode : ∀ n, (make n).node = n)
    (hfits : ∀ n, (make n).Fitting) :
    Makes (Build.expr f make) s fun e s' => (Formula.expr e).Exact s' := by
  generalize he : make ⟨f, s.types.size⟩ = e
  have hslot : e.node.slot = s.types.size := by rw [← he, hnode]
  have hroom : e.node.slot < s.addSlot.types.size := by simp [hslot, Store.size_addSlot]
  have hempty : s.addSlot.type? e.node.slot = none := hslot ▸ s.type?_addSlot
  have hgrown := s.grown_addSlot
  have hrun := run_expr f make he.symm
  have hanswers := Expr.synthesized_spec (s := s.addSlot) (he ▸ hfits _)
  generalize e.synthesized? s.addSlot = r at hanswers hrun
  split_ifs at hrun
  · cases hanswers with
    | one t hC => exact .of_ok hrun (hgrown.put hslot.ge hroom t) (Expr.exact_put hempty hroom hC)
    | none hnot => exact .of_ok hrun hgrown (Expr.exact_of_empty hempty hnot)
  · exact .of_error hrun hgrown (by simp)

theorem makes_pred (make : Node → Pred) (hnode : ∀ n, (make n).node = n)
    (hfits : ∀ n, (make n).Fitting) :
    Makes (Build.pred f make) s fun p s' => (Formula.pred p).Exact s' := by
  generalize hp : make ⟨f, s.marks.size⟩ = p
  have hslot : p.node.slot = s.marks.size := by rw [← hp, hnode]
  have hroom : p.node.slot < s.addMark.marks.size := by simp [hslot, Store.size_addMark]
  have hempty : s.addMark.isMarked p.node.slot = false := hslot ▸ s.isMarked_addMark
  have hgrown := s.grown_addMark
  have hrun := run_pred f make hp.symm
  obtain ⟨b, hb, hiff⟩ := Pred.synthesized_spec (s := s.addMark) (hp ▸ hfits _)
  rw [hb] at hrun
  split_ifs at hrun
  · cases b with
    | true =>
      obtain ⟨hparts, hobeys⟩ := hiff.1 rfl
      exact .of_ok hrun (hgrown.mark hslot.ge hroom) (Formula.exact_mark rfl hroom hparts hobeys)
    | false =>
      refine .of_ok hrun hgrown (Formula.exact_of_unmarked rfl hempty fun h => ?_)
      cases hiff.2 h
  · exact .of_error hrun hgrown (by simp)

/-- A node over parts of the factory is made. -/
theorem succeeds_node (make : Node → Expr) (hnode : ∀ n, (make n).node = n)
    (hfactory : ∀ n, ∀ g ∈ (make n).partFactories, g = f) (hfits : ∀ n, (make n).Fitting) :
    Succeeds (Build.expr f make) s fun e s' => (∃ n, e = make n ∧ n.factory = f) ∧ s.Grown s' := by
  have hmakes := makes_expr (s := s) (f := f) make hnode hfits
  have hsame : ((make ⟨f, s.types.size⟩).partFactories.all fun g => g.id == f.id) = true := by
    rw [List.all_eq_true]
    intro g hg
    rw [hfactory _ g hg, beq_self_eq_true]
  have hgrown := hmakes.grown
  have hrun := run_expr (s := s) f make rfl
  rw [if_pos hsame] at hrun
  have hanswers := Expr.synthesized_spec (s := s.addSlot) (hfits ⟨f, s.types.size⟩)
  generalize (make ⟨f, s.types.size⟩).synthesized? s.addSlot = r at hanswers hrun
  rw [hrun] at hgrown
  cases hanswers with
  | one t _ => exact ⟨_, _, hrun, ⟨_, rfl, rfl⟩, hgrown⟩
  | none _ => exact ⟨_, _, hrun, ⟨_, rfl, rfl⟩, hgrown⟩

/-- A node without parts is made. -/
theorem succeeds_identifier (make : Node → Expr) (hnode : ∀ n, (make n).node = n)
    (hfactories : ∀ n, (make n).partFactories = []) (hfits : ∀ n, (make n).Fitting) :
    Succeeds (Build.expr f make) s fun e s' => s.Grown s' ∧ e.factory = f ∧ ∃ n, e = make n := by
  refine (succeeds_node make hnode (fun n g hg => ?_) hfits).mono fun e t' h => ?_
  · rw [hfactories] at hg
    cases hg
  · obtain ⟨⟨n, rfl, hn⟩, hgrown⟩ := h
    exact ⟨hgrown, by rw [Expr.factory, hnode, hn], n, rfl⟩

theorem succeeds_predNode (make : Node → Pred) (hnode : ∀ n, (make n).node = n)
    (hfactory : ∀ n, ∀ g ∈ (make n).partFactories, g = f) (hfits : ∀ n, (make n).Fitting) :
    Succeeds (Build.pred f make) s fun p s' => (∃ n, p = make n ∧ n.factory = f) ∧ s.Grown s' := by
  have hmakes := makes_pred (s := s) (f := f) make hnode hfits
  have hsame : ((make ⟨f, s.marks.size⟩).partFactories.all fun g => g.id == f.id) = true := by
    rw [List.all_eq_true]
    intro g hg
    rw [hfactory _ g hg, beq_self_eq_true]
  have hgrown := hmakes.grown
  have hrun := run_pred (s := s) f make rfl
  obtain ⟨b, hb, -⟩ := Pred.synthesized_spec (s := s.addMark) (hfits ⟨f, s.marks.size⟩)
  rw [if_pos hsame, hb] at hrun
  rw [hrun] at hgrown
  cases b with
  | true => exact ⟨_, _, hrun, ⟨_, rfl, rfl⟩, hgrown⟩
  | false => exact ⟨_, _, hrun, ⟨_, rfl, rfl⟩, hgrown⟩

theorem makes_assignment {targets : List Expr} {assigned : Assigned} :
    Makes (assignment f targets assigned) s fun a s' => (Formula.assignment a).Exact s' := by
  unfold assignment
  refine (makes_require (by simp)).bind fun _ _ _ => ?_
  refine (makes_requireTargets _ _).bind fun _ _ _ => ?_
  refine (makes_require (by simp)).bind fun _ _ hcount => ?_
  refine (makes_require (by simp)).bind fun _ s₁ _ => ?_
  generalize ha : (⟨⟨f, s₁.marks.size⟩, targets, assigned⟩ : Assignment) = a
  have hlen : a.targets.length = a.assigned.slots.length := by
    subst ha
    have hcount : targets.length = assigned.count := by simpa using hcount
    rw [hcount]
    cases assigned <;> simp [Assigned.count, Assigned.slots]
  have hslot : (Formula.assignment a).mark? = some s₁.marks.size := by
    rw [← ha]
    rfl
  have hroom : s₁.marks.size < s₁.addMark.marks.size := by simp [Store.size_addMark]
  have hgrown := s₁.grown_addMark
  obtain ⟨b, hb, hiff⟩ := Assignment.synthesized_spec (s := s₁.addMark) hlen
  cases b with
  | true =>
    obtain ⟨hparts, hobeys⟩ := hiff.1 rfl
    refine .of_ok (a := a) ?_ (hgrown.mark (Nat.le_refl _) hroom)
      (Formula.exact_mark hslot hroom hparts hobeys)
    rw [run_bind_ok run_markSlot]
    simp only [run_bind, run_get, ha, hb]
    rfl
  | false =>
    refine .of_ok (a := a) ?_ hgrown
      (Formula.exact_of_unmarked hslot s₁.isMarked_addMark fun h => by cases hiff.2 h)
    rw [run_bind_ok run_markSlot]
    simp only [run_bind, run_get, ha, hb]
    rfl

theorem makes_makeExpr {e : Expr} (hext : e.Genuine) :
    Makes (f.makeExpr e) s fun e s' => (Formula.expr e).Exact s' := by
  cases e with
  | binary n op l r => exact makes_expr (.binary · op l r) (fun _ => rfl) fun _ => trivial
  | unary n op a => exact makes_expr (.unary · op a) (fun _ => rfl) fun _ => trivial
  | atom n a t => exact makes_expr (.atom · a t) (fun _ => rfl) fun _ => trivial
  | set n es t => exact makes_expr (.set · es t) (fun _ => rfl) fun _ => trivial
  | bool n p => exact makes_expr (.bool · p) (fun _ => rfl) fun _ => trivial
  | bound n i t => exact makes_expr (.bound · i t) (fun _ => rfl) fun _ => trivial
  | free n x t => exact makes_expr (.free · x t) (fun _ => rfl) fun _ => trivial
  | assoc n op es =>
    refine (makes_require (by simp)).bind fun _ _ _ => ?_
    exact makes_expr (.assoc · op es) (fun _ => rfl) fun _ => trivial
  | quantified n op ds p e =>
    refine (makes_require (by simp)).bind fun _ _ _ => ?_
    refine (makes_copies ds).bind fun ds' _ _ => ?_
    exact makes_expr (.quantified · op ds' p e) (fun _ => rfl) fun _ => trivial
  | extended n ext es ps t =>
    refine makes_accept.bind fun _ _ haccept => ?_
    exact makes_expr (.extended · ext es ps t) (fun _ => rfl)
      fun _ => ⟨hext, (Language.accept_eq_ok_iff.1 haccept).2.2.1⟩

theorem makes_makePred {p : Pred} (hext : p.Genuine) :
    Makes (f.makePred p) s fun p s' => (Formula.pred p).Exact s' := by
  cases p with
  | literal n b => exact makes_pred (.literal · b) (fun _ => rfl) fun _ => trivial
  | not n p => exact makes_pred (.not · p) (fun _ => rfl) fun _ => trivial
  | connective n op p q => exact makes_pred (.connective · op p q) (fun _ => rfl) fun _ => trivial
  | comparison n op l r => exact makes_pred (.comparison · op l r) (fun _ => rfl) fun _ => trivial
  | junction n op ps =>
    refine (makes_require (by simp)).bind fun _ _ _ => ?_
    exact makes_pred (.junction · op ps) (fun _ => rfl) fun _ => trivial
  | partition n es =>
    refine (makes_require (by simp)).bind fun _ _ _ => ?_
    exact makes_pred (.partition · es) (fun _ => rfl) fun _ => trivial
  | quantified n op ds p =>
    refine (makes_require (by simp)).bind fun _ _ _ => ?_
    refine (makes_copies ds).bind fun ds' _ _ => ?_
    exact makes_pred (.quantified · op ds' p) (fun _ => rfl) fun _ => trivial
  | extended n ext es ps =>
    refine makes_accept.bind fun _ _ haccept => ?_
    exact makes_pred (.extended · ext es ps) (fun _ => rfl)
      fun _ => ⟨hext, (Language.accept_eq_ok_iff.1 haccept).2.2.1⟩

theorem makes_makeAssignment {a : Assignment} :
    Makes (f.makeAssignment a) s fun a s' => (Formula.assignment a).Exact s' := by
  obtain ⟨n, targets, assigned⟩ := a
  cases assigned with
  | values es => exact makes_assignment
  | member e => exact makes_assignment
  | such ds p => exact (makes_copies ds).bind fun _ _ _ => makes_assignment

end Build

/-- What a call gives is typed exactly. -/
theorem Session.Call.makes {held : Set Formula} {x : Build (List Formula)} (h : Call held x) :
    Build.Makes x s fun fs s' => ∀ n ∈ fs, n.Exact s' := by
  have one : ∀ {n : Formula} {s : Store}, n.Exact s →
      Build.Makes (pure [n] : Build (List Formula)) s fun fs s' => ∀ n ∈ fs, n.Exact s' :=
    fun hn => .pure (List.forall_mem_singleton.2 hn)
  cases h with
  | factory l =>
    have hgrown : s.Grown { s with factories := s.factories + 1 } :=
      ⟨Nat.le_refl _, Nat.le_refl _, fun _ _ => rfl, fun _ _ => rfl⟩
    exact .of_ok (a := []) rfl hgrown fun n hn => by cases hn
  | declare name t => exact (Build.makes_declare name t).bind fun _ _ _ => one trivial
  | expr f _ hext => exact (Build.makes_makeExpr hext).bind fun _ _ he => one he
  | pred f _ hext => exact (Build.makes_makePred hext).bind fun _ _ hp => one hp
  | assignment f _ => exact Build.makes_makeAssignment.bind fun _ _ ha => one ha

end SetLang
