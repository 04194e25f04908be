import SetLang.Proofs.Encoding.SetExpr
import SetLang.Proofs.Session.Conditions
import SetLang.Signature

/-! Occurrences of extensions and the functions that stand for them. A function of the functional type of a
signature, applied to the children of an occurrence with this signature, is typed like the occurrence. -/

namespace SetLang

variable {f : Factory} {s s' : Store} {t u A B : Ty} {a b e : Expr} {es : List Expr} {ps : List Pred} {ts : List Ty}

/-- An expression of a factory that is typed as a value of the type, where datatypes are known by name. -/
structure Expr.Valued (f : Factory) (s : Store) (t : Ty) (e : Expr) : Prop where
  factory : e.factory.id = f.id
  type : ∃ u, e.type? s = some u ∧ u.named = t.named

namespace Expr.Valued

theorem mono (h : e.Valued f s t) (k : s.Later s') : e.Valued f s' t := by
  obtain ⟨u, hu, hnamed⟩ := h.type
  exact ⟨h.factory, u, k.type? _ _ hu, hnamed⟩

theorem typing (h : e.Valued f s t) : s.typing.ofExpr e = t.named := by
  obtain ⟨u, hu, hnamed⟩ := h.type
  exact (Store.typing_slot hu).trans hnamed

theorem operand (h : e.Valued f s t) : e.factory.id = f.id ∧ e.isTyped s :=
  ⟨h.factory, Option.isSome_iff_exists.2 (h.type.imp fun _ hu => hu.1)⟩

end Expr.Valued

namespace Factory

theorem succeeds_operation (op : BinaryOp) (ha : a.Valued f s A) (hb : b.Valued f s B)
    (hrule : op.scheme.Holds [A.named, B.named] (some t.named)) :
    Succeeds (f.binary op a b) s fun e s' => s.Later s' ∧ (∃ n, e = .binary n op a b) ∧ e.Valued f s' t := by
  have hoperands : ∀ e ∈ [a, b], e.factory.id = f.id ∧ e.isTyped s :=
    List.forall_mem_cons.2 ⟨ha.operand, List.forall_mem_singleton.2 hb.operand⟩
  refine (Build.succeeds_operator (t := t) (.binary · op a b) [a, b] (fun _ => rfl) (fun _ => trivial)
    (fun _ => rfl) (fun _ => rfl) hoperands (fun _ => ?_) fun _ => .inl ⟨rfl, op.determines⟩).mono fun e s' h => ?_
  · rwa [List.map_cons, List.map_singleton, ha.typing, hb.typing]
  · obtain ⟨⟨n, rfl, hn⟩, hlater, htype⟩ := h
    exact ⟨hlater, ⟨n, rfl⟩, congrArg Factory.id hn, htype⟩

theorem pairing_maplet : Pairing f .maplet fun s t e => e.Valued f s t where
  mono h k := h.mono k
  pair ha hb := (succeeds_operation .maplet ha hb (pairs_maplet.rule _ _)).mono fun e s' h => by
    obtain ⟨hlater, ⟨n, rfl⟩, he⟩ := h
    refine ⟨hlater, he, ?_, ?_⟩
    · exact Formula.nodes_closed (Formula.mem_nodes_self _) List.mem_cons_self
    · exact Formula.nodes_closed (Formula.mem_nodes_self _) (List.mem_cons_of_mem _ List.mem_cons_self)

theorem succeeds_truthValue {p : Pred} (hp : p.factory.id = f.id) (htyped : p.isTyped s) :
    Succeeds (f.bool p) s fun e s' => s.Later s' ∧ e.Valued f s' .boolean := by
  refine (Build.succeeds_named (t := .boolean) (.bool · p) (fun _ => rfl) (fun _ => List.forall_mem_singleton.2 hp)
    (fun _ => trivial) (fun _ => List.forall_mem_singleton.2 htyped) fun n => Expr.admits_iff_eq ?_ ?_).mono
    fun e s' h => ?_
  · exact ⟨fun _ => .boolean, Scheme.matches_nil, fun g p hg hp => by cases hg; cases hp; rfl⟩
  · exact .inl ⟨rfl, _, rfl, fun _ h => by cases h⟩
  · obtain ⟨⟨n, rfl, hn⟩, hlater, htype⟩ := h
    exact ⟨hlater, congrArg Factory.id hn, htype⟩

theorem succeeds_value {g : Expr} (hg : g.Valued f s (constructorType ts t))
    (hes : List.Forall₂ (fun e u => e.Valued f s u) es ts) :
    Succeeds (f.apply g es) s fun e s' => e.Valued f s' t ∧
      (es ≠ [] → ∃ n tuple, e = .binary n .funImage g tuple) := by
  unfold apply
  cases hdomain : Ty.productOf? ts with
  | none =>
    rw [constructorType, hdomain] at hg
    obtain rfl : ts = [] := by
      cases ts with
      | nil => rfl
      | cons _ _ => cases hdomain
    cases hes
    exact Succeeds.bind_run (run_pure none s) (Succeeds.pure ⟨hg, fun h => absurd rfl h⟩)
  | some domain =>
    rw [constructorType, hdomain] at hg
    refine (succeeds_combine? pairing_maplet s hdomain hes).bind fun o s₁ h₁ => ?_
    obtain ⟨tuple, rfl, hlater, htuple, -⟩ := h₁
    refine (succeeds_operation .funImage (hg.mono hlater) htuple (holds_funImage domain t)).mono fun e s₂ h₂ => ?_
    exact ⟨h₂.2.2, fun _ => h₂.2.1.imp fun n hn => ⟨tuple, hn⟩⟩

/-- The value of a function for the children of an occurrence: the left-nested tuple of the expressions, followed by
the truth values of the predicates. -/
def replacement (f : Factory) (function : Expr) (es : List Expr) (ps : List Pred) : Build Expr := do
  let truthValues ← ps.mapM f.bool
  f.apply function (es ++ truthValues)

theorem succeeds_replacement {g : Expr}
    (hg : g.Valued f s (constructorType (ts ++ List.replicate ps.length .boolean) t))
    (hes : List.Forall₂ (fun e u => e.Valued f s u) es ts)
    (hps : ∀ p ∈ ps, p.factory.id = f.id ∧ p.isTyped s) :
    Succeeds (f.replacement g es ps) s fun e s' => e.Valued f s' t ∧
      (es ≠ [] ∨ ps ≠ [] → ∃ n tuple, e = .binary n .funImage g tuple) := by
  refine (Build.succeeds_mapM (P := fun _ e s => e.Valued f s .boolean) (fun _ _ _ _ k he => he.mono k)
    fun p hp s' k => ?_).bind fun bs s₁ h₁ => ?_
  · exact succeeds_truthValue (hps p hp).1 (Formula.isTyped_mono (f := .pred p) (hps p hp).2 k)
  · obtain ⟨hlater, hbs⟩ := h₁
    have hlen : bs.length = ps.length := hbs.length_eq.symm
    have htruth : List.Forall₂ (fun e u => e.Valued f s₁ u) bs (List.replicate ps.length .boolean) := by
      rw [← hlen, ← List.map_const', List.forall₂_map_right_iff, List.forall₂_same]
      intro e he
      obtain ⟨p, -, he⟩ := forall₂_exists_right hbs.flip he
      exact he
    have hall := List.rel_append (hes.imp fun _ _ he => he.mono hlater) htruth
    refine (succeeds_value (hg.mono hlater) hall).mono fun e s₂ h₂ => ⟨h₂.1, fun hne => h₂.2 fun hnil => ?_⟩
    obtain ⟨rfl, rfl⟩ := List.append_eq_nil_iff.1 hnil
    exact hne.elim (absurd rfl) fun hne => hne (List.length_eq_zero_iff.1 hlen.symm)

end Factory

namespace Ty

theorem named_foldl_product (t : Ty) (ts : List Ty) :
    (ts.foldl .product t).named = (ts.map TypeTree.named).foldl .product t.named := by
  induction ts generalizing t with
  | nil => rfl
  | cons u us ih => exact (ih (.product t u)).trans (by simp)

/-- The type of functions is known up to the names of datatypes by what is known of arguments and values. -/
theorem constructorType_congr {ts us : List Ty} {t u : Ty} (hs : ts.map TypeTree.named = us.map TypeTree.named)
    (h : t.named = u.named) : (constructorType ts t).named = (constructorType us u).named := by
  cases ts with
  | nil =>
    obtain rfl := List.map_eq_nil_iff.1 hs.symm
    exact h
  | cons a as =>
    cases us with
    | nil => cases hs
    | cons b bs =>
      rw [List.map_cons, List.map_cons, List.cons.injEq] at hs
      simp only [constructorType, productOf?, TypeTree.relation, TypeTree.named_power, TypeTree.named_product,
        named_foldl_product, hs.1, hs.2, h]

theorem map_named_of_beq {ts us : List Ty} (h : (ts == us) = true) :
    ts.map TypeTree.named = us.map TypeTree.named := by
  induction ts generalizing us with
  | nil =>
    cases us with
    | nil => rfl
    | cons => cases h
  | cons t ts ih =>
    cases us with
    | nil => cases h
    | cons u us =>
      rw [List.cons_beq_cons, Bool.and_eq_true] at h
      rw [List.map_cons, List.map_cons, (TypeTree.beq_iff_named t u).1 h.1, ih h.2]

end Ty

namespace Signature

variable {sig sig' : Signature}

theorem functionalType_eq (sig : Signature) : sig.functionalType =
    constructorType (sig.argTypes ++ List.replicate sig.predicates .boolean) sig.range := rfl

/-- Equal signatures have equal functional types. -/
theorem functionalType_beq (h : sig.same sig') : (sig.functionalType == sig'.functionalType) = true := by
  simp only [same, Bool.and_eq_true, beq_iff_eq] at h
  obtain ⟨⟨⟨-, hpredicates⟩, hargs⟩, hresult⟩ := h
  rw [TypeTree.beq_iff_named, functionalType_eq, functionalType_eq, hpredicates]
  refine Ty.constructorType_congr ?_ ?_
  · rw [List.map_append, List.map_append, Ty.map_named_of_beq hargs]
  · unfold range
    cases hr : sig.result <;> cases hr' : sig'.result <;> rw [hr, hr'] at hresult
    · cases hresult
    · cases hresult
    · exact (TypeTree.beq_iff_named _ _).1 hresult

theorem argTypes?_eq_ok (h : ∀ e ∈ es, e.isTyped s) : ∃ ts, argTypes? s es = .ok ts ∧
    List.Forall₂ (fun e t => e.type? s = some t) es ts := by
  induction es with
  | nil => exact ⟨[], rfl, .nil⟩
  | cons e es ih =>
    rw [List.forall_mem_cons] at h
    obtain ⟨t, ht⟩ := Option.isSome_iff_exists.1 h.1
    obtain ⟨ts, hts, hall⟩ := ih h.2
    refine ⟨t :: ts, ?_, .cons ht hall⟩
    unfold argTypes? at hts ⊢
    rw [List.mapM_cons, ht, hts]
    rfl

/-- A function of the functional type stands for an occurrence over expressions and predicates: its replacement is
typed like the occurrence. Without children the functional type is that type itself. Occurrences of equal signatures
may be replaced by one function. -/
structure Replaceable (sig : Signature) (s : Store) (f : Factory) (es : List Expr) (ps : List Pred) (t : Ty) :
    Prop where
  atomic : es = [] → ps = [] → sig.functionalType = t
  replace : ∀ sig' : Signature, sig.same sig' → ∀ g : Expr, g.factory.id = f.id →
    (∃ u, g.type? s = some u ∧ u == sig'.functionalType) → Succeeds (f.replacement g es ps) s fun e s' =>
      (∃ u, e.type? s' = some u ∧ u == t) ∧
      (es ≠ [] ∨ ps ≠ [] → ∃ n tuple, e = .binary n .funImage g tuple)

theorem Replaceable.of_typed (ext : Extension) {result : Option Ty}
    (hargs : List.Forall₂ (fun e t => e.type? s = some t) es ts)
    (hes : ∀ e ∈ es, e.factory.id = f.id) (hps : ∀ p ∈ ps, p.factory.id = f.id ∧ p.isTyped s) :
    (⟨ext, ps.length, ts, result⟩ : Signature).Replaceable s f es ps (result.getD .boolean) := by
  refine ⟨fun hnil hnil' => ?_, fun sig' hsame g hg hu => ?_⟩
  · subst hnil hnil'
    cases hargs
    rfl
  · obtain ⟨u, hu, hbeq⟩ := hu
    have hnamed := ((TypeTree.beq_iff_named _ _).1 hbeq).trans
      ((TypeTree.beq_iff_named _ _).1 (functionalType_beq hsame)).symm
    have hvalued : List.Forall₂ (fun e t => e.Valued f s t) es ts :=
      (List.forall₂_and_left _ _).2 ⟨hes, hargs⟩ |>.imp fun e t h => ⟨h.1, t, h.2, rfl⟩
    refine (Factory.succeeds_replacement ⟨hg, u, hu, hnamed⟩ hvalued hps).mono fun e s' h => ⟨?_, h.2⟩
    obtain ⟨v, hv, hvnamed⟩ := h.1.type
    exact ⟨v, hv, (TypeTree.beq_iff_named _ _).2 hvnamed⟩

end Signature

namespace Session

variable {held : Set Formula}

/-- The children of a typed occurrence are typed and of its factory. -/
theorem Moves.typed_children (h : Moves .empty ∅ s held) {g : Formula} (hg : g ∈ held) (htyped : g.isTyped s)
    (hf : g.factory? = some f) (hcomponents : g.components = es.map .expr ++ ps.map .pred) :
    (∀ e ∈ es, e.factory.id = f.id ∧ e.isTyped s) ∧ ∀ p ∈ ps, p.factory.id = f.id ∧ p.isTyped s := by
  obtain ⟨hparts, -⟩ := h.sound.typed g hg htyped
  have hids := (h.accepted g hg).factories
  refine ⟨fun e he => ?_, fun p hp => ?_⟩
  · have hmem : .expr e ∈ g.components := hcomponents ▸ List.mem_append_left _ (List.mem_map_of_mem he)
    exact ⟨hids _ hmem f e.factory hf rfl, hparts _ hmem⟩
  · have hmem : .pred p ∈ g.components := hcomponents ▸ List.mem_append_right _ (List.mem_map_of_mem hp)
    exact ⟨hids _ hmem f p.factory hf rfl, hparts _ hmem⟩

/-- Every typed occurrence of an extension has a signature, and each function of the functional type stands for it.
Equal signatures have equal functional types. -/
theorem occurrences_replaceable (h : Moves .empty ∅ s held) :
    (∀ n ext es ps explicit, .expr (.extended n ext es ps explicit) ∈ held →
      (Formula.expr (.extended n ext es ps explicit)).isTyped s → ∃ sig t,
        Signature.ofExpr s (.extended n ext es ps explicit) = .ok sig ∧
        (Expr.extended n ext es ps explicit).type? s = some t ∧ sig.Replaceable s n.factory es ps t) ∧
    (∀ n ext es ps, .pred (.extended n ext es ps) ∈ held → (Formula.pred (.extended n ext es ps)).isTyped s →
      ∃ sig, Signature.ofPred s (.extended n ext es ps) = .ok sig ∧
        sig.Replaceable s n.factory es ps .boolean) ∧
    ∀ sig sig' : Signature, sig.same sig' → (sig.functionalType == sig'.functionalType) = true := by
  refine ⟨fun n ext es ps explicit hmem htyped => ?_, fun n ext es ps hmem htyped => ?_,
    fun _ _ => Signature.functionalType_beq⟩
  · obtain ⟨hes, hps⟩ := h.typed_children hmem htyped rfl rfl
    obtain ⟨ts, hts, hargs⟩ := Signature.argTypes?_eq_ok fun e he => (hes e he).2
    obtain ⟨t, ht⟩ := Option.isSome_iff_exists.1 htyped
    refine ⟨⟨ext, ps.length, ts, some t⟩, t, ?_, ht, .of_typed ext hargs (fun e he => (hes e he).1) hps⟩
    have ht : s.type? n.slot = some t := ht
    rw [Signature.ofExpr, ht, hts]
    rfl
  · obtain ⟨hes, hps⟩ := h.typed_children hmem htyped rfl rfl
    obtain ⟨ts, hts, hargs⟩ := Signature.argTypes?_eq_ok fun e he => (hes e he).2
    refine ⟨⟨ext, ps.length, ts, none⟩, ?_, .of_typed ext hargs (fun e he => (hes e he).1) hps⟩
    have hmark : s.isMarked n.slot = true := htyped
    rw [Signature.ofPred, hmark, hts]
    rfl

def pick : Extension :=
  ⟨"pick", "pick", .expression, ⟨.exactly 1, .exactly 1⟩, .application, .rule [.leaf 0] (some (.leaf 0))⟩

def test : Extension := ⟨"test", "test", .predicate, ⟨.exactly 1, .exactly 1⟩, .application, .rule [.leaf 0] none⟩

def tester : Factory := { bareFactory with extensions := [pick, test] }

def picked : Expr := .extended ⟨tester, 1⟩ pick [.atom ⟨tester, 0⟩ .truth none] [.literal ⟨tester, 0⟩ true] none

def tested : Pred := .extended ⟨tester, 1⟩ test [.atom ⟨tester, 0⟩ .truth none] [.literal ⟨tester, 0⟩ true]

def chooser : Expr := .free ⟨tester, 2⟩ "f" (some (.relation (.product .boolean .boolean) .boolean))

def testedStore : Store :=
  ⟨#[some .boolean, some .boolean, some (.relation (.product .boolean .boolean) .boolean)], #[true, true], 0⟩

theorem reached_tested : ∃ held, Moves .empty ∅ testedStore held ∧ .expr picked ∈ held ∧ .pred tested ∈ held := by
  obtain ⟨held₁, -, htruth, h₁⟩ := Moves.empty.makeLeaf tester (.atom ⟨tester, 0⟩ .truth none) _
    ⟨#[some .boolean], #[], 0⟩ rfl trivial rfl
  obtain ⟨held₂, hsub₂, hlit, h₂⟩ := h₁.makePred tester (.literal ⟨tester, 0⟩ true) _
    ⟨#[some .boolean], #[true], 0⟩ (fun _ hg => by cases hg) trivial rfl
  obtain ⟨held₃, hsub₃, hpicked, h₃⟩ := h₂.makeExpr tester picked picked
    ⟨#[some .boolean, some .boolean], #[true], 0⟩
    (List.forall_mem_cons.2 ⟨hsub₂ htruth, List.forall_mem_singleton.2 hlit⟩) (fun _ _ h => by cases h) rfl
  obtain ⟨held₄, hsub₄, htested, h₄⟩ := h₃.makePred tester tested tested
    ⟨#[some .boolean, some .boolean], #[true, true], 0⟩
    (List.forall_mem_cons.2 ⟨hsub₃ (hsub₂ htruth), List.forall_mem_singleton.2 (hsub₃ hlit)⟩)
    (fun _ _ h => by cases h) rfl
  obtain ⟨held₅, hsub₅, -, h₅⟩ := h₄.makeLeaf tester chooser chooser testedStore rfl trivial rfl
  exact ⟨held₅, h₅, hsub₅ (hsub₄ hpicked), hsub₅ htested⟩

/-- One function stands for both occurrences. -/
theorem occurrences_replaceable_tested : ∃ held, Moves .empty ∅ testedStore held ∧
    .expr picked ∈ held ∧ .pred tested ∈ held ∧
    (∃ sig, Signature.ofPred testedStore tested = .ok sig ∧ sig.functionalType =
      .relation (.product .boolean .boolean) .boolean) ∧
    (∃ sig, Signature.ofExpr testedStore picked = .ok sig ∧ sig.functionalType =
      .relation (.product .boolean .boolean) .boolean) ∧
    Succeeds (tester.replacement chooser [.atom ⟨tester, 0⟩ .truth none] [.literal ⟨tester, 0⟩ true]) testedStore
      fun e s' => (∃ u, e.type? s' = some u ∧ u == .boolean) ∧ ∃ n tuple, e = .binary n .funImage chooser tuple := by
  obtain ⟨held, hreached, hpicked, htested⟩ := reached_tested
  obtain ⟨hexpr, hpred, -⟩ := occurrences_replaceable hreached
  obtain ⟨sig, t, hsig, ht, hreplace⟩ := hexpr _ _ _ _ _ hpicked rfl
  obtain ⟨sig', hsig', -⟩ := hpred _ _ _ _ htested rfl
  cases ht
  cases hsig
  cases hsig'
  refine ⟨held, hreached, hpicked, htested, ⟨_, rfl, rfl⟩, ⟨_, rfl, rfl⟩, ?_⟩
  refine (hreplace.replace ⟨pick, 1, [.boolean], some .boolean⟩ rfl chooser rfl ⟨_, rfl, rfl⟩).mono fun e s' h => ?_
  exact ⟨h.1, h.2 (.inl (List.cons_ne_nil _ _))⟩

end Session
end SetLang
