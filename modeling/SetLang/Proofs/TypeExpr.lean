import SetLang.Proofs.Encoding.Elimination
import SetLang.Proofs.Encoding.SetExpr
import SetLang.Proofs.Session.Slots

/-! Types and the expressions that denote them. A factory makes the expression of a type, and it is
recognised as one; a typed expression that is recognised is the expression of a type, the one whose values
are its members. Datatypes are known by name in all of this. -/

namespace SetLang

/-- The datatypes that a type applies may be applied in the language, to as many arguments. -/
def Language.Applies (l : Language) (g : GroundTy) : Prop :=
  ∀ x ∈ g.applications, ∃ d : Datatype, d.applied ∈ l.extensions ∧ d.name = x.1 ∧ x.2 = d.params.length

section

variable {l : Language} {a b : GroundTy} {name : String} {gs : List GroundTy}

theorem applies_product : l.Applies (.product a b) ↔ l.Applies a ∧ l.Applies b := List.forall_mem_append

theorem applies_data : l.Applies (.data name gs) ↔
    (∃ d : Datatype, d.applied ∈ l.extensions ∧ d.name = name ∧ gs.length = d.params.length) ∧
      ∀ g ∈ gs, l.Applies g := by
  simp only [Language.Applies, TypeTree.applications, TypeTree.applicationsAll_eq, List.forall_mem_cons,
    List.mem_flatMap, forall_exists_index, and_imp]
  exact and_congr_right fun _ => ⟨fun h g hg x hx => h x g hg hx, fun h x g hg hx => h g hg x hx⟩

theorem Registered.applies (h : Registered l.extensions l.datatypes) {t : Ty}
    (ht : ∀ x ∈ t.applications, ∃ d ∈ l.datatypes, d.name = x.1.name ∧ x.2 = d.params.length) :
    l.Applies t.named := by
  intro y hy
  rw [TypeTree.named, TypeTree.applications_mapData] at hy
  obtain ⟨x, hx, rfl⟩ := List.mem_map.1 hy
  obtain ⟨d, hd, hname, hlen⟩ := ht x hx
  exact ⟨d, h.known d hd, hname, hlen⟩

theorem Language.typeConstructor_congr {d d' : Datatype} (h : d.name = d'.name) :
    l.typeConstructor d = l.typeConstructor d' := by
  rw [typeConstructor, typeConstructor, h]

end

theorem TypeTree.exists_power {U : Ty} {g : GroundTy} (h : U.named = .power g) :
    ∃ T : Ty, U = .power T ∧ T.named = g := by
  cases U with
  | power T => exact ⟨T, rfl, by simpa using h⟩
  | leaf v => exact v.elim
  | boolean | given | product | data => simp at h

theorem TypeTree.eq_given {U : Ty} {x : String} (h : U.named = .given x) : U = .given x := by
  cases U with
  | given y => simpa using h
  | leaf v => exact v.elim
  | boolean | power | product | data => simp at h

mutual

inductive Expr.Denotes : Expr → GroundTy → Prop
  | boolean {n : Node} {t : Option Ty} : Denotes (.atom n .boolSet t) .boolean
  | given {n : Node} {x : String} {t : Option Ty} : Denotes (.free n x t) (.given x)
  | power {n : Node} {e : Expr} {g : GroundTy} : e.Denotes g → Denotes (.unary n .pow e) (.power g)
  | product {n : Node} {l r : Expr} {a b : GroundTy} : l.Denotes a → r.Denotes b →
    Denotes (.binary n .cprod l r) (.product a b)
  | data {n : Node} {ext : Extension} {es : List Expr} {t : Option Ty} {name : String} {gs : List GroundTy} :
    ext.id = name → AllDenote es gs → Denotes (.extended n ext es [] t) (.data name gs)

inductive Expr.AllDenote : List Expr → List GroundTy → Prop
  | nil : AllDenote [] []
  | cons {e : Expr} {es : List Expr} {g : GroundTy} {gs : List GroundTy} : e.Denotes g → AllDenote es gs →
    AllDenote (e :: es) (g :: gs)

end

namespace Expr

variable {s s' : Store} {f : Factory} {e e' : Expr} {es es' : List Expr} {g : GroundTy} {gs : List GroundTy}

mutual

/-- There is one expression for each type, up to slots. -/
theorem Denotes.same : ∀ {e e' : Expr} {g : GroundTy}, e.Denotes g → e'.Denotes g → e.same e'
  | _, _, _, .boolean, .boolean => rfl
  | _, _, _, .given, .given => by simp [Expr.same]
  | _, _, _, .power h, .power h' => by simp [Expr.same, h.same h']
  | _, _, _, .product h k, .product h' k' => by simp [Expr.same, h.same h', k.same k']
  | _, _, _, .data hid h, .data hid' h' => by
    have hext := beq_iff_eq.2 (hid.trans hid'.symm)
    simp only [Expr.same, h.sameAll h', Pred.sameAll, Bool.and_true]
    exact hext

theorem AllDenote.sameAll : ∀ {es es' : List Expr} {gs : List GroundTy}, AllDenote es gs → AllDenote es' gs →
    Expr.sameAll es es'
  | _, _, _, .nil, .nil => rfl
  | _, _, _, .cons h hs, .cons h' hs' => by simp [Expr.sameAll, h.same h', hs.sameAll hs']

end

/-- An identifier is recognised by its type. -/
theorem isTypeExpr_free {n : Node} {x : String} {t : Option Ty} :
    (free n x t).isTypeExpr s ↔ s.type? n.slot = some (.power (.given x)) := by
  unfold isTypeExpr
  split
  · next g hslot =>
    rw [hslot, beq_iff_eq, Option.some_inj, TypeTree.power.injEq, TypeTree.given.injEq]
  · next hslot =>
    exact ⟨fun h => absurd h Bool.false_ne_true, fun h => absurd h (hslot x)⟩

mutual

theorem isTypeExpr_mono (k : s.Later s') : ∀ e : Expr, e.isTypeExpr s → e.isTypeExpr s'
  | .free .., h => isTypeExpr_free.2 (k.type? _ _ (isTypeExpr_free.1 h))
  | .atom .., h => h
  | .unary _ _ a, h => by
    rw [isTypeExpr, Bool.and_eq_true] at h ⊢
    exact ⟨h.1, isTypeExpr_mono k a h.2⟩
  | .binary _ _ a b, h => by
    simp only [isTypeExpr, Bool.and_eq_true] at h ⊢
    exact ⟨⟨h.1.1, isTypeExpr_mono k a h.1.2⟩, isTypeExpr_mono k b h.2⟩
  | .extended _ _ es _ _, h => by
    rw [isTypeExpr, Bool.and_eq_true] at h ⊢
    exact ⟨h.1, areTypeExprs_mono k es h.2⟩
  | .assoc .., h => h
  | .set .., h => h
  | .bool .., h => h
  | .quantified .., h => h
  | .bound .., h => h

theorem areTypeExprs_mono (k : s.Later s') : ∀ es : List Expr, areTypeExprs s es → areTypeExprs s' es
  | [], _ => rfl
  | e :: es, h => by
    rw [areTypeExprs, Bool.and_eq_true] at h ⊢
    exact ⟨isTypeExpr_mono k e h.1, areTypeExprs_mono k es h.2⟩

end

/-- An expression of a factory that is recognised as the set of the values of a type. -/
structure SetOf (f : Factory) (s : Store) (t : Ty) (e : Expr) : Prop extends e.Ranges f s t where
  denotes : e.Denotes t.named
  recognised : e.isTypeExpr s

theorem SetOf.mono {t : Ty} (h : e.SetOf f s t) (k : s.Later s') : e.SetOf f s' t :=
  ⟨h.toRanges.mono k, h.denotes, isTypeExpr_mono k e h.recognised⟩

theorem Ranges.congr {t t' : Ty} (h : e.Ranges f s t) (heq : t.named = t'.named) : e.Ranges f s t' := by
  obtain ⟨U, hU, hnamed⟩ := h.type
  exact ⟨h.factory, U, hU, by rw [hnamed, TypeTree.named_power, heq, TypeTree.named_power]⟩

theorem allDenote_of_sets {ts : List Ty} (h : List.Forall₂ (fun e t => e.SetOf f s t) es ts) :
    AllDenote es (ts.map TypeTree.named) := by
  induction h with
  | nil => exact .nil
  | cons h _ ih => exact .cons h.denotes ih

theorem areTypeExprs_of_sets {ts : List Ty} (h : List.Forall₂ (fun e t => e.SetOf f s t) es ts) :
    areTypeExprs s es := by
  induction h with
  | nil => rfl
  | cons h _ ih => rw [areTypeExprs, h.recognised, ih, Bool.and_self]

end Expr

namespace Factory

variable {f : Factory}

mutual

/-- The expression of a type that may be applied is made, and is the set of the values of the type. -/
theorem succeeds_setOf (hreg : Registered f.extensions f.datatypes) : ∀ (t : Ty) (s : Store),
    f.Applies t.named → Succeeds (f.typeExpr t) s fun e s' => s.Later s' ∧ e.SetOf f s' t
  | .leaf v, _, _ => v.elim
  | .boolean, s, _ => by
    rw [typeExpr]
    refine (succeeds_boolSet s).mono fun e s' h => ?_
    obtain ⟨hlater, ⟨n, rfl⟩, he⟩ := h
    exact ⟨hlater, he, .boolean, rfl⟩
  | .given x, s, _ => by
    refine (succeeds_given x s).mono fun e s' h => ?_
    obtain ⟨hlater, ⟨n, rfl⟩, he⟩ := h
    obtain ⟨U, hU, hnamed⟩ := he.type
    obtain ⟨T, rfl, hT⟩ := TypeTree.exists_power hnamed
    obtain rfl := TypeTree.eq_given hT
    exact ⟨hlater, he, .given, Expr.isTypeExpr_free.2 hU⟩
  | .power a, s, h => by
    rw [typeExpr]
    refine (succeeds_setOf hreg a s h).bind fun a' s₁ h₁ => ?_
    refine (succeeds_pow h₁.2.toRanges).mono fun e s₂ h₂ => ?_
    obtain ⟨hlater, ⟨n, rfl⟩, he⟩ := h₂
    have ha := h₁.2.mono hlater
    exact ⟨h₁.1.trans hlater, he, .power ha.denotes, ha.recognised⟩
  | .product a b, s, h => by
    obtain ⟨ha, hb⟩ := applies_product.1 h
    rw [typeExpr]
    refine (succeeds_setOf hreg a s ha).bind fun a' s₁ h₁ => ?_
    refine (succeeds_setOf hreg b s₁ hb).bind fun b' s₂ h₂ => ?_
    have ha := h₁.2.mono h₂.1
    refine (succeeds_cprod ha.toRanges h₂.2.toRanges).mono fun e s₃ h₃ => ?_
    obtain ⟨hlater, ⟨n, rfl⟩, he⟩ := h₃
    have ha := ha.mono hlater
    have hb := h₂.2.mono hlater
    refine ⟨(h₁.1.trans h₂.1).trans hlater, he, .product ha.denotes hb.denotes, ?_⟩
    simp [Expr.isTypeExpr, ha.recognised, hb.recognised]
  | .data d as, s, h => by
    rw [TypeTree.named_data] at h
    obtain ⟨⟨d', hd', hname, hlen⟩, has⟩ := applies_data.1 h
    rw [typeExpr, Language.typeConstructor_congr hname.symm, hreg.typeConstructor hd']
    refine Succeeds.bind_run (run_pure d'.applied s) ?_
    refine (succeeds_setsOf hreg as s (List.forall_mem_map.1 has)).bind fun es s₁ h₁ => ?_
    refine (succeeds_applied hreg hd' (by rwa [List.length_map] at hlen)
      (h₁.2.imp fun _ _ he => he.toRanges)).mono fun e s₂ h₂ => ?_
    obtain ⟨hlater, ⟨n, rfl⟩, he⟩ := h₂
    have hes := h₁.2.imp fun _ _ he => he.mono hlater
    refine ⟨h₁.1.trans hlater, he.congr ?_, ?_, ?_⟩
    · rw [TypeTree.named_data, TypeTree.named_data, hname]
    · rw [TypeTree.named_data]
      exact .data hname (Expr.allDenote_of_sets hes)
    · exact Expr.areTypeExprs_of_sets hes

theorem succeeds_setsOf (hreg : Registered f.extensions f.datatypes) : ∀ (ts : List Ty) (s : Store),
    (∀ t ∈ ts, f.Applies t.named) → Succeeds (f.typeExprs ts) s fun es s' => s.Later s' ∧
      List.Forall₂ (fun e t => e.SetOf f s' t) es ts
  | [], s, _ => Succeeds.pure ⟨.refl s, .nil⟩
  | t :: ts, s, h => by
    rw [List.forall_mem_cons] at h
    rw [typeExprs]
    refine (succeeds_setOf hreg t s h.1).bind fun e s₁ h₁ => ?_
    refine (succeeds_setsOf hreg ts s₁ h.2).bind fun es s₂ h₂ => ?_
    exact Succeeds.pure ⟨h₁.1.trans h₂.1, .cons (h₁.2.mono h₂.1) h₂.2⟩

end

end Factory

/-- A type constructor applies its datatype. -/
theorem Extension.exists_applied {e : Extension} (h : e.isTypeConstructor) (hgenuine : e.Genuine) :
    ∃ d : Datatype, e = d.applied := by
  unfold isTypeConstructor role? at h
  cases htyping : e.typing with
  | rule args result =>
    rw [htyping] at h
    cases h
  | ofDatatype d role =>
    rw [htyping] at h
    cases role with
    | typeConstructor => exact ⟨d, Datatype.eq_applied (hgenuine d _ htyping).2 htyping⟩
    | constructor | destructor => cases h

def Formula.Registered (l : Language) (f : Formula) : Prop :=
  ∀ g ∈ f.nodes, ∀ ext, g.extension? = some ext → ext ∈ l.extensions

theorem Formula.Registered.component {l : Language} {f g : Formula} (h : f.Registered l) (hg : g ∈ f.components) :
    g.Registered l := fun k hk => h k (nodes_trans (nodes_closed (mem_nodes_self f) hg) hk)

namespace Expr

variable {s : Store} {held : Set Formula} {l : Language}

mutual

/-- A typed expression that is recognised as a type expression denotes a type, and is typed as the set of
its values. -/
theorem denotes_of_isTypeExpr (hs : s.Sound held) : ∀ e : Expr, .expr e ∈ held →
    (Formula.expr e).isTyped s → e.isTypeExpr s → ∃ t : Ty, s.typing.ofExpr e = (TypeTree.power t).named ∧
      e.Denotes t.named ∧ ((Formula.expr e).Registered l → l.Applies t.named)
  | .free n x t, hmem, htyped, h =>
    ⟨.given x, Store.typing_slot (isTypeExpr_free.1 h), .given, fun _ _ hx => by cases hx⟩
  | .atom n a t, hmem, htyped, h => by
    obtain rfl : a = .boolSet := eq_of_beq h
    obtain ⟨-, hrule, -⟩ := hs.typed _ hmem htyped
    exact ⟨.boolean, hrule.eq Atom.holds_boolSet ⟨_, rfl, fun _ h => by cases h⟩, .boolean,
      fun _ _ hx => by cases hx⟩
  | .unary n op a, hmem, htyped, h => by
    rw [isTypeExpr, Bool.and_eq_true] at h
    obtain rfl : op = .pow := eq_of_beq h.1
    obtain ⟨hparts, hrule, -⟩ := hs.typed _ hmem htyped
    have ha : Formula.expr a ∈ (Formula.expr (.unary n .pow a)).components := List.mem_cons_self
    obtain ⟨t, ht, hdenotes, happlies⟩ :=
      denotes_of_isTypeExpr hs a (hs.closed _ hmem _ ha) (hparts _ ha) h.2
    refine ⟨.power t, ?_, .power hdenotes, fun hext => happlies (hext.component ha)⟩
    rw [operands, List.map_singleton, ht] at hrule
    exact hrule.eq (UnaryOp.holds_pow t) (UnaryOp.determines .pow)
  | .binary n op a b, hmem, htyped, h => by
    rw [isTypeExpr, Bool.and_eq_true, Bool.and_eq_true] at h
    obtain rfl : op = .cprod := eq_of_beq h.1.1
    obtain ⟨hparts, hrule, -⟩ := hs.typed _ hmem htyped
    have ha : Formula.expr a ∈ (Formula.expr (.binary n .cprod a b)).components := List.mem_cons_self
    have hb : Formula.expr b ∈ (Formula.expr (.binary n .cprod a b)).components :=
      List.mem_cons_of_mem _ List.mem_cons_self
    obtain ⟨t, ht, hdenotes, happlies⟩ :=
      denotes_of_isTypeExpr hs a (hs.closed _ hmem _ ha) (hparts _ ha) h.1.2
    obtain ⟨u, hu, hdenotes', happlies'⟩ :=
      denotes_of_isTypeExpr hs b (hs.closed _ hmem _ hb) (hparts _ hb) h.2
    refine ⟨.product t u, ?_, .product hdenotes hdenotes', fun hext => ?_⟩
    · rw [operands, List.map_cons, List.map_singleton, ht, hu] at hrule
      exact hrule.eq (Factory.pairs_cprod.rule t u) (BinaryOp.determines .cprod)
    · exact applies_product.2 ⟨happlies (hext.component ha), happlies' (hext.component hb)⟩
  | .extended n ext es ps t, hmem, htyped, h => by
    rw [isTypeExpr, Bool.and_eq_true] at h
    obtain ⟨hgenuine, hcount⟩ : ext.Genuine ∧ ext.arity.expressions.admits es.length :=
      (hs.fits _ hmem).2
    obtain ⟨d, rfl⟩ := Extension.exists_applied h.1 hgenuine
    obtain ⟨hparts, hrule, -⟩ := hs.typed _ hmem htyped
    have hes : ∀ e ∈ es, Formula.expr e ∈ (Formula.expr (.extended n d.applied es ps t)).components :=
      fun e he => List.mem_append_left _ (List.mem_map_of_mem he)
    obtain ⟨ts, hts, hdenotes, happlies⟩ := allDenote_of_areTypeExprs hs es
      (fun e he => hs.closed _ hmem _ (hes e he)) (fun e he => hparts _ (hes e he)) h.2
    have hcount : es.length = d.params.length := by
      simpa [Datatype.applied, Extension.ofRole, ChildCount.admits] using hcount
    have hlen : ts.length = d.params.length := by
      rw [← hcount, ← List.length_map (f := s.typing.ofExpr), hts, List.length_map]
    obtain rfl : ps = [] := by
      have hformed : d.applied.arity.predicates.admits ps.length := (hs.formed _ hmem).2.2
      simpa [Datatype.applied, Extension.ofRole, ChildCount.admits] using hformed
    refine ⟨.data d ts, ?_, ?_, fun hext => ?_⟩
    · rw [operands, hts] at hrule
      refine hrule.eq (Datatype.holds_typeConstructor hlen) ?_
      rw [List.length_map, hlen]
      exact d.determines_typeConstructor
    · rw [TypeTree.named_data]
      exact .data rfl hdenotes
    · rw [TypeTree.named_data, applies_data]
      refine ⟨⟨d, hext _ (Formula.mem_nodes_self _) _ rfl, rfl, by rw [List.length_map, hlen]⟩, ?_⟩
      exact List.forall_mem_map.2 (happlies fun e he => hext.component (hes e he))
  | .assoc .., _, _, h => by cases h
  | .set .., _, _, h => by cases h
  | .bool .., _, _, h => by cases h
  | .quantified .., _, _, h => by cases h
  | .bound .., _, _, h => by cases h

theorem allDenote_of_areTypeExprs (hs : s.Sound held) : ∀ es : List Expr, (∀ e ∈ es, .expr e ∈ held) →
    (∀ e ∈ es, (Formula.expr e).isTyped s) → areTypeExprs s es → ∃ ts : List Ty,
      es.map s.typing.ofExpr = ts.map (fun t => (TypeTree.power t).named) ∧
      AllDenote es (ts.map TypeTree.named) ∧
      ((∀ e ∈ es, (Formula.expr e).Registered l) → ∀ t ∈ ts, l.Applies t.named)
  | [], _, _, _ => ⟨[], rfl, .nil, fun _ _ hg => by cases hg⟩
  | e :: es, hmem, htyped, h => by
    rw [List.forall_mem_cons] at hmem htyped
    rw [areTypeExprs, Bool.and_eq_true] at h
    obtain ⟨t, ht, he, happlies⟩ := denotes_of_isTypeExpr hs e hmem.1 htyped.1 h.1
    obtain ⟨ts, hts, hes, hall⟩ := allDenote_of_areTypeExprs hs es hmem.2 htyped.2 h.2
    refine ⟨t :: ts, by rw [List.map_cons, List.map_cons, ht, hts], .cons he hes, fun hext => ?_⟩
    rw [List.forall_mem_cons] at hext
    exact List.forall_mem_cons.2 ⟨happlies hext.1, hall hext.2⟩

end

end Expr

namespace Factory

/-- Types and type expressions correspond. A type over registered datatypes has an expression, which is
typed as the set of the values of the type and recognised as a type expression. A typed expression that is
recognised is typed as the set of the values of some type, and is the expression of this type wherever its
datatypes may be applied. They may be in every factory in which the extensions of the expression are
registered. -/
theorem typeExpr_corresponds {f : Factory} (hf : f.Assembled) :
    (∀ t : Ty, (∀ x ∈ t.applications, ∃ d ∈ f.datatypes, d.name = x.1.name ∧ x.2 = d.params.length) →
      f.Applies t.named) ∧
    (∀ (t : Ty) (s : Store), f.Applies t.named → Succeeds (f.typeExpr t) s fun e s' =>
      e.factory = f ∧ (∃ U, e.type? s' = some U ∧ U == .power t) ∧ e.isTypeExpr s') ∧
    ∀ (s : Store) (held : Set Formula) (e : Expr), Session.Moves .empty ∅ s held → .expr e ∈ held →
      (Formula.expr e).isTyped s → e.isTypeExpr s → ∃ t : Ty, e.type? s = some (.power t) ∧
        ((Formula.expr e).Registered f.toLanguage → f.Applies t.named) ∧
        (f.Applies t.named → Succeeds (f.typeExpr t) s fun e' _ => e.same e') := by
  have hreg := hf.registered
  refine ⟨fun t => hreg.applies, fun t s ht => ?_, fun s held e hmoves hmem htyped he => ?_⟩
  · refine (succeeds_setOf hreg t s ht).mono fun e s' h => ?_
    obtain ⟨U, hU, hnamed⟩ := h.2.type
    exact ⟨h.2.factory, ⟨U, hU, (TypeTree.beq_iff_named _ _).2 hnamed⟩, h.2.recognised⟩
  · obtain ⟨t, ht, hdenotes, happlies⟩ := Expr.denotes_of_isTypeExpr hmoves.sound e hmem htyped he
    obtain ⟨U, hU⟩ := Formula.exists_type? htyped rfl
    obtain ⟨T, rfl, hT⟩ : ∃ T : Ty, U = .power T ∧ T.named = t.named :=
      TypeTree.exists_power ((Store.typing_slot hU).symm.trans ht)
    rw [← hT] at hdenotes happlies
    refine ⟨T, hU, happlies, fun hT => ?_⟩
    exact (succeeds_setOf hreg T s hT).mono fun e' s' h => hdenotes.same h.2.denotes

end Factory

/-- A datatype of boxed values, of the same name as the token. -/
def box : Datatype := ⟨"D", ["T"], [⟨"b", [⟨some "x", .leaf (.param 0)⟩]⟩]⟩

namespace Box

def draft : LanguageDraft :=
  (LanguageDraft.registerDatatype { LanguageDraft.core with grammar := .empty } box).1

def source : Factory := ⟨⟨.v2, draft.extensions, draft.datatypes, ⟨[], [], [], []⟩⟩, 0⟩

theorem assembled : source.Assembled := ⟨draft, .datatype (.grammar .empty (.core .v2)) rfl, rfl⟩

def truthValues : Expr := .atom ⟨source, 0⟩ .boolSet none

def boxes : Expr := .extended ⟨source, 1⟩ box.applied [truthValues] [] none

def tokens : Expr := .extended ⟨source, 0⟩ token.applied [] [] none

theorem reached_boxes : ∃ held, Session.Moves .empty ∅
    ⟨#[some (.power .boolean), some (.power (.data box [.boolean]))], #[], 0⟩ held ∧ .expr boxes ∈ held := by
  obtain ⟨held₁, -, htruth, h₁⟩ := Session.Moves.empty.makeLeaf source truthValues truthValues
    ⟨#[some (.power .boolean)], #[], 0⟩ rfl trivial rfl
  have hgenuine : boxes.Genuine := assembled.registered.genuine _ (List.mem_of_getElem? (i := 0) rfl)
  obtain ⟨held₂, -, hboxes, h₂⟩ := h₁.makeExpr source boxes boxes _
    (by simpa [boxes, Expr.children] using htruth) hgenuine rfl
  exact ⟨held₂, h₂, hboxes⟩

theorem reached_tokens : ∃ held, Session.Moves .empty ∅ ⟨#[some (.power (.data token []))], #[], 0⟩ held ∧
    .expr tokens ∈ held := by
  have hgenuine : tokens.Genuine := Extension.genuine_of_mem_extensions rfl List.mem_cons_self
  obtain ⟨held, -, htokens, h⟩ := Session.Moves.empty.makeExpr source tokens tokens _
    (fun _ hg => by cases hg) hgenuine rfl
  exact ⟨held, h, htokens⟩

/-- The set of the boxed truth values is the expression of its type. -/
theorem typeExpr_corresponds_boxes : source.Applies (TypeTree.data box [.boolean] : Ty).named ∧
    (∃ e s', (source.typeExpr (.data box [.boolean])).run .empty = (.ok e, s') ∧ e.isTypeExpr s') ∧
    ∃ s held, Session.Moves .empty ∅ s held ∧ .expr boxes ∈ held ∧ (Formula.expr boxes).isTyped s ∧
      boxes.isTypeExpr s ∧ ∃ t : Ty, boxes.type? s = some (.power t) ∧
        ∃ e s', (source.typeExpr t).run s = (.ok e, s') ∧ boxes.same e := by
  obtain ⟨happlies, hmake, hconverse⟩ := Factory.typeExpr_corresponds assembled
  have hbox := happlies (.data box [.boolean]) fun x hx => by
    obtain rfl := List.mem_singleton.1 hx
    exact ⟨box, List.mem_of_getElem? (i := 0) rfl, rfl, rfl⟩
  obtain ⟨e, s', hrun, -, -, he⟩ := hmake _ .empty hbox
  obtain ⟨held, hmoves, hboxes⟩ := reached_boxes
  obtain ⟨t, ht, -, hsame⟩ := hconverse _ held boxes hmoves hboxes rfl rfl
  cases ht
  obtain ⟨e', s'', hrun', hsame⟩ := hsame hbox
  exact ⟨hbox, ⟨e, s', hrun, he⟩, _, held, hmoves, hboxes, rfl, rfl, _, rfl, e', s'', hrun', hsame⟩

/-- A typed type expression of a factory need not be the expression of a type there: where the extension of
another factory's namesake was used, its type cannot be applied. -/
theorem not_same_typeExpr : ¬ ∀ (f : Factory), f.Assembled → ∀ (s : Store) (held : Set Formula) (e : Expr),
    Session.Moves .empty ∅ s held → .expr e ∈ held → (∀ g ∈ (Formula.expr e).nodes, g.factory? = some f) →
    (Formula.expr e).isTyped s → e.isTypeExpr s → ∃ t : Ty, e.type? s = some (.power t) ∧
      Succeeds (f.typeExpr t) s fun e' _ => e.same e' := by
  intro h
  obtain ⟨held, hmoves, htokens⟩ := reached_tokens
  have hfactory : ∀ g ∈ (Formula.expr tokens).nodes, g.factory? = some source := by
    rintro _ ⟨o, ho, rfl⟩
    obtain rfl := List.mem_singleton.1 ho
    rfl
  obtain ⟨t, ht, e, s', hrun, -⟩ := h source assembled _ held tokens hmoves htokens hfactory rfl rfl
  cases ht
  cases hrun

end Box
end SetLang
