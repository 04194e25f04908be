import SetLang.Proofs.Datatype.WellFormed
import SetLang.Proofs.Session.Conditions
import SetLang.Proofs.TypeExpr

/-! The readings of an argument type. It is instantiated by types, by terms and by sets, and these agree: the
term is that of the type, and the set is typed as the set of its values. From the expressions of types comes
the expression of the type. -/

namespace SetLang

namespace ArgTy

variable {V W : Type}

/-- The trees of the parameters and of the datatype itself. -/
def assign (ps : List (TypeTree Datatype V)) (own : TypeTree Datatype V) : ArgLeaf → TypeTree Datatype V
  | .param i => ps[i]?.getD default
  | .self => own

variable {t : ArgTy} {ps : List (TypeTree Datatype V)} {own : TypeTree Datatype V}

theorem instantiate?_eq_some (h : ∀ i, .param i ∈ t.leaves → i < ps.length) :
    instantiate? t ps own = some (t.subst (assign ps own)) := by
  refine TypeTree.subst?_eq_some fun v hv => ?_
  cases v with
  | param i => simp [assign, h i hv]
  | self => rfl

/-- Replacing the leaves of an instantiated argument type amounts to instantiation by trees whose leaves are
replaced. -/
theorem subst_assign (g : V → TypeTree Datatype W) (h : ∀ i, .param i ∈ t.leaves → i < ps.length) :
    (t.subst (assign ps own)).subst g = t.subst (assign (ps.map (TypeTree.subst g)) (own.subst g)) := by
  rw [TypeTree.subst_subst]
  refine TypeTree.subst_congr fun v hv => ?_
  cases v with
  | param i => simp [assign, h i hv]
  | self => rfl

end ArgTy

namespace Expr

variable {f : Factory} {s s' : Store}

def MadeFor (f : Factory) (s : Store) (t : Ty) (e : Expr) : Prop :=
  ∃ s₀ s₁, (f.typeExpr t).run s₀ = (.ok e, s₁) ∧ s₁.Later s

end Expr

namespace Factory

variable {f : Factory}

theorem exists_applied_of_typeConstructor (hreg : Registered f.extensions f.datatypes) {d : Datatype}
    {ext : Extension} (h : f.typeConstructor d = .ok ext) :
    ∃ d' : Datatype, ext = d'.applied ∧ d'.applied ∈ f.extensions ∧ d'.name = d.name := by
  unfold Language.typeConstructor at h
  cases hfind : (f.extension? d.name).filter (·.isTypeConstructor) with
  | none =>
    rw [hfind] at h
    cases h
  | some e =>
    rw [hfind] at h
    cases h
    obtain ⟨hfound, hrole⟩ := Option.filter_eq_some_iff.1 hfind
    have hmem := List.mem_of_find?_eq_some hfound
    obtain ⟨d', rfl⟩ := Extension.exists_applied hrole (hreg.genuine _ hmem)
    exact ⟨d', rfl, hmem, by simpa [Datatype.applied, Extension.ofRole] using List.find?_some hfound⟩

mutual

/-- The expression of a type is made only if the datatypes of the type may be applied. -/
theorem yields_applies (hreg : Registered f.extensions f.datatypes) : ∀ (t : Ty) (s : Store),
    Yields (f.typeExpr t) s fun _ _ => f.Applies t.named
  | .leaf v, _ => v.elim
  | .boolean, _ => fun _ _ _ _ hx => by cases hx
  | .given _, _ => fun _ _ _ _ hx => by cases hx
  | .power a, s => by
    rw [typeExpr]
    exact (yields_applies hreg a s).bind fun _ _ ha _ _ _ => ha
  | .product a b, s => by
    rw [typeExpr]
    exact (yields_applies hreg a s).bind fun _ s' ha =>
      (yields_applies hreg b s').bind fun _ _ hb _ _ _ => applies_product.2 ⟨ha, hb⟩
  | .data d as, s => by
    rw [typeExpr]
    refine (Build.yields_lift _).bind fun ext s₁ hext => ?_
    obtain ⟨d', rfl, hd', hname⟩ := exists_applied_of_typeConstructor hreg hext
    refine (yields_allApply hreg as s₁).bind fun es s₂ ⟨hlen, has⟩ => ?_
    unfold extendedExpr
    refine (Build.yields_lift _).bind fun _ s₃ haccept => fun _ _ _ => ?_
    rw [TypeTree.named_data]
    refine applies_data.2 ⟨⟨d', hd', hname, ?_⟩, List.forall_mem_map.2 has⟩
    have hcount : es.length = d'.params.length := by
      simpa [Datatype.applied, Extension.ofRole, ChildCount.admits] using (Language.accept_eq_ok_iff.1 haccept).2.2.1
    rw [List.length_map, ← hlen, hcount]

theorem yields_allApply (hreg : Registered f.extensions f.datatypes) : ∀ (ts : List Ty) (s : Store),
    Yields (f.typeExprs ts) s fun es _ => es.length = ts.length ∧ ∀ t ∈ ts, f.Applies t.named
  | [], _ => Yields.pure ⟨rfl, fun _ ht => by cases ht⟩
  | t :: ts, s => by
    rw [typeExprs]
    refine (yields_applies hreg t s).bind fun e s₁ ht => ?_
    refine (yields_allApply hreg ts s₁).bind fun es s₂ ⟨hlen, hts⟩ => ?_
    exact Yields.pure ⟨congrArg Nat.succ hlen, List.forall_mem_cons.2 ⟨ht, hts⟩⟩

end

end Factory

namespace Expr

variable {f : Factory} {s : Store} {t : Ty} {e : Expr}

theorem MadeFor.applies (h : e.MadeFor f s t) (hreg : Registered f.extensions f.datatypes) :
    f.Applies t.named := by
  obtain ⟨s₀, s₁, hrun, -⟩ := h
  exact Factory.yields_applies hreg t s₀ e s₁ hrun

theorem MadeFor.setOf (h : e.MadeFor f s t) (hreg : Registered f.extensions f.datatypes) : e.SetOf f s t := by
  have happlies := h.applies hreg
  obtain ⟨s₀, s₁, hrun, hlater⟩ := h
  obtain ⟨e', s', hrun', -, he'⟩ := Factory.succeeds_setOf hreg t s₀ happlies
  cases hrun.symm.trans hrun'
  exact he'.mono hlater

end Expr

namespace ArgTy

variable {f : Factory} {sets : List Expr} {own : Expr} {ps : List Ty} {T : Ty}

mutual

/-- The set for an argument type is typed as the set of the values of the instantiated type. If the given sets
are the expressions of the type arguments and of the instance, then it is the expression of this type. -/
theorem succeeds_setExpr (hreg : Registered f.extensions f.datatypes) : ∀ (t : ArgTy) (s : Store),
    (∀ i, .param i ∈ t.leaves → i < ps.length) →
    (∀ x ∈ t.applications, ∃ d ∈ f.datatypes, d.name = x.1.name ∧ x.2 = d.params.length) →
    List.Forall₂ (fun e p => e.Ranges f s p) sets ps → own.Ranges f s T →
    Succeeds (setExpr f sets own t) s fun e s' => s.Later s' ∧ e.Ranges f s' (t.subst (assign ps T)) ∧
      (List.Forall₂ (fun e p => e.Denotes p.named) sets ps → own.Denotes T.named →
        e.Denotes (t.subst (assign ps T)).named)
  | .leaf (.param i), s, hi, _, hsets, _ => by
    have hi : i < ps.length := hi i List.mem_cons_self
    obtain ⟨e, he, hranges⟩ := forall₂_exists_getElem? hsets.flip (List.getElem?_eq_getElem hi)
    have hT : (TypeTree.leaf (.param i)).subst (assign ps T) = ps[i] := by simp [TypeTree.subst, assign, hi]
    rw [setExpr, he, hT]
    exact Succeeds.pure ⟨.refl s, hranges, fun hall _ =>
      forall₂_getElem? hall he (List.getElem?_eq_getElem hi)⟩
  | .leaf .self, s, _, _, _, hown => by
    rw [setExpr]
    exact Succeeds.pure ⟨.refl s, hown, fun _ h => h⟩
  | .boolean, s, _, _, _, _ => by
    rw [setExpr]
    refine (Factory.succeeds_boolSet s).mono fun e s' h => ?_
    obtain ⟨hlater, ⟨n, rfl⟩, he⟩ := h
    exact ⟨hlater, he, fun _ _ => .boolean⟩
  | .given x, s, _, _, _, _ => by
    rw [setExpr]
    refine (Factory.succeeds_given x s).mono fun e s' h => ?_
    obtain ⟨hlater, ⟨n, rfl⟩, he⟩ := h
    exact ⟨hlater, he, fun _ _ => .given⟩
  | .power a, s, hi, hx, hsets, hown => by
    rw [setExpr]
    refine (succeeds_setExpr hreg a s hi hx hsets hown).bind fun a' s₁ h₁ => ?_
    refine (Factory.succeeds_pow h₁.2.1).mono fun e s₂ h₂ => ?_
    obtain ⟨hlater, ⟨n, rfl⟩, he⟩ := h₂
    exact ⟨h₁.1.trans hlater, he, fun hall hown => .power (h₁.2.2 hall hown)⟩
  | .product a b, s, hi, hx, hsets, hown => by
    rw [TypeTree.leaves] at hi
    rw [TypeTree.applications, List.forall_mem_append] at hx
    rw [setExpr]
    refine (succeeds_setExpr hreg a s (fun i h => hi i (List.mem_append_left _ h)) hx.1 hsets hown).bind
      fun a' s₁ h₁ => ?_
    refine (succeeds_setExpr hreg b s₁ (fun i h => hi i (List.mem_append_right _ h)) hx.2
      (hsets.imp fun _ _ he => he.mono h₁.1) (hown.mono h₁.1)).bind fun b' s₂ h₂ => ?_
    refine (Factory.succeeds_cprod (h₁.2.1.mono h₂.1) h₂.2.1).mono fun e s₃ h₃ => ?_
    obtain ⟨hlater, ⟨n, rfl⟩, he⟩ := h₃
    exact ⟨(h₁.1.trans h₂.1).trans hlater, he,
      fun hall hown => .product (h₁.2.2 hall hown) (h₂.2.2 hall hown)⟩
  | .data d as, s, hi, hx, hsets, hown => by
    rw [TypeTree.leaves, TypeTree.leavesAll_eq] at hi
    rw [TypeTree.applications, TypeTree.applicationsAll_eq, List.forall_mem_cons] at hx
    obtain ⟨⟨d', hd', hname, hlen⟩, hx⟩ := hx
    rw [setExpr]
    refine (succeeds_setExprs hreg as s (fun a ha i h => hi i (List.mem_flatMap.2 ⟨a, ha, h⟩))
      (fun a ha x h => hx x (List.mem_flatMap.2 ⟨a, ha, h⟩)) hsets hown).bind fun es s₁ h₁ => ?_
    rw [Language.typeConstructor_congr hname.symm, hreg.typeConstructor (hreg.known d' hd')]
    refine Succeeds.bind_run (run_pure d'.applied s₁) ?_
    refine (Factory.succeeds_applied hreg (hreg.known d' hd') ((List.length_map _).trans hlen) h₁.2.1).mono
      fun e s₂ h₂ => ?_
    obtain ⟨hlater, ⟨n, rfl⟩, he⟩ := h₂
    refine ⟨h₁.1.trans hlater, he.congr ?_, fun hall hown => ?_⟩
    · rw [TypeTree.subst, TypeTree.substAll_eq, TypeTree.named_data, TypeTree.named_data, hname]
    · rw [TypeTree.subst, TypeTree.substAll_eq, TypeTree.named_data]
      exact .data hname (h₁.2.2 hall hown)

theorem succeeds_setExprs (hreg : Registered f.extensions f.datatypes) : ∀ (ts : List ArgTy) (s : Store),
    (∀ t ∈ ts, ∀ i, .param i ∈ t.leaves → i < ps.length) →
    (∀ t ∈ ts, ∀ x ∈ t.applications, ∃ d ∈ f.datatypes, d.name = x.1.name ∧ x.2 = d.params.length) →
    List.Forall₂ (fun e p => e.Ranges f s p) sets ps → own.Ranges f s T →
    Succeeds (setExprs f sets own ts) s fun es s' => s.Later s' ∧
      List.Forall₂ (fun e t => e.Ranges f s' t) es (ts.map (TypeTree.subst (assign ps T))) ∧
      (List.Forall₂ (fun e p => e.Denotes p.named) sets ps → own.Denotes T.named →
        Expr.AllDenote es ((ts.map (TypeTree.subst (assign ps T))).map TypeTree.named))
  | [], s, _, _, _, _ => Succeeds.pure ⟨.refl s, .nil, fun _ _ => .nil⟩
  | t :: ts, s, hi, hx, hsets, hown => by
    rw [List.forall_mem_cons] at hi hx
    rw [setExprs]
    refine (succeeds_setExpr hreg t s hi.1 hx.1 hsets hown).bind fun e s₁ h₁ => ?_
    refine (succeeds_setExprs hreg ts s₁ hi.2 hx.2 (hsets.imp fun _ _ he => he.mono h₁.1)
      (hown.mono h₁.1)).bind fun es s₂ h₂ => ?_
    exact Succeeds.pure ⟨h₁.1.trans h₂.1, .cons (h₁.2.1.mono h₂.1) h₂.2.1,
      fun hall hown => .cons (h₁.2.2 hall hown) (h₂.2.2 hall hown)⟩

end

theorem applies_subst (hreg : Registered f.extensions f.datatypes) {g : ArgLeaf → Ty} {t : ArgTy}
    (hg : ∀ v ∈ t.leaves, f.Applies (g v).named)
    (ht : ∀ x ∈ t.applications, ∃ d ∈ f.datatypes, d.name = x.1.name ∧ x.2 = d.params.length) :
    f.Applies (t.subst g).named := by
  induction t using TypeTree.ind with
  | leaf v => exact hg v List.mem_cons_self
  | boolean | given => exact fun _ hx => by cases hx
  | power a ih => exact ih hg ht
  | product a b iha ihb =>
    rw [TypeTree.leaves, List.forall_mem_append] at hg
    rw [TypeTree.applications, List.forall_mem_append] at ht
    exact applies_product.2 ⟨iha hg.1 ht.1, ihb hg.2 ht.2⟩
  | data d as ih =>
    rw [TypeTree.leaves, TypeTree.leavesAll_eq] at hg
    rw [TypeTree.applications, TypeTree.applicationsAll_eq, List.forall_mem_cons] at ht
    obtain ⟨⟨d', hd', hname, hlen⟩, ht⟩ := ht
    rw [TypeTree.subst, TypeTree.substAll_eq, TypeTree.named_data]
    refine applies_data.2 ⟨⟨d', hreg.known d' hd', hname, by simpa using hlen⟩, ?_⟩
    refine List.forall_mem_map.2 (List.forall_mem_map.2 fun a ha => ih a ha (fun v hv => ?_) fun x hx => ?_)
    · exact hg v (List.mem_flatMap.2 ⟨a, ha, hv⟩)
    · exact ht x (List.mem_flatMap.2 ⟨a, ha, hx⟩)

/-- The readings of an argument type of an accepted datatype agree, where the datatypes that it applies are
registered and have as many parameters as they get arguments. It is instantiated by types; the term from the
terms of these types is the term of the result; the set from sets of their values is a set of the values of the
result; and the set from their expressions is the expression of the result. -/
theorem readings_agree {f : Factory} (hf : f.Assembled) {name : String} {params : List String}
    {cs : List Constructor} {d : Datatype} (hd : Datatype.define name params cs = .ok d) {c : Constructor}
    (hc : c ∈ d.constructors) {a : Argument} (ha : a ∈ c.arguments)
    (hnested : ∀ x ∈ a.type.applications, ∃ d' ∈ f.datatypes, d'.name = x.1.name ∧ x.2 = d'.params.length)
    {ps : List Ty} (hps : ps.length = d.params.length) :
    ∃ T : Ty, instantiate? a.type ps (.data d ps) = some T ∧
      instantiate? a.type (ps.map Ty.toTerm) (Ty.toTerm (.data d ps)) = some (Ty.toTerm T) ∧
      (∀ s sets own, List.Forall₂ (fun e p => e.Ranges f s p) sets ps → own.Ranges f s (.data d ps) →
        Succeeds (setExpr f sets own a.type) s fun e s' =>
          e.factory = f ∧ ∃ U, e.type? s' = some U ∧ U == .power T) ∧
      ∀ s sets own, List.Forall₂ (fun e p => e.MadeFor f s p) sets ps → own.MadeFor f s (.data d ps) →
        Succeeds (do
          let set ← setExpr f sets own a.type
          let expr ← f.typeExpr T
          return (set, expr)) s fun x _ => x.1.same x.2 := by
  have hreg := hf.registered
  have hparams : ∀ i, .param i ∈ a.type.leaves → i < ps.length := fun i hi =>
    hps ▸ (Datatype.define_eq_ok_iff.1 hd).2.closed c hc a ha i hi
  refine ⟨_, instantiate?_eq_some hparams, ?_, fun s sets own hsets hown => ?_, fun s sets own hsets hown => ?_⟩
  · rw [instantiate?_eq_some fun i hi => (hparams i hi).trans_eq (List.length_map _).symm]
    exact congrArg some (subst_assign _ hparams).symm
  · refine (succeeds_setExpr hreg a.type s hparams hnested hsets hown).mono fun e s' h => ?_
    obtain ⟨U, hU, hnamed⟩ := h.2.1.type
    exact ⟨h.2.1.factory, U, hU, (TypeTree.beq_iff_named _ _).2 hnamed⟩
  · have happlies : f.Applies (a.type.subst (assign ps (.data d ps))).named := by
      refine applies_subst hreg (fun v hv => ?_) hnested
      cases v with
      | param i =>
        have hi := hparams i hv
        obtain ⟨e, -, he⟩ := forall₂_exists_right hsets.flip (List.getElem_mem hi)
        simpa [assign, hi] using Expr.MadeFor.applies he hreg
      | self => exact hown.applies hreg
    have hsets := hsets.imp fun _ _ he => he.setOf hreg
    have hown := hown.setOf hreg
    refine (succeeds_setExpr hreg a.type s hparams hnested (hsets.imp fun _ _ he => he.toRanges)
      hown.toRanges).bind fun set s₁ h₁ => ?_
    have hdenotes := h₁.2.2 (hsets.imp fun _ _ he => he.denotes) hown.denotes
    refine (Factory.succeeds_setOf hreg _ s₁ happlies).bind fun expr s₂ h₂ => Succeeds.pure ?_
    exact hdenotes.same h₂.2.denotes

end ArgTy

def pileArg : ArgTy := .product (.data box [.power (.leaf (.param 0))]) (.leaf .self)

def pile : Datatype := ⟨"P", ["T"], [⟨"e", []⟩, ⟨"p", [⟨some "q", pileArg⟩]⟩]⟩

namespace Pile

def draft : LanguageDraft := (Box.draft.registerDatatype pile).1

/-- A factory in which the box and the pile are registered. -/
def source : Factory := ⟨⟨.v2, draft.extensions, draft.datatypes, ⟨[], [], [], []⟩⟩, 0⟩

theorem assembled : source.Assembled :=
  ⟨draft, .datatype (.datatype (.grammar .empty (.core .v2)) rfl) rfl, rfl⟩

/-- The type of the arguments of piles of truth values, and the set of these arguments. -/
theorem readings_agree_pile : ∃ T : Ty, ArgTy.instantiate? pileArg [.boolean] (.data pile [.boolean]) = some T ∧
    T = .product (.data box [.power .boolean]) (.data pile [.boolean]) ∧
    ∃ s sets own, List.Forall₂ (fun e p => e.MadeFor source s p) sets [(.boolean : Ty)] ∧
      own.MadeFor source s (.data pile [.boolean]) ∧
      (∃ e s', (ArgTy.setExpr source sets own pileArg).run s = (.ok e, s') ∧
        ∃ U, e.type? s' = some U ∧ U == .power T) ∧
      Succeeds (do
        let set ← ArgTy.setExpr source sets own pileArg
        let expr ← source.typeExpr T
        return (set, expr)) s fun x _ => x.1.same x.2 := by
  have hdefine : Datatype.define "P" ["T"] pile.constructors = .ok pile := rfl
  have harg : (⟨some "q", pileArg⟩ : Argument) ∈ [(⟨some "q", pileArg⟩ : Argument)] := List.mem_cons_self
  have hps : [(.boolean : Ty)].length = pile.params.length := rfl
  obtain ⟨T, hT, -, hranges, hsame⟩ := ArgTy.readings_agree assembled hdefine
    (List.mem_of_getElem? (i := 1) rfl) harg (fun x hx => by
      obtain rfl := List.mem_singleton.1 hx
      exact ⟨box, List.mem_of_getElem? (i := 0) rfl, rfl, rfl⟩) hps
  have hreg := assembled.registered
  have hpile : source.Applies (TypeTree.data pile [.boolean] : Ty).named := hreg.applies fun x hx => by
    obtain rfl := List.mem_singleton.1 hx
    exact ⟨pile, List.mem_of_getElem? (i := 1) rfl, rfl, rfl⟩
  obtain ⟨set, s₁, hset, -, -⟩ := Factory.succeeds_setOf hreg .boolean .empty fun _ hx => by cases hx
  obtain ⟨own, s₂, hown, hlater, -⟩ := Factory.succeeds_setOf hreg _ s₁ hpile
  have hset : set.MadeFor source s₂ .boolean := ⟨_, _, hset, hlater⟩
  have hown : own.MadeFor source s₂ (.data pile [.boolean]) := ⟨_, _, hown, .refl _⟩
  obtain ⟨e, s', hrun, -, hU⟩ := hranges s₂ [set] own (.cons (hset.setOf hreg).toRanges .nil)
    (hown.setOf hreg).toRanges
  refine ⟨T, hT, by cases hT; rfl, s₂, [set], own, .cons hset .nil, hown, ⟨e, s', hrun, hU⟩, ?_⟩
  exact hsame s₂ [set] own (.cons hset .nil) hown

end Pile
end SetLang
