import SetLang.Proofs.Datatype
import SetLang.Proofs.Typing.Rules

/-! The rules of extensions are their schemes. An extension of a datatype instantiates the datatype
over new variables; that its indices have a meaning is due to the checks of definitions and to the
arities of the extensions. -/

namespace SetLang

open Solve Unifier

namespace Extension

variable {α : Type} {u : Unifier}

/-- Children against patterns, then a run that only uses what the variables of the patterns stand
for. -/
theorem poses_matchPatterns {k : Renaming → Solve α} {term : α → Option TyTerm}
    {C : (TypeVar → GroundTy) → GroundTy → Prop}
    (hk : ∀ r u, u.WellFormed → r.Allocated u → Poses (k r) term u fun θ g =>
      ∃ ρ, r.Denotes θ ρ ∧ C ρ g)
    (terms patterns : List TyTerm) (r : Renaming) (u : Unifier) (w : u.WellFormed)
    (hr : r.Allocated u) (ht : ∀ t ∈ terms, u.Allocated t) :
    Poses (matchPatterns terms patterns r >>= k) term u fun θ g => ∃ ρ, r.Denotes θ ρ ∧
      (Scheme.mk patterns none).Matches ρ (terms.map (TyTerm.under θ)) ∧ C ρ g := by
  induction terms generalizing patterns r u with
  | nil =>
    simp only [matchPatterns, pure_bind, List.map_nil, Scheme.matches_nil, true_and]
    exact hk r u w hr
  | cons t terms ih =>
    cases patterns with
    | nil =>
      simp only [matchPatterns, pure_bind, Scheme.matches_of_no_pattern, true_and]
      exact hk r u w hr
    | cons p ps =>
      obtain ⟨r', u', hrun, hren⟩ := run_instantiateWith p r u hr
      have w' := hren.grows.wellFormed w
      have htt : u'.Allocated t := (ht t (by simp)).mono hren.grows.size
      have hts : ∀ t ∈ terms, u'.Allocated t := fun t h =>
        (ht t (by simp [h])).mono hren.grows.size
      have hp : u'.Allocated (rename r' p) := hren.allocated.rename hren.all
      have hrest : ∀ u'', u''.WellFormed → Extends u' u'' →
          Poses (matchPatterns terms (if ps.isEmpty then [p] else ps) r' >>= k) term u'' fun θ g =>
            ∃ ρ, r'.Denotes θ ρ ∧ (Scheme.mk (if ps.isEmpty then [p] else ps) none).Matches ρ
              (terms.map (TyTerm.under θ)) ∧ C ρ g := fun u'' w'' hext =>
        ih _ r' u'' w'' (fun v t hv => (hren.allocated v t hv).mono hext.size)
          fun t h => (hts t h).mono hext.size
      simp only [matchPatterns, bind_assoc]
      refine Poses.rename w hrun hren (C := fun θ ρ g => (Scheme.mk (p :: ps) none).Matches ρ
        ((t :: terms).map (TyTerm.under θ)) ∧ C ρ g) ?_ ?_
      · refine (Poses.bind (poses_unify w' htt hp) (fun _ => hrest) ?_).congr ?_
        · intro θ θ' g hagree
          refine exists_congr fun ρ => ?_
          rw [Renaming.denotes_iff_of_agree hren.allocated hagree, map_under_eq_of_agree hts hagree]
        · intro θ g
          rw [← exists_and_left]
          refine exists_congr fun ρ => ?_
          rw [List.map_cons, Scheme.matches_cons]
          constructor
          · rintro ⟨heq, hρ, hm, hC⟩
            exact ⟨hρ, ⟨heq.trans (under_rename hren.all hρ), hm⟩, hC⟩
          · rintro ⟨hρ, ⟨heq, hm⟩, hC⟩
            exact ⟨heq.trans (under_rename hren.all hρ).symm, hρ, hm, hC⟩
      · intro θ θ' ρ g hagree
        rw [map_under_eq_of_agree ht hagree]

theorem poses_rule_of_patterns {args : List TyTerm} {result : Option TyTerm} {terms : List TyTerm}
    (w : u.WellFormed) (ht : ∀ t ∈ terms, u.Allocated t) :
    Poses (do
      let r ← matchPatterns terms args []
      match result with
      | some result => return some (← instantiateWith result r).1
      | none => return none) (fun t => t) u fun θ g =>
      (Scheme.mk args result).Holds (terms.map (TyTerm.under θ)) (some g) := by
  refine (poses_matchPatterns (C := fun ρ g => ∀ p, result = some p → g = TyTerm.under ρ p)
    (fun r u w hr => ?_) terms args [] u w (renaming_nil_allocated u) ht).congr fun θ g => ?_
  · cases result with
    | none =>
      refine (poses_pure w fun t h => by cases h).congr fun θ g => ?_
      simpa using r.exists_denotes θ
    | some p =>
      obtain ⟨r', u', hrun, hren⟩ := run_instantiateWith p r u hr
      have hp := hren.allocated.rename hren.all
      refine Poses.rename w hrun hren ?_ fun _ _ _ _ _ => Iff.rfl
      refine (poses_pure (hren.grows.wellFormed w) fun t h => by cases h; exact hp).congr
        fun θ g => ?_
      simp only [Option.some.injEq, forall_eq']
      constructor
      · rintro rfl
        obtain ⟨ρ, hρ⟩ := r'.exists_denotes θ
        exact ⟨ρ, hρ, under_rename hren.all hρ⟩
      · rintro ⟨ρ, hρ, rfl⟩
        exact (under_rename hren.all hρ).symm
  · refine exists_congr fun ρ => ⟨fun ⟨_, hm, hg⟩ => ⟨hm, fun g' p hg' hp => ?_⟩, fun ⟨hm, hg⟩ =>
      ⟨renaming_nil_denotes θ ρ, hm, fun p hp => hg g p rfl hp⟩⟩
    cases hg'
    exact hg p hp

end Extension

namespace Datatype

variable {u : Unifier} {d : Datatype}

/-- One variable for each parameter. -/
theorem run_params (ps : List String) (k : Nat) (r : Renaming) (u : Unifier) (hr : r.Allocated u)
    (hk : ∀ i, k ≤ i → r.lookup i = none) :
    ∃ r' u', (ps.mapM fun _ => fresh).run u =
        (.ok ((List.range' k ps.length).map fun i => rename r' (.leaf i)), u') ∧
      Renames u r (List.range' k ps.length) u' r' := by
  induction ps generalizing k r u with
  | nil => exact ⟨r, u, rfl, renames_nil hr⟩
  | cons p ps ih =>
    have hone := renames_fresh hr (hk k (Nat.le_refl k))
    obtain ⟨r', u', hrun, hren⟩ := ih (k + 1) _ _ hone.allocated fun i hi => by
      rw [List.lookup_cons, beq_eq_false_iff_ne.2 (by omega)]
      exact hk i (by omega)
    refine ⟨r', u', ?_, hone.trans hren⟩
    have hself : rename r' (.leaf k) = .leaf u.size := by
      simp [rename, TypeTree.subst, hren.kept k (.leaf u.size) (by simp)]
    rw [List.mapM_cons, run_bind_ok (run_fresh u), run_bind_ok hrun, List.length_cons,
      List.range'_succ, List.map_cons, hself]
    rfl

theorem instantiate?_eq {r : Renaming} {t : ArgTy}
    (ht : ∀ i, .param i ∈ t.leaves → i < d.params.length) :
    ArgTy.instantiate? t ((List.range d.params.length).map fun i => rename r (.leaf i))
      (rename r d.generic) = some (rename r (d.genericArgument t)) := by
  unfold ArgTy.instantiate? genericArgument rename
  rw [TypeTree.subst_subst]
  refine TypeTree.subst?_eq_some fun v hv => ?_
  cases v with
  | param i =>
    simp only [List.getElem?_map, List.getElem?_range (ht i hv)]
    rfl
  | self => rfl

theorem rename_generic (r : Renaming) (d : Datatype) : rename r d.generic =
    .data d ((List.range d.params.length).map fun i => rename r (.leaf i)) := by
  simp [rename, generic, TypeTree.subst, Function.comp_def]

theorem leaves_generic_subset (d : Datatype) : d.generic.leaves ⊆ List.range d.params.length := by
  simp [generic, TypeTree.leaves, List.flatMap_map]

theorem leaves_genericArgument_subset {t : ArgTy}
    (ht : ∀ i, .param i ∈ t.leaves → i < d.params.length) :
    (d.genericArgument t).leaves ⊆ List.range d.params.length := by
  intro x hx
  rw [genericArgument, TypeTree.leaves_subst] at hx
  obtain ⟨v, hv, hx⟩ := List.mem_flatMap.1 hx
  cases v with
  | param i =>
    obtain rfl : x = i := by simpa [TypeTree.leaves] using hx
    exact List.mem_range.2 (ht x hv)
  | self => exact leaves_generic_subset d hx

/-- Children with one pattern each. -/
theorem matches_zip {θ ρ : TypeVar → GroundTy} {patterns terms : List TyTerm}
    (result : Option TyTerm) (h : terms.length = patterns.length) :
    (Scheme.mk patterns result).Matches ρ (terms.map (TyTerm.under θ)) ↔
      ∀ e ∈ terms.zip patterns, TyTerm.under θ e.1 = TyTerm.under ρ e.2 := by
  induction terms generalizing patterns with
  | nil => simp
  | cons t terms ih =>
    cases patterns with
    | nil => simp at h
    | cons p ps =>
      simp only [List.length_cons, Nat.add_right_cancel_iff] at h
      simp only [List.map_cons, Scheme.matches_cons, List.zip_cons_cons, List.forall_mem_cons, ← ih h]
      cases ps with
      | nil => simp [List.eq_nil_of_length_eq_zero h]
      | cons q ps => simp

def roleRule (d : Datatype) (role : DatatypeRole) (terms params : List TyTerm) : Solve TyTerm := do
  let own : TyTerm := .data d params
  match role with
  | .typeConstructor =>
    (terms.zip params).forM fun (term, param) => unify term (.power param)
    return .power own
  | .constructor index =>
    let some c := d.constructors[index]? | throw (.misuse .indexOutOfRange)
    Extension.matchArguments params own terms c.arguments
    return own
  | .destructor index argument =>
    let some term := terms.head? | throw (.misuse .indexOutOfRange)
    unify term own
    let some a := (d.constructors[index]?).bind (·.arguments[argument]?)
      | throw (.misuse .indexOutOfRange)
    match ArgTy.instantiate? a.type params own with
    | some result => return result
    | none => throw (.misuse .indexOutOfRange)

theorem datatypeRule_eq (d : Datatype) (role : DatatypeRole) (terms : List TyTerm) :
    Extension.datatypeRule d role terms =
      (d.params.mapM fun _ => fresh) >>= roleRule d role terms := by
  cases role <;> rfl

theorem matchArguments_eq {r : Renaming} (terms : List TyTerm) (args : List Argument)
    (h : ∀ a ∈ args, ∀ i, .param i ∈ a.type.leaves → i < d.params.length) :
    Extension.matchArguments ((List.range d.params.length).map fun i => rename r (.leaf i))
        (rename r d.generic) terms args =
      (terms.zip (args.map fun a => d.genericArgument a.type)).forM fun e =>
        unify e.1 (rename r e.2) := by
  induction terms generalizing args with
  | nil => rfl
  | cons t terms ih =>
    cases args with
    | nil => rfl
    | cons a args =>
      rw [Extension.matchArguments, instantiate?_eq (h a (by simp)),
        ih args fun a ha => h a (by simp [ha])]
      rfl

/-- A datatype over renamed parameters: the children against their patterns, then the result. -/
theorem roleRule_eq {r : Renaming} {role : DatatypeRole} {terms : List TyTerm} (hc : d.Closed)
    (hs : d.Serves role terms.length) :
    ∃ result, (d.scheme role).result = some result ∧
      (d.scheme role).args.length = terms.length ∧
      (∀ p ∈ (d.scheme role).args, p.leaves ⊆ List.range d.params.length) ∧
      result.leaves ⊆ List.range d.params.length ∧
      roleRule d role terms ((List.range d.params.length).map fun i => rename r (.leaf i)) = do
        (terms.zip (d.scheme role).args).forM fun e => unify e.1 (rename r e.2)
        return rename r result := by
  cases role with
  | typeConstructor =>
    refine ⟨_, rfl, by simpa [scheme] using hs.symm, ?_, leaves_generic_subset d, ?_⟩
    · intro p hp
      obtain ⟨i, hi, rfl⟩ := List.mem_map.1 hp
      simpa [TypeTree.leaves] using hi
    · simp only [roleRule, scheme, ← rename_generic, List.zip_map_right, List.forM_eq_forM, List.forM_map]
      rfl
  | constructor index =>
    obtain ⟨c, hcon, hlen⟩ := hs
    have hargs := hc c (List.mem_of_getElem? hcon)
    refine ⟨d.generic, rfl, by simp [scheme, hcon, hlen], ?_, leaves_generic_subset d, ?_⟩
    · intro p hp
      simp only [scheme, hcon, Option.elim_some] at hp
      obtain ⟨a, ha, rfl⟩ := List.mem_map.1 hp
      exact leaves_genericArgument_subset (hargs a ha)
    · simp only [roleRule, scheme, hcon, Option.elim_some, ← rename_generic]
      rw [matchArguments_eq terms c.arguments hargs]
  | destructor index argument =>
    obtain ⟨hlen, c, a, hcon, harg⟩ := hs
    obtain ⟨t, rfl⟩ := List.length_eq_one_iff.1 hlen
    have ha := hc c (List.mem_of_getElem? hcon) a (List.mem_of_getElem? harg)
    refine ⟨d.genericArgument a.type, by simp [scheme, hcon, harg], by simp [scheme], ?_,
      leaves_genericArgument_subset ha, ?_⟩
    · simpa [scheme] using leaves_generic_subset d
    · simp [roleRule, scheme, hcon, harg, ← rename_generic, instantiate?_eq ha]

theorem poses_datatypeRule {role : DatatypeRole} {terms : List TyTerm} (w : u.WellFormed)
    (ht : ∀ t ∈ terms, u.Allocated t) (hc : d.Closed) (hs : d.Serves role terms.length) :
    Poses (Extension.datatypeRule d role terms) some u fun θ g =>
      (d.scheme role).Holds (terms.map (TyTerm.under θ)) (some g) := by
  obtain ⟨r, u', hrun, hren⟩ := run_params d.params 0 [] u (renaming_nil_allocated u) (by simp)
  rw [← List.range_eq_range'] at hrun hren
  obtain ⟨result, hresult, hlen, hargs, hleaves, hbody⟩ := roleRule_eq (r := r) hc hs
  have h := poses_renamed (hren.grows.wellFormed w) hren.allocated hren.all
    (terms.zip (d.scheme role).args) result (fun e he =>
      ⟨(ht e.1 (List.of_mem_zip he).1).mono hren.grows.size, hargs e.2 (List.of_mem_zip he).2⟩)
    hleaves
  rw [← hbody] at h
  rw [datatypeRule_eq]
  refine (Poses.rename w hrun hren h ?_).congr ?_
  · intro θ θ' ρ g hagree
    refine and_congr_left fun _ => forall₂_congr fun e he => ?_
    rw [under_eq_of_agree (ht e.1 (List.of_mem_zip he).1) hagree]
  · intro θ g
    refine exists_congr fun ρ => ?_
    rw [← matches_zip (d.scheme role).result hlen.symm]
    simp only [renaming_nil_denotes, true_and, hresult, Option.some.injEq]
    exact and_congr_right fun _ => ⟨fun h g' p hg hp => by rw [← hg, ← hp, h],
      fun h => h g result rfl rfl⟩

end Datatype

namespace Extension

theorem poses_rule {e : Extension} {u : Unifier} {terms : List TyTerm} (w : u.WellFormed)
    (ht : ∀ t ∈ terms, u.Allocated t) (he : e.Genuine)
    (hn : e.arity.expressions.admits terms.length) :
    Poses (e.rule terms) (fun t => t) u fun θ g =>
      e.scheme.Holds (terms.map (TyTerm.under θ)) (some g) := by
  unfold rule scheme
  cases htyping : e.typing with
  | rule args result => exact poses_rule_of_patterns w ht
  | ofDatatype d role =>
    obtain ⟨hd, hmem⟩ := he d role htyping
    have h := Datatype.poses_datatypeRule w ht (Datatype.closed_of_check hd)
      (Datatype.serves_of_mem_extensions hmem htyping hn)
    exact h.map some fun _ => rfl

end Extension
end SetLang
