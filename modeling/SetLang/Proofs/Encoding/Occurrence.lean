import SetLang.Proofs.Encoding.Represent
import SetLang.Proofs.Typing.Scheme

/-! Typed occurrences of the extensions of a datatype. Where all types are supported, an occurrence belongs
to an instance of the datatype: its operands and its value have the types that the instance gives them. -/

namespace SetLang

variable {ds : List Datatype} {d : Datatype} {ρ : TypeVar → GroundTy} {T : Ty}
  {args Es : List Ty}

theorem Scheme.Matches.get {σ : Scheme} (h : σ.Matches ρ (Es.map TypeTree.named)) {i : Nat} {E : Ty}
    {p : TyTerm} (hE : Es[i]? = some E) (hp : σ.pattern? i = some p) : E.named = TyTerm.under ρ p :=
  h i _ p (by rw [List.getElem?_map, hE, Option.map_some]) hp

namespace Datatype

theorem under_generic (ρ : TypeVar → GroundTy) (d : Datatype) :
    TyTerm.under ρ d.generic = .data d.name ((List.range d.params.length).map ρ) := by
  simp [generic, Function.comp_def]

def leafType (args : List Ty) (own : Ty) : ArgLeaf → Ty
  | .param i => args.getD i .boolean
  | .self => own

/-- An argument type of an instance is what the argument type over variables becomes. -/
theorem instantiate?_args {t : ArgTy} (hargs : args.map TypeTree.named =
    (List.range d.params.length).map ρ) (ht : ∀ i, .param i ∈ t.leaves → i < d.params.length) :
    ∃ A : Ty, ArgTy.instantiate? t args (.data d args) = some A ∧
      A.named = TyTerm.under ρ (d.genericArgument t) := by
  have hlen : args.length = d.params.length := by simpa using congrArg List.length hargs
  refine ⟨t.subst (leafType args (.data d args)), TypeTree.subst?_eq_some fun v hv => ?_, ?_⟩
  · cases v with
    | self => rfl
    | param i => simp [leafType, List.getElem?_eq_getElem (hlen ▸ ht i hv)]
  · rw [TyTerm.under, genericArgument, TypeTree.named, TypeTree.mapData_subst, TypeTree.named,
      TypeTree.mapData_subst, TypeTree.subst_subst]
    refine TypeTree.subst_congr fun v hv => ?_
    rw [TypeTree.leaves_mapData] at hv
    cases v with
    | self =>
      refine Eq.trans ?_ (under_generic ρ d).symm
      rw [← hargs]
      exact TypeTree.named_data d args
    | param i =>
      have hi := ht i hv
      have hget := congrArg (·[i]?) hargs
      simp only [List.getElem?_map, List.getElem?_range hi, List.getElem?_eq_getElem (hlen ▸ hi),
        Option.map_some, Option.some.injEq] at hget
      change (args.getD i .boolean).named = ρ i
      rwa [List.getD_eq_getElem?_getD, List.getElem?_eq_getElem (hlen ▸ hi)]

end Datatype

namespace Datatype.Family

theorem eq_data (h : Family ds) (hd : d ∈ ds) (hT : T.Supported ds) {gs : List GroundTy}
    (hnamed : T.named = .data d.name gs) : ∃ args, T = .data d args ∧ args.map TypeTree.named = gs := by
  cases T with
  | data e args =>
    rw [TypeTree.supported_data] at hT
    rw [TypeTree.named_data, TypeTree.data.injEq] at hnamed
    obtain rfl := h.distinct e hT.1.1.mem d hd hnamed.1
    exact ⟨args, rfl, hnamed.2⟩
  | leaf v => exact v.elim
  | boolean | given | power | product => simp at hnamed

theorem params_lt (h : Family ds) (hd : d ∈ ds) {i : Nat} {c : Constructor}
    (hc : d.constructors[i]? = some c) {a : Argument} (ha : a ∈ c.arguments) :
    ∀ k, .param k ∈ a.type.leaves → k < d.params.length :=
  Datatype.closed_of_check (h.checked d hd) c (List.mem_of_getElem? hc) a ha

theorem supported_argument (h : Family ds) (hi : (.data d args : Ty).Supported ds) {i : Nat}
    {c : Constructor} (hc : d.constructors[i]? = some c) {a : Argument} (ha : a ∈ c.arguments) {A : Ty}
    (hA : ArgTy.instantiate? a.type args (.data d args) = some A) : A.Supported ds := by
  have hi : (Instance.mk d args).type.Supported ds := hi
  have henc : a.Encodable ds _ ⟨⟨d, args⟩, [], .boolean⟩ := h.encodable hi (List.mem_of_getElem? hc) ha
  obtain ⟨B, hB, hsup⟩ := henc.source
  obtain rfl := Option.some_inj.1 (hA.symm.trans hB)
  exact hsup

/-- A type constructor is applied to sets over the type arguments of an instance. -/
theorem of_typeConstructor (h : Family ds) (hd : d ∈ ds) (hT : T.Supported ds)
    (hEs : ∀ E ∈ Es, E.Supported ds) (hserves : d.Serves .typeConstructor Es.length)
    (hholds : (d.scheme .typeConstructor).Holds (Es.map TypeTree.named) (some T.named)) :
    ∃ args, T = .power (.data d args) ∧ Es = args.map .power := by
  obtain ⟨ρ, hmatches, hresult⟩ := hholds
  have hT' := hresult _ _ rfl rfl
  rw [TyTerm.under_power, Datatype.under_generic] at hT'
  cases T with
  | power U =>
    rw [TypeTree.named_power, TypeTree.power.injEq] at hT'
    obtain ⟨args, rfl, hargs⟩ := h.eq_data (T := U) hd hT hT'
    have hsup := (TypeTree.supported_data.1 hT).2
    have hlen : Es.length = args.length := by
      rw [hserves, ← List.length_map (f := TypeTree.named), hargs, List.length_map, List.length_range]
    refine ⟨args, rfl, List.ext_getElem (by simpa using hlen) fun i hi hi' => ?_⟩
    have hi' : i < args.length := by simpa using hi'
    rw [List.getElem_map]
    refine TypeTree.eq_of_named_eq h.distinct (hEs _ (List.getElem_mem hi))
      (TypeTree.supported_power.2 (hsup _ (List.getElem_mem hi'))) ?_
    have hpattern : (d.scheme .typeConstructor).pattern? i = some (.power (.leaf i)) := by
      simp [Scheme.pattern?, Datatype.scheme, List.getElem?_range (hserves ▸ hi)]
    have hget := congrArg (·[i]?) hargs
    simp only [List.getElem?_map, List.getElem?_range (hserves ▸ hi), List.getElem?_eq_getElem hi',
      Option.map_some, Option.some.injEq] at hget
    rw [hmatches.get (List.getElem?_eq_getElem hi) hpattern, TyTerm.under_power, TyTerm.under_leaf,
      ← hget, TypeTree.named_power]
  | leaf v => exact v.elim
  | boolean | given | product | data => simp at hT'

theorem of_constructor (h : Family ds) (hd : d ∈ ds) (hT : T.Supported ds)
    (hEs : ∀ E ∈ Es, E.Supported ds) {i : Nat} {c : Constructor} (hc : d.constructors[i]? = some c)
    (hlen : Es.length = c.arguments.length)
    (hholds : (d.scheme (.constructor i)).Holds (Es.map TypeTree.named) (some T.named)) :
    ∃ args, T = .data d args ∧
      List.Forall₂ (fun (a : Argument) E => ArgTy.instantiate? a.type args (.data d args) = some E)
        c.arguments Es := by
  obtain ⟨ρ, hmatches, hresult⟩ := hholds
  have hT' := hresult _ _ rfl rfl
  rw [Datatype.under_generic] at hT'
  obtain ⟨args, rfl, hargs⟩ := h.eq_data hd hT hT'
  refine ⟨args, rfl, List.forall₂_iff_get.2 ⟨hlen.symm, fun k hk hk' => ?_⟩⟩
  have hmem := List.get_mem c.arguments ⟨k, hk⟩
  obtain ⟨A, hA, hnamed⟩ := Datatype.instantiate?_args hargs (h.params_lt hd hc hmem)
  have hpattern : (d.scheme (.constructor i)).pattern? k =
      some (d.genericArgument (c.arguments.get ⟨k, hk⟩).type) := by
    simp [Scheme.pattern?, Datatype.scheme, hc, List.getElem?_eq_getElem hk]
  have hE := hmatches.get (List.getElem?_eq_getElem hk') hpattern
  rw [hA, TypeTree.eq_of_named_eq h.distinct (h.supported_argument hT hc hmem hA)
    (hEs _ (List.get_mem Es ⟨k, hk'⟩)) (hnamed.trans hE.symm)]

theorem of_destructor (h : Family ds) (hd : d ∈ ds) (hT : T.Supported ds) {E : Ty}
    (hE : E.Supported ds) {i j : Nat} {c : Constructor} (hc : d.constructors[i]? = some c)
    {a : Argument} (ha : c.arguments[j]? = some a)
    (hholds : (d.scheme (.destructor i j)).Holds [E.named] (some T.named)) :
    ∃ args, E = .data d args ∧ ArgTy.instantiate? a.type args (.data d args) = some T := by
  obtain ⟨ρ, hmatches, hresult⟩ := hholds
  have hE' := hmatches 0 _ _ rfl rfl
  rw [Datatype.under_generic] at hE'
  obtain ⟨args, rfl, hargs⟩ := h.eq_data hd hE hE'
  have hmem := List.mem_of_getElem? ha
  obtain ⟨A, hA, hnamed⟩ := Datatype.instantiate?_args hargs (h.params_lt hd hc hmem)
  have hpattern : (d.scheme (.destructor i j)).result = some (d.genericArgument a.type) := by
    simp [Datatype.scheme, hc, ha]
  have hT' := hresult _ _ rfl hpattern
  refine ⟨args, rfl, ?_⟩
  rw [hA, TypeTree.eq_of_named_eq h.distinct (h.supported_argument hE hc hmem hA) hT
    (hnamed.trans hT'.symm)]

end Datatype.Family

end SetLang
