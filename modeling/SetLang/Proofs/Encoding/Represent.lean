import SetLang.Proofs.Encoding.Types

/-! Encoding of supported types. In every orderly state it gives the image of the type, or names a datatype
that is not registered, where an instance whose representation is being created stands for the type that it
was given. -/

namespace SetLang

variable {ds : List Datatype} {n : Nat} {S S' : EncodingState} {r : PartialRepresentation}
  {look look' : Instance → Option Ty} {i : Instance} {t type : Ty} {T : Ty}

/-! Argument types of accepted datatypes. -/

namespace ArgTy

theorem hasNestedSelf_of_false {top : Bool} {t : ArgTy} (h : hasNestedSelf false t = false) :
    hasNestedSelf top t = false := by
  induction t using TypeTree.ind with
  | leaf v =>
    cases v with
    | self => cases h
    | param i => rfl
  | boolean => rfl
  | given s => rfl
  | power a ih => exact h
  | product a b iha ihb =>
    simp only [hasNestedSelf, Bool.or_eq_false_iff] at h ⊢
    exact ⟨iha h.1, ihb h.2⟩
  | data d as ih => exact h

end ArgTy

namespace PartialRepresentation

/-- Instantiation adds the rank of the type arguments at most, unless the instance itself occurs. -/
theorem rank_le {a : ArgTy} (h : r.sourceType? a = some T) (hself : .self ∉ a.leaves) :
    T.rank ≤ a.rank + TypeTree.rankAll r.source.args := by
  obtain ⟨hsome, rfl⟩ := TypeTree.subst?_eq_some_iff.1 h
  refine TypeTree.rank_subst_le fun v hv => ?_
  cases v with
  | self => exact absurd hv hself
  | param k =>
    obtain ⟨b, hb⟩ := Option.isSome_iff_exists.1 (hsome _ hv)
    dsimp only at hb ⊢
    rw [hb]
    exact TypeTree.rank_le_rankAll (List.mem_of_getElem? hb)

/-- What stands for instances in an argument type. Within the arguments of a datatype the instance that is
being represented does not count. -/
def view (r : PartialRepresentation) (top : Bool) (look : Instance → Option Ty) :
    Instance → Option Ty :=
  if top then r.source.along r.type look else look

structure Ready (ds : List Datatype) (S : EncodingState) (r : PartialRepresentation) : Prop where
  orderly : S.Orderly ds
  type : r.type.Plain
  length : r.params.length = r.source.args.length
  images : ∀ (k : Nat) a p, r.source.args[k]? = some a → r.params[k]? = some p → a.Supported ds →
    Ty.image? S.encoding.look a = some p

end PartialRepresentation

/-- What stands for instances stays if more comes to stand for instances. -/
theorem Instance.along_mono
    (h : ∀ j : Instance, j.type.Supported ds → ∀ t, look j = some t → look' j = some t) (j : Instance)
    (hj : j.type.Supported ds) (t : Ty) (ht : i.along type look j = some t) :
    i.along type look' j = some t := by
  unfold along at *
  split_ifs at ht ⊢
  · exact ht
  · exact h j hj t ht

namespace PartialRepresentation

theorem view_mono {top : Bool}
    (h : ∀ j : Instance, j.type.Supported ds → ∀ t, look j = some t → look' j = some t) (j : Instance)
    (hj : j.type.Supported ds) (t : Ty) (ht : r.view top look j = some t) :
    r.view top look' j = some t := by
  unfold view at *
  split_ifs at ht ⊢
  · exact Instance.along_mono h j hj t ht
  · exact h j hj t ht

/-- A type that does not reach the instance stands for what it stood for before. -/
theorem Ready.image?_view {top : Bool} (h : r.Ready ds S)
    (htop : top = true → r.source.type.Supported ds) (hT : T.Supported ds)
    (hrank : top = true → T.rank < r.source.type.rank) :
    Ty.image? (r.view top S.encoding.look) T = Ty.image? S.encoding.look T := by
  unfold view
  split_ifs with ht
  · exact Ty.image?_along h.orderly.family (htop ht) hT (hrank ht)
  · rfl

theorem ready {params : List Ty} (h : S.Orderly ds) (htype : type.Plain)
    (hparams : List.Forall₂ (fun a p => Ty.image? S.encoding.look a = some p) i.args params) :
    Ready ds S ⟨i, params, type⟩ :=
  ⟨h, htype, hparams.length_eq.symm, fun _ _ _ ha hp _ => forall₂_getElem? hparams ha hp⟩

theorem Ready.advance (h : r.Ready ds S) (k : S.Advances ds n S') : r.Ready ds S' :=
  ⟨k.orderly, h.type, h.length, fun i a p ha hp hsup =>
    Ty.image?_mono (fun _ hj _ => h.orderly.look_later k.orderly k.later hj) hsup
      (h.images i a p ha hp hsup)⟩

end PartialRepresentation

theorem EncodingState.Advances.image? {top : Bool} (k : S.Advances ds n S') (h : S.Orderly ds)
    (hT : T.Supported ds) (ht : Ty.image? (r.view top S.encoding.look) T = some t) :
    Ty.image? (r.view top S'.encoding.look) T = some t :=
  Ty.image?_mono (PartialRepresentation.view_mono fun _ hj _ =>
    h.look_later k.orderly k.later hj) hT ht

/-- The type arguments of an instance stand for what they stood for before it is represented. -/
theorem EncodingState.Orderly.images_along {params : List Ty} (h : S.Orderly ds) (hi : i.type.Supported ds)
    (hparams : List.Forall₂ (fun a p => Ty.image? S.encoding.look a = some p) i.args params)
    (hlater : S.Later S') (h' : S'.Orderly ds) :
    List.Forall₂ (fun a p => Ty.image? (i.along type S'.encoding.look) a = some p) i.args params := by
  refine List.forall₂_iff_zip.2 ⟨hparams.length_eq, fun {a p} hap => ?_⟩
  have ha := (List.of_mem_zip hap).1
  have hsup := (TypeTree.supported_data.1 hi).2 a ha
  rw [Ty.image?_along h.family hi hsup (TypeTree.rank_arg_lt ha)]
  exact Ty.image?_mono (fun j hj t ht => h.look_later h' hlater hj ht) hsup ((List.forall₂_iff_zip.1 hparams).2 hap)

theorem plain_constructorType {ts : List Ty} (hts : ∀ t ∈ ts, t.Plain) (ht : type.Plain) :
    (constructorType ts type).Plain := by
  unfold constructorType
  cases hd : Ty.productOf? ts with
  | none => exact ht
  | some domain => exact List.append_eq_nil_iff.2 ⟨Ty.plain_productOf? hd hts, ht⟩

structure Argument.Renders (ds : List Datatype) (f : Factory) (s : Store)
    (look : Instance → Option Ty) (i : Instance) (type : Ty) (a : Argument) (x : Ty × Expr) :
    Prop where
  source : ∃ T, ArgTy.instantiate? a.type i.args i.type = some T ∧ T.Supported ds ∧
    Ty.image? look T = some x.1
  destructor : x.2.Names f s (.relation type x.1)

structure Argument.Encodable (ds : List Datatype) (n : Nat) (r : PartialRepresentation) (a : Argument) :
    Prop where
  positive : ArgTy.hasNestedSelf true a.type = false
  rank : a.type.rank + TypeTree.rankAll r.source.args < n
  source : ∃ T, r.sourceType? a.type = some T ∧ T.Supported ds

theorem Argument.Renders.mono {f : Factory} {s s' : Store} {a : Argument} {x : Ty × Expr}
    (h : a.Renders ds f s look i type x) (k : s.Later s')
    (hlook : ∀ i : Instance, i.type.Supported ds → ∀ t, look i = some t → look' i = some t) :
    a.Renders ds f s' look' i type x := by
  obtain ⟨T, hT, hsup, ht⟩ := h.source
  exact ⟨⟨T, hT, hsup, Ty.image?_mono hlook hsup ht⟩, h.destructor.mono k⟩

namespace Encode

open EncodingState

theorem settles_create {params : List Ty}
    {constructors : PartialRepresentation → Encode (List ConstructorImage)} (hS : S.Orderly ds)
    (hi : i.type.Supported ds)
    (hparams : List.Forall₂ (fun a p => Ty.image? S.encoding.look a = some p) i.args params)
    (h : ∀ g S', PartialRepresentation.Ready ds S' ⟨i, params, .given g⟩ →
      S'.Settles ds i.type.rank (constructors ⟨i, params, .given g⟩) fun images S'' =>
        List.Forall₂ (ConstructorImage.Renders ds S''.encoding.target S''.store
          (i.along (.given g) S''.encoding.look) i (.given g)) i.datatype.constructors images) :
    S.Settles ds i.type.rank (create i params constructors) fun r S' => r.source = i ∧
      r.Renders ds S'.encoding.target S'.store (i.along r.type S'.encoding.look) ∧
      ∃ g, r.type = .given g ∧ S.Reserves ds S' g := by
  have hargs := (TypeTree.supported_data.1 hi).2
  have hplain : ∀ p ∈ params, p.Plain := by
    intro p hp
    obtain ⟨a, ha, hap⟩ := forall₂_exists_right hparams.flip hp
    exact Ty.plain_of_image? (fun j hj t ht => hS.plain_look hj ht) (hargs a ha) hap
  unfold create
  refine (Settles.of_quiet hS (succeeds_freshGiven _ S)).bind fun type S₁ hadv₁ h₁ => ?_
  obtain ⟨hquiet₁, g, rfl, hfree, htaken⟩ := h₁
  refine .bind_run (run_target S₁) ?_
  have hset : Succeeds (S₁.encoding.target.typeExpr (.given g)) S₁.store fun e s' =>
      S₁.store.Later s' ∧ e.Names S₁.encoding.target s' (.power (.given g)) := by
    rw [Factory.typeExpr]
    exact Factory.succeeds_free _ g (rfl : (Ty.givenSet g).Plain) _
  refine (Settles.of_quiet hadv₁.orderly (succeeds_quietly hset)).bind fun e S₂ hadv₂ h₂ => ?_
  obtain ⟨hquiet₂, he⟩ := h₂
  have hquiet := hquiet₁.trans hquiet₂
  have hrest : ∀ (o : Option Expr) (S₃ : EncodingState), S₂.Quiet S₃ →
      o.isSome = (i.datatype.hasArguments && !i.args.isEmpty) →
      (∀ e, o = some e → e.Names S₃.encoding.target S₃.store (constructorType params (.given g))) →
      S₃.Settles ds i.type.rank (do
        return (⟨i, params, .given g, e, o, ← constructors ⟨i, params, .given g⟩⟩ : Representation))
        fun r S' => r.source = i ∧
          r.Renders ds S'.encoding.target S'.store (i.along r.type S'.encoding.look) ∧
          ∃ g, r.type = .given g ∧ S.Reserves ds S' g := by
    intro o S₃ hquiet₃ hsome ho
    have hall := hquiet.trans hquiet₃
    have hready : PartialRepresentation.Ready ds S₃ ⟨i, params, .given g⟩ :=
      PartialRepresentation.ready (hall.orderly hS) rfl (hall.look ▸ hparams)
    refine (h g S₃ hready).bind fun images S₄ hadv himages => .pure hadv.orderly ⟨rfl, ?_, g, rfl, ?_⟩
    · have htarget := hadv.later.target
      refine ⟨⟨g, rfl⟩, ?_, hsome, fun e' he' => ?_, ?_, himages⟩
      · rw [htarget, hquiet₃.target, hquiet₂.target]
        exact he.mono (hquiet₃.store.trans hadv.later.store)
      · rw [htarget]
        exact (ho e' he').mono hadv.later.store
      · exact hS.images_along hi hparams (hall.later.trans hadv.later) hadv.orderly
    · exact hadv.reserves hS hall hfree (hquiet₃.used (hquiet₂.used htaken))
  dsimp only
  split_ifs with hhas
  · have hfresh := succeeds_freshIdentifier i.datatype.name
      (plain_constructorType hplain (rfl : TypeTree.Plain (.given g : Ty))) S₂
    refine (Settles.of_quiet hadv₂.orderly (Succeeds.map (R := fun o S₃ => S₂.Quiet S₃ ∧
      o.isSome = true ∧ ∀ e, o = some e →
        e.Names S₃.encoding.target S₃.store (constructorType params (.given g)))
      (hfresh.mono fun e' S₃ h₃ => ⟨h₃.1, rfl, fun e he => ?_⟩))).bind
        fun o S₃ _ h₃ => hrest o S₃ h₃.1 (h₃.2.1.trans hhas.symm) h₃.2.2
    cases he
    exact h₃.2
  · exact hrest none S₂ (.refl S₂) (by simpa using hhas) fun _ he => by cases he

end Encode

namespace EncodingState.Advances

/-- What stands for instances while one is represented stays as the state advances. -/
theorem along (k : S.Advances ds n S') (h : S.Orderly ds) : ∀ j : Instance, j.type.Supported ds →
    ∀ t, i.along type S.encoding.look j = some t → i.along type S'.encoding.look j = some t :=
  Instance.along_mono fun _ hj _ => h.look_later k.orderly k.later hj

end EncodingState.Advances

/-- While a supported instance is represented, supported types stand for types without datatypes. -/
theorem EncodingState.Orderly.plain_along (h : S.Orderly ds) (htype : type.Plain)
    (hT : T.Supported ds) (ht : Ty.image? (i.along type S.encoding.look) T = some t) : t.Plain := by
  refine Ty.plain_of_image? (fun j hj u hu => ?_) hT ht
  unfold Instance.along at hu
  split_ifs at hu
  · cases hu
    exact htype
  · exact h.plain_look hj hu

/-- The arguments of the constructors of a supported instance may be encoded. -/
theorem Datatype.Family.encodable (hds : Family ds) (hi : i.type.Supported ds)
    {params : List Ty} {c : Constructor} (hc : c ∈ i.datatype.constructors) {a : Argument}
    (ha : a ∈ c.arguments) : a.Encodable ds i.type.rank ⟨i, params, type⟩ := by
  obtain ⟨⟨hd, hlen⟩, hargs⟩ := TypeTree.supported_data.1 hi
  have hcheck := hds.checked _ hd.mem
  refine ⟨(Datatype.check_eq_ok_iff.1 hcheck).2.2.2 c hc a ha, ?_, ?_⟩
  · have hrank := TypeTree.rank_le_sizeOf a.type
    have hsize := TypeTree.sizeOf_argument_lt hc ha
    change _ < sizeOf i.datatype + 1 + TypeTree.rankAll i.args
    dsimp only
    omega
  · have hlt : ∀ k, .param k ∈ a.type.leaves → k < i.args.length := fun k hk =>
      hlen ▸ Datatype.closed_of_check hcheck c hc a ha k hk
    refine ⟨_, TypeTree.subst?_eq_some_iff.2 ⟨fun v hv => ?_, rfl⟩,
      TypeTree.supported_subst (TypeTree.supported_argument hd hc ha) fun v hv => ?_⟩
    · cases v with
      | self => rfl
      | param k =>
        dsimp only
        rw [List.getElem?_eq_getElem (hlt k hv), Option.isSome_some]
    · cases v with
      | self => exact hi
      | param k =>
        dsimp only
        rw [List.getElem?_eq_getElem (hlt k hv), Option.getD_some]
        exact hargs _ (List.getElem_mem (hlt k hv))

open Encode EncodingState

mutual

theorem Datatype.settles_represent : ∀ (d : Datatype) (args params : List Ty) (S : EncodingState),
    S.Orderly ds → (⟨d, args⟩ : Instance).type.Supported ds →
      List.Forall₂ (fun a p => Ty.image? S.encoding.look a = some p) args params →
        S.Settles ds (⟨d, args⟩ : Instance).type.rank (d.represent args params) fun r S' =>
          r.source = ⟨d, args⟩ ∧ r.Renders ds S'.encoding.target S'.store
            ((⟨d, args⟩ : Instance).along r.type S'.encoding.look) ∧
          ∃ g, r.type = .given g ∧ S.Reserves ds S' g
  | ⟨_, _, cs⟩, _, _, _, hS, hi, hparams => settles_create hS hi hparams fun _ S' hr =>
      settles_constructorImages cs _ S' _ hr hi fun _ hc _ ha => hS.family.encodable hi hc ha

theorem settles_constructorImages : ∀ (cs : List Constructor) (r : PartialRepresentation)
    (S : EncodingState) (n : Nat), r.Ready ds S → r.source.type.Supported ds →
      (∀ c ∈ cs, ∀ a ∈ c.arguments, Argument.Encodable ds n r a) →
        S.Settles ds n (constructorImages cs r) fun images S' =>
          List.Forall₂ (ConstructorImage.Renders ds S'.encoding.target S'.store
            (r.source.along r.type S'.encoding.look) r.source r.type) cs images
  | [], _, _, _, hr, _, _ => .pure hr.orderly .nil
  | c :: cs, r, S, n, hr, hi, hcs => by
    rw [List.forall_mem_cons] at hcs
    rw [constructorImages]
    refine (settles_constructorImage c r S n hr hi hcs.1).bind fun image S₁ k₁ h₁ => ?_
    refine (settles_constructorImages cs r S₁ n (hr.advance k₁) hi hcs.2).bind
      fun images S₂ k₂ h₂ => .pure k₂.orderly (.cons ?_ h₂)
    rw [k₂.later.target]
    exact h₁.mono k₂.later.store (k₂.along k₁.orderly)

theorem settles_constructorImage : ∀ (c : Constructor) (r : PartialRepresentation)
    (S : EncodingState) (n : Nat), r.Ready ds S → r.source.type.Supported ds →
      (∀ a ∈ c.arguments, Argument.Encodable ds n r a) →
        S.Settles ds n (constructorImage c r) fun image S' =>
          image.Renders ds S'.encoding.target S'.store
            (r.source.along r.type S'.encoding.look) r.source r.type c
  | ⟨symbol, as⟩, r, S, n, hr, hi, has => by
    rw [constructorImage]
    refine (settles_argumentImages as r S n hr hi has).bind fun images S₁ k₁ h₁ => ?_
    have hplain : ∀ t ∈ images.map (·.1), t.Plain := by
      refine List.forall_mem_map.2 fun x hx => ?_
      obtain ⟨a, -, ha⟩ := forall₂_exists_right h₁.flip hx
      obtain ⟨T, -, hT, himage⟩ := ha.source
      exact k₁.orderly.plain_along hr.type hT himage
    refine (Settles.of_quiet k₁.orderly (succeeds_freshIdentifier symbol
      (plain_constructorType hplain hr.type) S₁)).bind fun e S₂ k₂ h₂ => .pure k₂.orderly ⟨?_, h₂.2, ?_⟩
    · rw [List.forall₂_map_right_iff, h₂.1.look]
      exact h₁.imp fun _ _ ha => ha.source
    · rw [List.forall₂_map_left_iff, List.forall₂_map_right_iff, List.forall₂_same, h₂.1.target]
      intro x hx
      obtain ⟨a, -, ha⟩ := forall₂_exists_right h₁.flip hx
      exact ha.destructor.mono h₂.1.store

theorem settles_argumentImages : ∀ (as : List Argument) (r : PartialRepresentation)
    (S : EncodingState) (n : Nat), r.Ready ds S → r.source.type.Supported ds →
      (∀ a ∈ as, Argument.Encodable ds n r a) →
        S.Settles ds n (argumentImages as r) fun images S' =>
          List.Forall₂ (Argument.Renders ds S'.encoding.target S'.store
            (r.source.along r.type S'.encoding.look) r.source r.type) as images
  | [], _, _, _, hr, _, _ => .pure hr.orderly .nil
  | a :: as, r, S, n, hr, hi, has => by
    rw [List.forall_mem_cons] at has
    rw [argumentImages]
    refine (settles_argumentImage a r S n hr hi has.1).bind fun image S₁ k₁ h₁ => ?_
    refine (settles_argumentImages as r S₁ n (hr.advance k₁) hi has.2).bind
      fun images S₂ k₂ h₂ => .pure k₂.orderly (.cons ?_ h₂)
    rw [k₂.later.target]
    exact h₁.mono k₂.later.store (k₂.along k₁.orderly)

theorem settles_argumentImage : ∀ (a : Argument) (r : PartialRepresentation)
    (S : EncodingState) (n : Nat), r.Ready ds S → r.source.type.Supported ds →
      Argument.Encodable ds n r a → S.Settles ds n (argumentImage a r) fun x S' =>
        a.Renders ds S'.encoding.target S'.store
          (r.source.along r.type S'.encoding.look) r.source r.type x
  | ⟨name, t⟩, r, S, n, hr, hi, ha => by
    obtain ⟨T, hT, hsup⟩ := ha.source
    rw [argumentImage]
    simp only [hT, Option.isNone_some, Bool.false_eq_true, if_false]
    refine (settles_argumentType true t r S T n hr (fun _ => hi) hT hsup ha.positive
      ha.rank).bind fun u S₁ k₁ h₁ => ?_
    have hplain : u.Plain := k₁.orderly.plain_along hr.type hsup h₁
    have hrelation : (TypeTree.relation r.type u).Plain := List.append_eq_nil_iff.2 ⟨hr.type, hplain⟩
    refine (Settles.of_quiet k₁.orderly (succeeds_freshIdentifier _ hrelation S₁)).bind
      fun e S₂ k₂ h₂ => .pure k₂.orderly ⟨⟨T, hT, hsup, ?_⟩, h₂.2⟩
    rw [h₂.1.look]
    exact h₁

theorem settles_argumentType (top : Bool) : ∀ (t : ArgTy) (r : PartialRepresentation)
    (S : EncodingState) (T : Ty) (n : Nat), r.Ready ds S →
      (top = true → r.source.type.Supported ds) → r.sourceType? t = some T → T.Supported ds →
        ArgTy.hasNestedSelf top t = false →
          (if top then t.rank + TypeTree.rankAll r.source.args else T.rank) < n →
            S.Settles ds n (argumentType top t r) fun u S' =>
              Ty.image? (r.view top S'.encoding.look) T = some u
  | .leaf .self, r, S, T, n, hr, _, hT, _, hself, _ => by
    obtain rfl : r.source.type = T := Option.some_inj.1 hT
    obtain rfl : top = true := by simpa [ArgTy.hasNestedSelf] using hself
    exact .pure hr.orderly (if_pos ((TypeTree.beq_iff_named _ _).2 rfl))
  | .leaf (.param k), r, S, T, n, hr, htop, hT, hsup, _, _ => by
    have hT : r.source.args[k]? = some T := hT
    have hk : k < r.params.length := hr.length ▸ (List.getElem?_eq_some_iff.1 hT).1
    rw [argumentType, List.getElem?_eq_getElem hk]
    refine .pure hr.orderly ?_
    rw [hr.image?_view htop hsup fun _ => TypeTree.rank_arg_lt (List.mem_of_getElem? hT)]
    exact hr.images k T _ hT (List.getElem?_eq_getElem hk) hsup
  | .boolean, r, S, T, n, hr, _, hT, _, _, _ => by
    cases hT
    exact .pure hr.orderly rfl
  | .given s, r, S, T, n, hr, _, hT, _, _, _ => by
    cases hT
    exact .pure hr.orderly rfl
  | .power a, r, S, T, n, hr, htop, hT, hsup, hself, hrank => by
    obtain ⟨A, hA, rfl⟩ := ArgTy.instantiate?_power.1 hT
    rw [argumentType]
    exact (settles_argumentType top a r S A n hr htop hA hsup (ArgTy.hasNestedSelf_of_false hself)
      hrank).bind fun u S₁ k₁ h₁ => .pure k₁.orderly (Ty.image?_power h₁)
  | .product a b, r, S, T, n, hr, htop, hT, hsup, hself, hrank => by
    obtain ⟨A, hA, B, hB, rfl⟩ := ArgTy.instantiate?_product.1 hT
    rw [TypeTree.supported_product] at hsup
    rw [ArgTy.hasNestedSelf, Bool.or_eq_false_iff] at hself
    have hranks : (if top then a.rank + TypeTree.rankAll r.source.args else A.rank) < n ∧
        (if top then b.rank + TypeTree.rankAll r.source.args else B.rank) < n := by
      simp only [TypeTree.rank] at hrank
      split_ifs at hrank ⊢ <;> omega
    rw [argumentType]
    refine (settles_argumentType top a r S A n hr htop hA hsup.1 hself.1 hranks.1).bind
      fun u S₁ k₁ h₁ => ?_
    refine (settles_argumentType top b r S₁ B n (hr.advance k₁) htop hB hsup.2 hself.2
      hranks.2).bind fun v S₂ k₂ h₂ => .pure k₂.orderly ?_
    exact Ty.image?_product (k₂.image? k₁.orderly hsup.1 h₁) h₂
  | .data d as, r, S, T, n, hr, htop, hT, hsup, hself, hrank => by
    obtain ⟨args, hargs, rfl⟩ := ArgTy.instantiate?_data.1 hT
    rw [ArgTy.hasNestedSelf] at hself
    have hall := ArgTy.hasNestedSelfAll_eq_false.1 hself
    -- the instance does not occur in the arguments of another datatype, so that the rank has become less
    have hrank : (TypeTree.data d args : Ty).rank < n := by
      split_ifs at hrank
      · exact Nat.lt_of_le_of_lt
          (PartialRepresentation.rank_le hT (ArgTy.hasNestedSelf_eq_false.1 hself)) hrank
      · exact hrank
    have hcreate : S.Settles ds (⟨d, args⟩ : Instance).type.rank
        (do d.represent args (← argumentTypes as r)) fun rep S' => rep.source = ⟨d, args⟩ ∧
          rep.Renders ds S'.encoding.target S'.store
            ((⟨d, args⟩ : Instance).along rep.type S'.encoding.look) ∧
          ∃ g, rep.type = .given g ∧ S.Reserves ds S' g := by
      refine (settles_argumentTypes as r S args (⟨d, args⟩ : Instance).type.rank hr hargs
        (TypeTree.supported_data.1 hsup).2 hall fun A hA => TypeTree.rank_arg_lt hA).bind
          fun params S₁ k₁ h₁ => ?_
      refine (d.settles_represent args params S₁ k₁.orderly hsup h₁).mono (Nat.le_refl _)
        fun rep S₂ _ h₂ => ⟨h₂.1, h₂.2.1, ?_⟩
      exact h₂.2.2.imp fun g h => ⟨h.1, h.2.earlier k₁.later⟩
    have hsource : as.mapM r.sourceType? = some args := hargs
    rw [argumentType, hsource]
    refine .bind_run (run_orOutOfRange args S) ?_
    -- the instance that is being represented has no representation yet, only the type given to it
    split_ifs with hown
    · rw [Bool.and_eq_true] at hown
      obtain rfl := hown.1
      refine .pure hr.orderly (if_pos ?_)
      rw [TypeTree.beq_iff_named, ← (TypeTree.beq_iff_named _ _).1 hown.2]
      rfl
    · have hi : (⟨d, args⟩ : Instance).type.Supported ds := hsup
      refine ((settles_represented hr.orderly hi hcreate).mono hrank fun _ _ _ h => h).bind
        fun rep S₁ k₁ h₁ => .pure k₁.orderly ?_
      have hlook : S₁.encoding.look ⟨d, args⟩ = some rep.type :=
        Option.map_eq_some_iff.2 ⟨rep, h₁.1, rfl⟩
      change r.view top _ ⟨d, args⟩ = _
      unfold PartialRepresentation.view
      split_ifs with htop'
      · refine (if_neg fun heq => hown ?_).trans hlook
        rw [Bool.and_eq_true]
        exact ⟨htop', (TypeTree.beq_iff_named _ _).2 ((TypeTree.beq_iff_named _ _).1 heq).symm⟩
      · exact hlook

theorem settles_argumentTypes : ∀ (as : List ArgTy) (r : PartialRepresentation)
    (S : EncodingState) (args : List Ty) (n : Nat), r.Ready ds S →
      as.mapM r.sourceType? = some args → (∀ A ∈ args, A.Supported ds) →
        (∀ a ∈ as, ArgTy.hasNestedSelf false a = false) → (∀ A ∈ args, A.rank < n) →
          S.Settles ds n (argumentTypes as r) fun ts S' =>
            List.Forall₂ (fun A t => Ty.image? S'.encoding.look A = some t) args ts
  | [], r, S, args, n, hr, hargs, _, _, _ => by
    cases hargs
    exact .pure hr.orderly .nil
  | a :: as, r, S, args, n, hr, hargs, hsup, hself, hrank => by
    obtain ⟨A, rest, hA, hrest, rfl⟩ := List.forall₂_cons_left_iff.1 (mapM_eq_some_iff.1 hargs)
    have hrest := mapM_eq_some_iff.2 hrest
    rw [List.forall_mem_cons] at hsup hself hrank
    rw [argumentTypes]
    refine (settles_argumentType false a r S A n hr (fun h => by cases h) hA hsup.1 hself.1
      hrank.1).bind fun t S₁ k₁ h₁ => ?_
    refine (settles_argumentTypes as r S₁ rest n (hr.advance k₁) hrest hsup.2 hself.2
      hrank.2).bind fun ts S₂ k₂ h₂ => .pure k₂.orderly (.cons ?_ h₂)
    exact Ty.image?_mono (fun _ hj _ => k₁.orderly.look_later k₂.orderly k₂.later hj) hsup.1 h₁

end

namespace Encode

/-- An instance is represented after its type arguments. -/
theorem settles_representedWith {d : Datatype} {as : List Ty} {args : Encode (List Ty)}
    (hS : S.Orderly ds) (hi : (⟨d, as⟩ : Instance).type.Supported ds)
    (hargs : S.Settles ds (⟨d, as⟩ : Instance).type.rank args fun ts S' =>
      List.Forall₂ (fun A t => Ty.image? S'.encoding.look A = some t) as ts) :
    S.Settles ds ((⟨d, as⟩ : Instance).type.rank + 1) (represented ⟨d, as⟩ do d.represent as (← args))
      fun r S' => S'.encoding.representation? ⟨d, as⟩ = some r ∧ r.source = ⟨d, as⟩ := by
  refine settles_represented hS hi (hargs.bind fun params S₁ k₁ h₁ => ?_)
  refine (d.settles_represent as params S₁ k₁.orderly hi h₁).mono (Nat.le_refl _)
    fun rep S₂ _ h₂ => ⟨h₂.1, h₂.2.1, ?_⟩
  exact h₂.2.2.imp fun g h => ⟨h.1, h.2.earlier k₁.later⟩

mutual

/-- Encoding a supported type gives its image. -/
theorem settles_type : ∀ (T : Ty) (S : EncodingState) (n : Nat), S.Orderly ds → T.Supported ds →
    T.rank < n → S.Settles ds n (Encode.type T) fun t S' => Ty.image? S'.encoding.look T = some t
  | .leaf v, _, _, _, _, _ => v.elim
  | .boolean, _, _, hS, _, _ => .pure hS rfl
  | .given _, _, _, hS, _, _ => .pure hS rfl
  | .power a, S, n, hS, hT, hn => (settles_type a S n hS hT hn).bind fun _ _ k₁ h₁ =>
      .pure k₁.orderly (Ty.image?_power h₁)
  | .product a b, S, n, hS, hT, hn => by
    rw [TypeTree.supported_product] at hT
    have hranks := Nat.max_lt.1 hn
    rw [Encode.type]
    refine (settles_type a S n hS hT.1 hranks.1).bind fun u S₁ k₁ h₁ => ?_
    refine (settles_type b S₁ n k₁.orderly hT.2 hranks.2).bind fun v S₂ k₂ h₂ => ?_
    refine .pure k₂.orderly (Ty.image?_product ?_ h₂)
    exact Ty.image?_mono (fun _ hj _ => k₁.orderly.look_later k₂.orderly k₂.later hj) hT.1 h₁
  | .data d as, S, n, hS, hT, hn => by
    rw [Encode.type]
    refine ((settles_representedWith hS hT (settles_types as S _ hS (TypeTree.supported_data.1 hT).2
      fun a ha => TypeTree.rank_arg_lt ha)).mono hn fun _ _ _ h => h).bind fun r S₁ k₁ h₁ => ?_
    exact .pure k₁.orderly (Option.map_eq_some_iff.2 ⟨r, h₁.1, rfl⟩)

theorem settles_types : ∀ (Ts : List Ty) (S : EncodingState) (n : Nat), S.Orderly ds →
    (∀ T ∈ Ts, T.Supported ds) → (∀ T ∈ Ts, T.rank < n) →
      S.Settles ds n (types Ts) fun ts S' =>
        List.Forall₂ (fun T t => Ty.image? S'.encoding.look T = some t) Ts ts
  | [], _, _, hS, _, _ => .pure hS .nil
  | T :: Ts, S, n, hS, hTs, hn => by
    rw [List.forall_mem_cons] at hTs hn
    rw [types]
    refine (settles_type T S n hS hTs.1 hn.1).bind fun t S₁ k₁ h₁ => ?_
    refine (settles_types Ts S₁ n k₁.orderly hTs.2 hn.2).bind fun ts S₂ k₂ h₂ => ?_
    refine .pure k₂.orderly (.cons ?_ h₂)
    exact Ty.image?_mono (fun _ hj _ => k₁.orderly.look_later k₂.orderly k₂.later hj) hTs.1 h₁

end

theorem settles_representation (hS : S.Orderly ds) (hi : i.type.Supported ds) :
    S.Settles ds (i.type.rank + 1) (representation i) fun r S' =>
      S'.encoding.representation? i = some r ∧ r.source = i :=
  settles_representedWith hS hi (settles_types i.args S _ hS (TypeTree.supported_data.1 hi).2
    fun _ ha => TypeTree.rank_arg_lt ha)

theorem succeeds_type (hS : S.Coherent ds) (hT : T.Supported ds) :
    Succeeds (Encode.type T) S fun t S' => S.Advances ds (T.rank + 1) S' ∧
      Ty.image? S'.encoding.look T = some t :=
  (settles_type T S (T.rank + 1) hS.toOrderly hT (Nat.lt_succ_self _)).succeeds
    fun _ hd => hS.provides.hasDatatype hd

theorem succeeds_representation (hS : S.Coherent ds) (hi : i.type.Supported ds) :
    Succeeds (representation i) S fun r S' => S.Advances ds (i.type.rank + 1) S' ∧
      S'.encoding.representation? i = some r ∧ r.source = i :=
  (settles_representation hS.toOrderly hi).succeeds fun _ hd => hS.provides.hasDatatype hd

end Encode
end SetLang
