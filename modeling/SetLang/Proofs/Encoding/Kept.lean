import SetLang.Proofs.Encoding.Sound

/-! What an encoding keeps while types are encoded. An invariant may say what stands for a type; where it
says nothing about an instance, the instance is represented from what is kept of its type arguments. -/

namespace SetLang

variable {I : Invariant EncodingState Formula} {Stands : EncodingState → Ty → Ty → Prop}
  {S S' : EncodingState} {held : Set Formula}

namespace Encode

/-- An instance about which an invariant says nothing: it stands for any type, and a representation of it
may be added. -/
structure Loose (I : Invariant EncodingState Formula) (Stands : EncodingState → Ty → Ty → Prop)
    (i : Instance) : Prop where
  stands : ∀ S t, Stands S i.type t
  add : ∀ {S held r}, I.Fits S held → r.source = i → (S.add r).Sound held →
    I.Fits (S.add r) held ∧ I.Later S (S.add r)

end Encode

/-- An instance that is being represented and about which nothing is said. Its type and its encoded type
arguments have no datatypes, and the latter stand for the type arguments. -/
structure PartialRepresentation.Begun (I : Invariant EncodingState Formula)
    (Stands : EncodingState → Ty → Ty → Prop) (S : EncodingState) (r : PartialRepresentation) :
    Prop where
  loose : Encode.Loose I Stands r.source
  type : r.type.Plain
  params : List.Forall₂ (fun a p => p.Plain ∧ Stands S a p) r.source.args r.params

namespace Encode

/-- An invariant with what it says about types. It keeps what it says about instances where these are
represented. -/
structure Imaging (I : Invariant EncodingState Formula) (Stands : EncodingState → Ty → Ty → Prop) :
    Prop extends Steady I where
  mono : ∀ {S S' T t}, I.Later S S' → Stands S T t → Stands S' T t
  boolean : ∀ {S}, Stands S .boolean .boolean
  given : ∀ {S s}, Stands S (.given s) (.given s)
  power : ∀ {S T t}, Stands S T t → Stands S (.power T) (.power t)
  product : ∀ {S T U t u}, Stands S T t → Stands S U u → Stands S (.product T U) (.product t u)
  within : ∀ i, Loose I Stands i ∨ ∀ as r S held, PartialRepresentation.Begun I Stands S r →
    as.mapM r.sourceType? = some i.args →
      Preserves I (represented i do i.datatype.represent i.args (← argumentTypes as r)) S held
        fun rep S' held' => Keeps rep held' ∧ Stands S' i.type rep.type
  outside : ∀ i, Loose I Stands i ∨ ∀ S held, Preserves I (representation i) S held
    fun rep S' held' => (rep ∈ S'.encoding.representations ∧ Keeps rep held') ∧
      Stands S' i.type rep.type

structure Kept (I : Invariant EncodingState Formula) : Prop extends Steady I where
  type : ∀ t S held, Preserves I (type t) S held fun t _ _ => t.Plain
  representation : ∀ i S held, Preserves I (representation i) S held fun r S' held' =>
    r ∈ S'.encoding.representations ∧ Keeps r held'

end Encode

open Encode

theorem PartialRepresentation.Begun.later {r : PartialRepresentation} (h : r.Begun I Stands S)
    (hI : Imaging I Stands) (k : I.Later S S') : r.Begun I Stands S' :=
  ⟨h.loose, h.type, h.params.imp fun _ _ hp => ⟨hp.1, hI.mono k hp.2⟩⟩

mutual

theorem Datatype.preserves_represent (hI : Imaging I Stands) : ∀ (d : Datatype)
    (args params : List Ty) (S : EncodingState) (held : Set Formula), Loose I Stands ⟨d, args⟩ →
      List.Forall₂ (fun a p => p.Plain ∧ Stands S a p) args params →
        Preserves I (d.represent args params) S held fun r _ held' =>
          Keeps r held' ∧ r.source = ⟨d, args⟩
  | ⟨_, _, cs⟩, _, _, _, _, hloose, hparams => by
    refine hI.create hparams.length_eq.symm (fun p hp => ?_) fun _ htype S held hlater _ =>
      preserves_constructorImages hI cs _ S held
        ⟨hloose, htype, hparams.imp fun _ _ hp => ⟨hp.1, hI.mono hlater hp.2⟩⟩
    obtain ⟨_, -, h⟩ := forall₂_exists_right hparams.flip hp
    exact h.1

theorem preserves_constructorImages (hI : Imaging I Stands) : ∀ (cs : List Constructor)
    (r : PartialRepresentation) (S : EncodingState) (held : Set Formula), r.Begun I Stands S →
      Preserves I (constructorImages cs r) S held fun images _ held' =>
        List.Forall₂ ConstructorImage.Complete cs images ∧
          ∀ c ∈ images, ∀ e ∈ c.function :: c.destructors, .expr e ∈ held'
  | [], _, _, _, _ => Preserves.pure fun _ => ⟨.nil, fun _ h => by cases h⟩
  | c :: cs, r, _, _, hr => (preserves_constructorImage hI c r _ _ hr).bind fun _ _ _ _ hlater hc =>
      (preserves_constructorImages hI cs r _ _ (hr.later hI hlater)).bind fun _ _ _ hsub _ hcs =>
        Preserves.pure fun _ => ⟨.cons hc.1 hcs.1,
          List.forall_mem_cons.2 ⟨fun e he => hsub (hc.2 e he), hcs.2⟩⟩

theorem preserves_constructorImage (hI : Imaging I Stands) : ∀ (c : Constructor)
    (r : PartialRepresentation) (S : EncodingState) (held : Set Formula), r.Begun I Stands S →
      Preserves I (constructorImage c r) S held fun image _ held' =>
        image.Complete c ∧ ∀ e ∈ image.function :: image.destructors, .expr e ∈ held'
  | ⟨symbol, as⟩, r, _, _, hr => (preserves_argumentImages hI as r _ _ hr).bind
      fun images _ _ _ _ has => (hI.freshIdentifier _ _).bind fun e _ held' hsub _ he =>
        Preserves.pure fun _ => by
          refine ⟨⟨by simp [has.1], by simp, fun t ht => ?_⟩, List.forall_mem_cons.2 ⟨he, fun d hd => ?_⟩⟩
          · obtain ⟨x, hx, rfl⟩ := List.mem_map.1 ht
            exact (has.2 x hx).1
          · obtain ⟨x, hx, rfl⟩ := List.mem_map.1 hd
            exact hsub (has.2 x hx).2

theorem preserves_argumentImages (hI : Imaging I Stands) : ∀ (as : List Argument)
    (r : PartialRepresentation) (S : EncodingState) (held : Set Formula), r.Begun I Stands S →
      Preserves I (argumentImages as r) S held fun images _ held' =>
        images.length = as.length ∧ ∀ x ∈ images, x.1.Plain ∧ .expr x.2 ∈ held'
  | [], _, _, _, _ => Preserves.pure fun _ => ⟨rfl, fun _ h => by cases h⟩
  | a :: as, r, _, _, hr => (preserves_argumentImage hI a r _ _ hr).bind fun _ _ _ _ hlater ha =>
      (preserves_argumentImages hI as r _ _ (hr.later hI hlater)).bind fun _ _ _ hsub _ has =>
        Preserves.pure fun _ => ⟨by simp [has.1],
          List.forall_mem_cons.2 ⟨⟨ha.1, hsub ha.2⟩, has.2⟩⟩

theorem preserves_argumentImage (hI : Imaging I Stands) : ∀ (a : Argument)
    (r : PartialRepresentation) (S : EncodingState) (held : Set Formula), r.Begun I Stands S →
      Preserves I (argumentImage a r) S held fun x _ held' => x.1.Plain ∧ .expr x.2 ∈ held'
  | ⟨name, t⟩, r, S, held, hr => by
    have hrest : Preserves I (do
        let type ← argumentType true t r
        return (type, ← freshDestructor name r.type type)) S held fun x _ held' =>
          x.1.Plain ∧ .expr x.2 ∈ held' :=
      (preserves_argumentType hI true t r S held hr).bind fun _ _ _ _ _ htype =>
        (hI.freshIdentifier _ _).bind fun _ _ _ _ _ he => Preserves.pure fun _ => ⟨htype.1, he⟩
    rw [argumentImage]
    split_ifs
    · exact Preserves.bind (K := fun _ _ _ => False) Preserves.throw fun _ _ _ _ _ h => h.elim
    · exact hrest

theorem preserves_argumentType (hI : Imaging I Stands) (top : Bool) : ∀ (t : ArgTy)
    (r : PartialRepresentation) (S : EncodingState) (held : Set Formula), r.Begun I Stands S →
      Preserves I (argumentType top t r) S held fun u S' _ =>
        u.Plain ∧ (top = false → ∀ T, r.sourceType? t = some T → Stands S' T u)
  | .leaf .self, _, _, _, hr => Preserves.pure fun _ =>
      ⟨hr.type, fun _ T hT => Option.some_inj.1 hT ▸ hr.loose.stands _ _⟩
  | .leaf (.param k), r, _, _, hr => preserves_orOutOfRange _ fun p hp => by
      obtain ⟨_, -, hplain, -⟩ := forall₂_exists_right hr.params.flip (List.mem_of_getElem? hp)
      exact ⟨hplain, fun _ T hT => (forall₂_getElem? hr.params hT hp).2⟩
  | .boolean, _, _, _, _ => Preserves.pure fun _ =>
      ⟨rfl, fun _ T hT => Option.some_inj.1 hT ▸ hI.boolean⟩
  | .given _, _, _, _, _ => Preserves.pure fun _ =>
      ⟨rfl, fun _ T hT => Option.some_inj.1 hT ▸ hI.given⟩
  | .power a, r, _, _, hr => (preserves_argumentType hI top a r _ _ hr).bind fun _ _ _ _ _ ha =>
      Preserves.pure fun _ => by
        refine ⟨ha.1, fun htop T hT => ?_⟩
        obtain ⟨A, hA, rfl⟩ := ArgTy.instantiate?_power.1 hT
        exact hI.power (ha.2 htop A hA)
  | .product a b, r, _, _, hr => (preserves_argumentType hI top a r _ _ hr).bind
      fun _ _ _ _ hlater ha => (preserves_argumentType hI top b r _ _ (hr.later hI hlater)).bind
        fun _ _ _ _ hlater hb => Preserves.pure fun _ => by
          refine ⟨List.append_eq_nil_iff.2 ⟨ha.1, hb.1⟩, fun htop T hT => ?_⟩
          obtain ⟨A, hA, B, hB, rfl⟩ := ArgTy.instantiate?_product.1 hT
          exact hI.product (hI.mono hlater (ha.2 htop A hA)) (hb.2 htop B hB)
  | .data d as, r, S, held, hr => by
    rw [argumentType]
    cases hargs : as.mapM r.sourceType? with
    | none => exact Preserves.bind (K := fun _ _ _ => False) Preserves.throw fun _ _ _ _ _ h => h.elim
    | some args =>
      refine Preserves.bind_run (run_orOutOfRange args S) ?_
      split_ifs with hown
      · exact Preserves.pure fun _ => ⟨hr.type, fun htop => by simp [htop] at hown⟩
      · have hrep : Preserves I (represented ⟨d, args⟩ do d.represent args (← argumentTypes as r)) S
            held fun rep S' held' => Keeps rep held' ∧ Stands S' (.data d args) rep.type := by
          rcases hI.within ⟨d, args⟩ with hloose | hdirect
          · refine (hI.represented hloose.add ?_).mono fun rep _ _ _ _ h =>
              ⟨h.2, hloose.stands _ _⟩
            refine Preserves.bind (preserves_argumentTypes hI as r S held hr args hargs) ?_
            exact fun params _ _ _ _ hp => d.preserves_represent hI args params _ _ hloose hp
          · exact hdirect as r S held hr hargs
        refine hrep.bind fun rep _ _ _ _ h => Preserves.pure fun _ => ?_
        refine ⟨h.1.plain_type, fun _ T hT => ?_⟩
        obtain ⟨args', hargs', rfl⟩ := ArgTy.instantiate?_data.1 hT
        obtain rfl := Option.some_inj.1 (hargs.symm.trans hargs')
        exact h.2

theorem preserves_argumentTypes (hI : Imaging I Stands) : ∀ (as : List ArgTy)
    (r : PartialRepresentation) (S : EncodingState) (held : Set Formula), r.Begun I Stands S →
      ∀ args, as.mapM r.sourceType? = some args → Preserves I (argumentTypes as r) S held
        fun ts S' _ => List.Forall₂ (fun a p => p.Plain ∧ Stands S' a p) args ts
  | [], _, _, _, _, _, hargs => by
    cases hargs
    exact Preserves.pure fun _ => .nil
  | a :: as, r, _, _, hr, args, hargs => by
    obtain ⟨A, rest, hA, hrest, rfl⟩ := List.forall₂_cons_left_iff.1 (mapM_eq_some_iff.1 hargs)
    refine (preserves_argumentType hI false a r _ _ hr).bind fun t _ _ _ hlater ha => ?_
    refine (preserves_argumentTypes hI as r _ _ (hr.later hI hlater) rest
      (mapM_eq_some_iff.2 hrest)).bind fun ts _ _ _ hlater has => Preserves.pure fun _ => ?_
    exact .cons ⟨ha.1, hI.mono hlater (ha.2 rfl A hA)⟩ has

end

namespace Encode

mutual

theorem preserves_type (hI : Imaging I Stands) : ∀ (T : Ty) (S : EncodingState) (held : Set Formula),
    Preserves I (type T) S held fun t S' _ => t.Plain ∧ Stands S' T t
  | .leaf v, _, _ => v.elim
  | .boolean, _, _ => Preserves.pure fun _ => ⟨rfl, hI.boolean⟩
  | .given _, _, _ => Preserves.pure fun _ => ⟨rfl, hI.given⟩
  | .power a, _, _ => (preserves_type hI a _ _).bind fun _ _ _ _ _ ha =>
      Preserves.pure fun _ => ⟨ha.1, hI.power ha.2⟩
  | .product a b, _, _ => (preserves_type hI a _ _).bind fun _ _ _ _ _ ha =>
      (preserves_type hI b _ _).bind fun _ _ _ _ hlater hb => Preserves.pure fun _ =>
        ⟨List.append_eq_nil_iff.2 ⟨ha.1, hb.1⟩, hI.product (hI.mono hlater ha.2) hb.2⟩
  | .data d as, S, held => by
    have hrep : Preserves I (representation ⟨d, as⟩) S held fun rep S' held' =>
        Keeps rep held' ∧ Stands S' (.data d as) rep.type := by
      rcases hI.outside ⟨d, as⟩ with hloose | hdirect
      · refine (hI.represented hloose.add ?_).mono fun rep _ _ _ _ h =>
          ⟨h.2, hloose.stands _ _⟩
        exact (preserves_types hI as S held).bind fun params _ _ _ _ hp =>
          d.preserves_represent hI as params _ _ hloose hp
      · exact (hdirect S held).mono fun _ _ _ _ _ h => ⟨h.1.2, h.2⟩
    rw [type]
    exact hrep.bind fun rep _ _ _ _ h => Preserves.pure fun _ => ⟨h.1.plain_type, h.2⟩

theorem preserves_types (hI : Imaging I Stands) : ∀ (Ts : List Ty) (S : EncodingState)
    (held : Set Formula), Preserves I (types Ts) S held fun ts S' _ =>
      List.Forall₂ (fun T t => t.Plain ∧ Stands S' T t) Ts ts
  | [], _, _ => Preserves.pure fun _ => .nil
  | T :: Ts, _, _ => (preserves_type hI T _ _).bind fun _ _ _ _ _ ht =>
      (preserves_types hI Ts _ _).bind fun _ _ _ _ hlater hts =>
        Preserves.pure fun _ => .cons ⟨ht.1, hI.mono hlater ht.2⟩ hts

end

/-- What an invariant says about types is kept by all encoding of types. -/
theorem Imaging.kept (hI : Imaging I Stands) : Kept I where
  toSteady := hI.toSteady
  type T S held := (preserves_type hI T S held).mono fun _ _ _ _ _ h => h.1
  representation i S held := by
    rcases hI.outside i with hloose | hdirect
    · exact hI.represented hloose.add <| (preserves_types hI i.args S held).bind
        fun params _ _ _ _ hp => i.datatype.preserves_represent hI i.args params _ _ hloose hp
    · exact (hdirect S held).mono fun _ _ _ _ _ h => h.1

theorem loose_soundness (i : Instance) : Loose EncodingState.soundness (fun _ _ _ => True) i :=
  ⟨fun _ _ => trivial, fun _ _ h => ⟨h, EncodingState.later_add _ _⟩⟩

theorem imaging_soundness : Imaging EncodingState.soundness fun _ _ _ => True where
  toSteady := steady_soundness
  mono _ _ := trivial
  boolean := trivial
  given := trivial
  power _ := trivial
  product _ _ := trivial
  within i := .inl (loose_soundness i)
  outside i := .inl (loose_soundness i)

end Encode
end SetLang
