import SetLang.Encoding.Axioms
import SetLang.Proofs.Encoding.Run
import SetLang.Proofs.Encoding.Supported
import SetLang.Proofs.Session.Parts

/-! Encodings within sessions. Whatever an encoding is asked for, and whether it succeeds or not, what is
held fits the store afterwards, and every representation that it keeps is complete: it has an image for
each constructor, and in it a type without datatypes and a destructor for each argument. -/

namespace SetLang

structure ConstructorImage.Complete (c : Constructor) (image : ConstructorImage) : Prop where
  arguments : image.argTypes.length = c.arguments.length
  destructors : image.destructors.length = image.argTypes.length
  plain : ∀ t ∈ image.argTypes, t.Plain

namespace Representation

def exprs (r : Representation) : List Expr :=
  r.typeExpr :: (r.setConstructor.toList ++ r.constructors.flatMap fun c => c.function :: c.destructors)

theorem typeExpr_mem_exprs (r : Representation) : r.typeExpr ∈ r.exprs := List.mem_cons_self

theorem setConstructor_mem_exprs {r : Representation} {set : Expr} (h : r.setConstructor = some set) : set ∈ r.exprs :=
  List.mem_cons_of_mem _ (List.mem_append_left _ (Option.mem_toList.2 h))

theorem mem_exprs_of_constructor {r : Representation} {c : ConstructorImage} {e : Expr} (hc : c ∈ r.constructors)
    (he : e ∈ c.function :: c.destructors) : e ∈ r.exprs :=
  List.mem_cons_of_mem _ (List.mem_append_right _ (List.mem_flatMap.2 ⟨c, hc, he⟩))

/-- A representation has a given type, the set of its values, and an image of each constructor. -/
structure Complete (r : Representation) : Prop where
  type : ∃ g n, r.type = .given g ∧ r.typeExpr = .free n g (some (Ty.givenSet g))
  params : r.params.length = r.source.args.length
  plain : ∀ t ∈ r.params, t.Plain
  sets : r.setConstructor.isSome = (r.source.datatype.hasArguments && !r.source.args.isEmpty)
  constructors :
    List.Forall₂ ConstructorImage.Complete r.source.datatype.constructors r.constructors

theorem Complete.image {r : Representation} (h : r.Complete) {image : ConstructorImage}
    (hi : image ∈ r.constructors) : ∃ c, image.Complete c := by
  obtain ⟨c, -, hc⟩ := forall₂_exists_right h.constructors.flip hi
  exact ⟨c, hc⟩

end Representation

/-- What is held fits the store of the encoding, extensions of datatypes are genuine, and the
representations are complete and held. -/
structure EncodingState.Sound (S : EncodingState) (held : Set Formula) : Prop where
  store : S.store.Sound held
  source : ∀ e ∈ S.encoding.source.extensions, e.Genuine
  target : ∀ e ∈ S.encoding.target.extensions, e.Genuine
  complete : ∀ r ∈ S.encoding.representations, r.Complete
  holds : ∀ r ∈ S.encoding.representations, ∀ e ∈ r.exprs, .expr e ∈ held

def EncodingState.soundness : Invariant EncodingState Formula where
  Fits := EncodingState.Sound
  Later := EncodingState.Later
  refl := .refl
  trans := .trans

variable {S : EncodingState} {held : Set Formula} {α : Type} {r : Representation} {i : Instance}

namespace EncodingState.Sound

/-- Construction changes the store alone. -/
theorem build {s : Store} {held' : Set Formula} (h : S.Sound held) (hs : s.Sound held')
    (hsub : held ⊆ held') : EncodingState.Sound ⟨s, S.encoding⟩ held' :=
  ⟨hs, h.source, h.target, h.complete, fun r hr e he => hsub (h.holds r hr e he)⟩

theorem quiet {S' : EncodingState} {held' : Set Formula} (h : S.Sound held) (k : S.Quiet S')
    (hs : S'.store.Sound held') (hsub : held ⊆ held') : S'.Sound held' :=
  ⟨hs, k.source ▸ h.source, k.target ▸ h.target, k.representations ▸ h.complete,
    fun r hr e he => hsub (h.holds r (k.representations ▸ hr) e he)⟩

end EncodingState.Sound

namespace Encode

variable {I : Invariant EncodingState Formula}

/-- An invariant of sound states that nothing but representation may break. -/
structure Steady (I : Invariant EncodingState Formula) : Prop where
  sound : ∀ {S held}, I.Fits S held → S.Sound held
  quiet : ∀ {S S' held held'}, I.Fits S held → S.Quiet S' → S'.Sound held' → I.Fits S' held'
  later : ∀ {S S' held}, I.Fits S held → S.Quiet S' → I.Later S S'

def Keeps (r : Representation) (held : Set Formula) : Prop :=
  r.Complete ∧ ∀ e ∈ r.exprs, .expr e ∈ held

theorem Keeps.mono {held' : Set Formula} (h : Keeps r held) (hsub : held ⊆ held') :
    Keeps r held' := ⟨h.1, fun e he => hsub (h.2 e he)⟩

/-- A complete representation has a type without datatypes. -/
theorem Keeps.plain_type (h : Keeps r held) : r.type.Plain := by
  obtain ⟨g, n, hg, -⟩ := h.1.type
  rw [hg]
  rfl

namespace Steady

theorem liftM (hI : Steady I) {x : Build α} {K : α → Set Formula → Prop}
    (h : Preserves Store.soundness x S.store held fun a _ held' => K a held') :
    Preserves I (liftM x : Encode α) S held fun a _ held' => K a held' := by
  intro hfits
  have hS := hI.sound hfits
  obtain ⟨held', hsub, hlater, hs, hK⟩ := h hS.store
  rw [run_liftM]
  have hquiet : S.Quiet ⟨(x.run S.store).2, S.encoding⟩ := .of_store hlater
  refine ⟨held', hsub, hI.later hfits hquiet, hI.quiet hfits hquiet (hS.build hs hsub), fun a ha => ?_⟩
  cases hx : (x.run S.store).1 with
  | ok b =>
    rw [hx] at ha
    cases ha
    exact hK _ hx
  | error m =>
    rw [hx] at ha
    cases ha

/-- Updates of the names leave all else as it is. -/
theorem update (hI : Steady I) (g : Encoding → Encoding)
    (hnames : S.Goes { S with encoding := g S.encoding })
    (h : ∀ t : Encoding, (g t).source = t.source ∧ (g t).target = t.target ∧ (g t).env = t.env ∧
      (g t).representations = t.representations) :
    Preserves I (update g) S held fun _ _ _ => True := by
  intro hfits
  have hS := hI.sound hfits
  have hquiet : S.Quiet { S with encoding := g S.encoding } := by
    obtain ⟨hsource, htarget, henv, hreps⟩ := h S.encoding
    exact ⟨.refl _, hsource, htarget, henv, hnames, hreps⟩
  exact ⟨held, Set.Subset.rfl, hI.later hfits hquiet,
    hI.quiet hfits hquiet (hS.quiet hquiet hS.store Set.Subset.rfl), fun _ _ => trivial⟩

theorem allocate (hI : Steady I) (base : String) (type : String → Ty) :
    Preserves I (allocate base type) S held fun _ _ _ => True :=
  Preserves.bind_run (run_current S) <| by
    refine (hI.update _ ?_ fun _ => ?_).bind fun _ _ _ _ _ _ => Preserves.pure fun _ => trivial
    · have hrun : (Encode.allocate base type).run S = (.ok _, _) := rfl
      exact ⟨_, .gave hrun⟩
    · exact ⟨rfl, rfl, rfl, rfl⟩

theorem freshGiven (hI : Steady I) (base : String) :
    Preserves I (freshGiven base) S held fun t _ _ => ∃ g, t = .given g :=
  (hI.allocate base _).bind fun name _ _ _ _ _ => Preserves.pure fun _ => ⟨name, rfl⟩

theorem freshIdentifier (hI : Steady I) (base : String) (t : Ty) :
    Preserves I (freshIdentifier base t) S held fun e _ held' => .expr e ∈ held' :=
  (hI.allocate base _).bind fun _ S' _ _ _ _ => Preserves.bind_run (run_target S')
    (hI.liftM (Build.preserves_free _ _))

/-- An instance that is not represented is, if its representation may be added. -/
theorem represented (hI : Steady I) {create : Encode Representation}
    (hadd : ∀ {S held r}, I.Fits S held → r.source = i → (S.add r).Sound held →
      I.Fits (S.add r) held ∧ I.Later S (S.add r))
    (h : Preserves I create S held fun r _ held' => Keeps r held' ∧ r.source = i) :
    Preserves I (represented i create) S held fun r S' held' =>
      r ∈ S'.encoding.representations ∧ Keeps r held' := by
  unfold Encode.represented
  refine Preserves.bind_run (run_current S) ?_
  cases hr : S.encoding.representation? i with
  | some r =>
    have hmem := (Encoding.mem_of_representation? hr).1
    refine Preserves.pure fun hS => ⟨hmem, ?_⟩
    exact ⟨(hI.sound hS).complete r hmem, (hI.sound hS).holds r hmem⟩
  | none =>
    have hrest : Preserves I (do
        let r ← create
        Encode.update fun t => { t with representations := t.representations ++ [r] }
        return r) S held fun r S' held' => r ∈ S'.encoding.representations ∧ Keeps r held' := by
      refine h.bind fun r S' held' _ _ hr => ?_
      intro hfits
      have hS' := hI.sound hfits
      obtain ⟨hfits', hlater⟩ := hadd hfits hr.2 ⟨hS'.store, hS'.source, hS'.target,
        List.forall_mem_append.2 ⟨hS'.complete, List.forall_mem_singleton.2 hr.1.1⟩,
        List.forall_mem_append.2 ⟨hS'.holds, List.forall_mem_singleton.2 hr.1.2⟩⟩
      refine ⟨held', Set.Subset.rfl, hlater, hfits', ?_⟩
      rintro _ ⟨⟩
      exact ⟨List.mem_append_right _ (List.mem_singleton_self r), hr.1⟩
    dsimp only
    split_ifs
    · exact Preserves.bind (K := fun _ _ _ => False) Preserves.throw fun _ _ _ _ _ h => h.elim
    · exact hrest

/-- A representation is created from a new name for its type, and what follows is kept. -/
theorem create_named (hI : Steady I) {args params : List Ty} (d : Datatype)
    (constructors : PartialRepresentation → Encode (List ConstructorImage))
    (hlen : params.length = args.length) (hparams : ∀ t ∈ params, t.Plain) :
    ∃ base rest, create ⟨d, args⟩ params constructors = Encode.freshGiven base >>= rest ∧
      ∀ g S held, (∀ S' held', I.Later S S' → held ⊆ held' →
          Preserves I (constructors ⟨⟨d, args⟩, params, .given g⟩) S' held'
            fun images _ held' => List.Forall₂ ConstructorImage.Complete d.constructors images ∧
              ∀ c ∈ images, ∀ e ∈ c.function :: c.destructors, .expr e ∈ held') →
        Preserves I (rest (.given g)) S held fun r _ held' => Keeps r held' ∧ r.source = ⟨d, args⟩ := by
  refine ⟨_, _, rfl, fun g S₁ held₁ h => Preserves.bind_run (run_target S₁) ?_⟩
  have hset : Preserves Store.soundness (S₁.encoding.target.typeExpr (.given g)) S₁.store held₁
      fun e _ held' => .expr e ∈ held' ∧ ∃ n, e = .free n g (some (Ty.givenSet g)) := by
    rw [Factory.typeExpr]
    exact (Build.preserves_free _ _).and_yields (Build.yields_expr _ _)
  refine (hI.liftM hset).bind fun e S₂ held₂ hsub₂ hlater₂ he => ?_
  obtain ⟨he, n, rfl⟩ := he
  have hrest : ∀ (o : Option Expr) (S₃ : EncodingState) (held₃ : Set Formula), held₂ ⊆ held₃ →
      I.Later S₂ S₃ → o.isSome = (d.hasArguments && !args.isEmpty) →
      (∀ e ∈ o.toList, .expr e ∈ held₃) → Preserves I (do
        return ⟨⟨d, args⟩, params, .given g, .free n g (some (Ty.givenSet g)), o,
          ← constructors ⟨⟨d, args⟩, params, .given g⟩⟩) S₃ held₃ fun r _ held' =>
            Keeps r held' ∧ r.source = ⟨d, args⟩ := by
    intro o S₃ held₃ hsub₃ hlater₃ hsome ho
    refine (h S₃ held₃ (I.trans hlater₂ hlater₃) (hsub₂.trans hsub₃)).bind
      fun images S₄ held₄ hsub₄ _ hi => ?_
    refine Preserves.pure fun _ =>
      ⟨⟨⟨⟨g, n, rfl, rfl⟩, hlen, hparams, hsome, hi.1⟩, fun e hmem => ?_⟩, rfl⟩
    rcases List.mem_cons.1 hmem with rfl | hmem
    · exact hsub₄ (hsub₃ he)
    · rcases List.mem_append.1 hmem with hmem | hmem
      · exact hsub₄ (ho e hmem)
      · obtain ⟨c, hc, hmem⟩ := List.mem_flatMap.1 hmem
        exact hi.2 c hc e hmem
  dsimp only
  split_ifs with hhas
  · refine (Preserves.map (L := fun o _ held' => o.isSome = true ∧ ∀ e ∈ o.toList, .expr e ∈ held')
      ((hI.freshIdentifier _ _).mono fun e _ _ _ _ he => ⟨rfl, by simpa using he⟩)).bind
        fun o S₃ held₃ hsub hlater ho => ?_
    exact hrest o S₃ held₃ hsub hlater (ho.1.trans hhas.symm) ho.2
  · exact hrest none S₂ held₂ Set.Subset.rfl (I.refl _) (by simpa using hhas) (by simp)

theorem create (hI : Steady I) {args params : List Ty} {d : Datatype}
    {constructors : PartialRepresentation → Encode (List ConstructorImage)}
    (hlen : params.length = args.length) (hparams : ∀ t ∈ params, t.Plain)
    (h : ∀ type : Ty, type.Plain → ∀ S' held', I.Later S S' → held ⊆ held' →
      Preserves I (constructors ⟨⟨d, args⟩, params, type⟩) S' held'
        fun images _ held' => List.Forall₂ ConstructorImage.Complete d.constructors images ∧
          ∀ c ∈ images, ∀ e ∈ c.function :: c.destructors, .expr e ∈ held') :
    Preserves I (create ⟨d, args⟩ params constructors) S held
      fun r _ held' => Keeps r held' ∧ r.source = ⟨d, args⟩ := by
  obtain ⟨base, rest, heq, hrest⟩ := hI.create_named d constructors hlen hparams
  rw [heq]
  refine (hI.freshGiven base).bind fun type S₁ held₁ hsub hlater hg => ?_
  obtain ⟨g, rfl⟩ := hg
  exact hrest g S₁ held₁ fun S' held' hlater' hsub' =>
    h (.given g) rfl S' held' (I.trans hlater hlater') (hsub.trans hsub')

end Steady

theorem steady_soundness : Steady EncodingState.soundness where
  sound h := h
  quiet _ _ h := h
  later _ h := h.later

theorem preserves_orOutOfRange {K : α → EncodingState → Set Formula → Prop} (o : Option α)
    (h : ∀ a, o = some a → K a S held) : Preserves I (orOutOfRange o) S held K := by
  cases o with
  | none => exact Preserves.throw
  | some a => exact Preserves.pure fun _ => h a rfl

end Encode
end SetLang
