import SetLang.Proofs.Encoding.Fresh

/-! What an encoding keeps of the names that it gives out. Whatever it is asked for, and whether it succeeds or not, it
keeps these names with their types, none of them is taken by the environment, and whatever stands for an instance or
one of its constructors is the free identifier of such a name, of the type that is kept. -/

namespace SetLang

variable {S S' : EncodingState} {held : Set Formula} {α : Type} {e : Expr} {x name : String} {T : Ty}

namespace Encoding

/-- The names of the environment and those that were given out are taken, the latter in order. -/
structure Records (t : Encoding) : Prop where
  sorted : t.allocated.Sorted
  taken : t.allocated.names ⊆ t.used
  reserved : initialNames t.env ⊆ t.used

theorem Records.get?_eq_none {t : Encoding} (h : t.Records) (hname : name ∉ t.used) :
    t.allocated.get? name = none :=
  lookup_eq_none_iff_not_mem.2 fun hmem => hname (h.taken hmem)

def KeepsNames (t t' : Encoding) : Prop := ∀ x T, t.allocated.get? x = some T → t'.allocated.get? x = some T

/-- A free identifier of a name that was given out, of the type that is kept. -/
def Gave (t : Encoding) (e : Expr) : Prop := ∃ n x T, e = .free n x (some T) ∧ t.allocated.get? x = some T

theorem Gave.mono {t t' : Encoding} (h : t.Gave e) (k : t.KeepsNames t') : t'.Gave e := by
  obtain ⟨n, x, T, rfl, hT⟩ := h
  exact ⟨n, x, T, rfl, k x T hT⟩

def Accounts (t : Encoding) : Prop := ∀ r ∈ t.representations, ∀ e ∈ r.exprs, t.Gave e

end Encoding

namespace EncodingState

variable {source : Factory}

/-- Whatever happens to names, those that were given out keep their types. -/
theorem Goes.allocated (h : S.Goes S') (hsorted : S.encoding.allocated.Sorted)
    (htaken : S.encoding.allocated.names ⊆ S.encoding.used) : S'.encoding.allocated.Sorted ∧
      S'.encoding.allocated.names ⊆ S'.encoding.used ∧ S.encoding.KeepsNames S'.encoding := by
  obtain ⟨es, h⟩ := h
  induction h with
  | still hused hallocated =>
    rw [Encoding.KeepsNames, hused, hallocated]
    exact ⟨hsorted, htaken, fun _ _ h => h⟩
  | gave hrun =>
    cases hrun
    refine ⟨hsorted.insert, fun x hx => ?_, fun x T hx => ?_⟩
    · rcases Environment.mem_names_insert.1 hx with rfl | hx
      · exact List.mem_cons_self
      · exact List.mem_cons_of_mem _ (htaken hx)
    · rw [Environment.get?_insert, if_neg]
      · exact hx
      · -- a name that is given out is none of those that were given out before
        rintro rfl
        exact freshName_notMem _ _ (htaken (isSome_lookup_iff.1 (Option.isSome_of_eq_some hx)))
  | took hrun =>
    cases hrun
    exact ⟨hsorted, fun x hx => List.mem_append_right _ (htaken hx), fun _ _ h => h⟩
  | trans _ _ ih ih' =>
    obtain ⟨hsorted', htaken', hkeeps⟩ := ih hsorted htaken
    obtain ⟨hsorted'', htaken'', hkeeps'⟩ := ih' hsorted' htaken'
    exact ⟨hsorted'', htaken'', fun x T hx => hkeeps' x T (hkeeps x T hx)⟩

theorem Goes.records (h : S.Goes S') (hrecords : S.encoding.Records) (henv : S'.encoding.env = S.encoding.env) :
    S'.encoding.Records ∧ S.encoding.KeepsNames S'.encoding := by
  obtain ⟨hsorted, htaken, hkeeps⟩ := h.allocated hrecords.sorted hrecords.taken
  exact ⟨⟨hsorted, htaken, henv ▸ List.Subset.trans hrecords.reserved h.used_subset⟩, hkeeps⟩

theorem Later.records (h : S.Later S') (hrecords : S.encoding.Records) : S'.encoding.Records :=
  (h.names.records hrecords h.env).1

theorem Reached.records (h : Reached source S held) : S.encoding.Records := by
  induction h with
  | start _ _ hrun =>
    cases hrun
    exact ⟨Environment.sorted_empty, List.nil_subset _, List.Subset.refl _⟩
  | step hreached hstep ih =>
    exact (hstep.preserves Encode.imaging_soundness.kept hreached.sound.1).1.records ih

/-- Names that were given out are not taken by the environment. -/
theorem Reached.notMem_initialNames (h : Reached source S held) (hx : x ∈ S.encoding.allocated.names) :
    x ∉ Encoding.initialNames S.encoding.env := by
  obtain ⟨S₀, hused, hnone, henv, es, hnames⟩ : ∃ S₀ : EncodingState,
      S₀.encoding.used = Encoding.initialNames S.encoding.env ∧ S₀.encoding.allocated = .empty ∧
        S.encoding.env = S₀.encoding.env ∧ S₀.Goes S := by
    clear hx
    induction h with
    | start _ _ hrun =>
      cases hrun
      exact ⟨_, rfl, rfl, rfl, .still rfl rfl⟩
    | step hreached hstep ih =>
      have hlater := (hstep.preserves Encode.imaging_soundness.kept hreached.sound.1).1
      obtain ⟨S₀, hused, hnone, henv, hgoes⟩ := ih
      exact ⟨S₀, by rw [hused, hlater.env], hnone, hlater.env.trans henv, hgoes.trans hlater.names⟩
  rw [hnames.mem_allocated, hnone] at hx
  exact hused ▸ hnames.nodup_given.2 x (hx.resolve_left nofun)

def accounting : Invariant EncodingState Formula where
  Fits S _ := S.encoding.Records ∧ S.encoding.Accounts
  Later S S' := S.encoding.KeepsNames S'.encoding
  refl _ _ _ h := h
  trans h k x T hT := k x T (h x T hT)

def bookkeeping : Invariant EncodingState Formula where
  Fits S held := S.Sound held ∧ S.encoding.Records ∧ S.encoding.Accounts
  Later S S' := S.Later S' ∧ S.encoding.KeepsNames S'.encoding
  refl S := ⟨.refl S, accounting.refl S⟩
  trans h k := ⟨h.1.trans k.1, accounting.trans h.2 k.2⟩

end EncodingState

namespace Encode

open EncodingState

theorem account_allocate (base : String) (type : String → Ty) :
    Preserves accounting (allocate base type) S held fun x S' _ =>
      S'.encoding.allocated.get? x = some (type x) := by
  rintro ⟨hrecords, haccounts⟩
  have hgoes : S.Goes ((allocate base type).run S).2 := ⟨_, .gave rfl⟩
  obtain ⟨hrecords', hkeeps⟩ := hgoes.records hrecords rfl
  refine ⟨held, Set.Subset.rfl, hkeeps, ⟨hrecords', fun r hr e he => (haccounts r hr e he).mono hkeeps⟩, ?_⟩
  rintro _ ⟨⟩
  exact Environment.get?_insert.trans (if_pos rfl)

theorem account_liftM (x : Build α) : Preserves accounting (liftM x : Encode α) S held fun _ _ _ => True := by
  intro h
  rw [run_liftM]
  exact ⟨held, Set.Subset.rfl, fun _ _ h => h, h, fun _ _ => trivial⟩

theorem account_freshGiven (base : String) : Preserves accounting (freshGiven base) S held fun t S' _ =>
    ∃ g, t = .given g ∧ S'.encoding.allocated.get? g = some (Ty.givenSet g) :=
  (account_allocate base _).bind fun name _ _ _ _ h => Preserves.pure fun _ => ⟨name, rfl, h⟩

theorem yields_liftM_encoding (x : Build α) : Yields (liftM x : Encode α) S fun _ S' => S'.encoding = S.encoding := by
  intro a S' hrun
  rw [run_liftM] at hrun
  rw [← (Prod.mk.inj hrun).2]

/-- A free identifier of a name that was given out. -/
theorem account_free {f : Factory} (hT : S.encoding.allocated.get? x = some T) :
    Preserves accounting (liftM (f.free x (some T)) : Encode Expr) S held fun e S' _ => S'.encoding.Gave e := by
  refine ((account_liftM _).and_yields ((yields_liftM (Build.yields_expr f (.free · x (some T)))).and
    (yields_liftM_encoding _))).mono fun e S' _ _ _ h => ?_
  obtain ⟨-, ⟨n, rfl⟩, hencoding⟩ := h
  exact ⟨n, x, T, rfl, hencoding ▸ hT⟩

theorem account_freshIdentifier (base : String) (t : Ty) :
    Preserves accounting (freshIdentifier base t) S held fun e S' _ => S'.encoding.Gave e :=
  (account_allocate base _).bind fun _ S' _ _ _ h => Preserves.bind_run (run_target S') (account_free h)

theorem account_represented {i : Instance} {create : Encode Representation}
    (h : Preserves accounting create S held fun r S' _ => ∀ e ∈ r.exprs, S'.encoding.Gave e) :
    Preserves accounting (represented i create) S held fun _ _ _ => True := by
  unfold represented
  refine Preserves.bind_run (run_current S) ?_
  cases S.encoding.representation? i with
  | some r => exact Preserves.pure fun _ => trivial
  | none =>
    dsimp only
    split_ifs
    · exact Preserves.bind (K := fun _ _ _ => False) Preserves.throw fun _ _ _ _ _ h => h.elim
    · refine h.bind fun r S₁ held₁ _ _ hr => ?_
      rintro ⟨hrecords, haccounts⟩
      refine ⟨held₁, Set.Subset.rfl, fun _ _ h => h, ⟨?_, ?_⟩, fun _ _ => trivial⟩
      · exact ⟨hrecords.sorted, hrecords.taken, hrecords.reserved⟩
      · exact List.forall_mem_append.2 ⟨haccounts, List.forall_mem_singleton.2 hr⟩

theorem account_create {i : Instance} {params : List Ty}
    {constructors : PartialRepresentation → Encode (List ConstructorImage)}
    (h : ∀ type S held, Preserves accounting (constructors ⟨i, params, type⟩) S held fun images S' _ =>
      ∀ c ∈ images, ∀ e ∈ c.function :: c.destructors, S'.encoding.Gave e) :
    Preserves accounting (create i params constructors) S held fun r S' _ =>
      ∀ e ∈ r.exprs, S'.encoding.Gave e := by
  unfold create
  refine (account_freshGiven _).bind fun type S₁ held₁ _ _ hg => ?_
  obtain ⟨g, rfl, hg⟩ := hg
  refine Preserves.bind_run (run_target S₁) ?_
  have hset : Preserves accounting (liftM (S₁.encoding.target.typeExpr (.given g)) : Encode Expr) S₁ held₁
      fun e S' _ => S'.encoding.Gave e := by
    rw [Factory.typeExpr]
    exact account_free hg
  refine hset.bind fun typeExpr S₂ held₂ _ _ htype => ?_
  have hrest : ∀ (o : Option Expr) (S₃ : EncodingState) (held₃ : Set Formula), S₂.encoding.KeepsNames S₃.encoding →
      (∀ e ∈ o.toList, S₃.encoding.Gave e) → Preserves accounting (do
        return (⟨i, params, .given g, typeExpr, o, ← constructors ⟨i, params, .given g⟩⟩ : Representation))
        S₃ held₃ fun r S' _ => ∀ e ∈ r.exprs, S'.encoding.Gave e := by
    intro o S₃ held₃ hkeeps ho
    refine (h _ S₃ held₃).bind fun images S₄ held₄ _ hlater himages => Preserves.pure fun _ => ?_
    refine List.forall_mem_cons.2 ⟨(htype.mono hkeeps).mono hlater, List.forall_mem_append.2
      ⟨fun e he => (ho e he).mono hlater, fun e he => ?_⟩⟩
    obtain ⟨c, hc, he⟩ := List.mem_flatMap.1 he
    exact himages c hc e he
  dsimp only
  split_ifs
  · refine (Preserves.map (L := fun o S' _ => ∀ e ∈ o.toList, S'.encoding.Gave e)
      ((account_freshIdentifier _ _).mono fun e _ _ _ _ he => by simpa using he)).bind
        fun o S₃ held₃ _ hlater ho => ?_
    exact hrest o S₃ held₃ hlater ho
  · exact hrest none S₂ held₂ (accounting.refl S₂) nofun

end Encode

open EncodingState Encode

mutual

theorem Datatype.account_represent : ∀ (d : Datatype) (args params : List Ty) (S : EncodingState)
    (held : Set Formula), Preserves accounting (d.represent args params) S held fun r S' _ =>
      ∀ e ∈ r.exprs, S'.encoding.Gave e
  | ⟨_, _, cs⟩, _, _, _, _ => account_create fun _ S held => account_constructorImages cs _ S held

theorem account_constructorImages : ∀ (cs : List Constructor) (r : PartialRepresentation) (S : EncodingState)
    (held : Set Formula), Preserves accounting (constructorImages cs r) S held fun images S' _ =>
      ∀ c ∈ images, ∀ e ∈ c.function :: c.destructors, S'.encoding.Gave e
  | [], _, _, _ => Preserves.pure fun _ => nofun
  | c :: cs, r, _, _ => (account_constructorImage c r _ _).bind fun _ _ _ _ _ hc =>
      (account_constructorImages cs r _ _).bind fun _ _ _ _ hlater hcs => Preserves.pure fun _ =>
        List.forall_mem_cons.2 ⟨fun e he => (hc e he).mono hlater, hcs⟩

theorem account_constructorImage : ∀ (c : Constructor) (r : PartialRepresentation) (S : EncodingState)
    (held : Set Formula), Preserves accounting (constructorImage c r) S held fun image S' _ =>
      ∀ e ∈ image.function :: image.destructors, S'.encoding.Gave e
  | ⟨_, as⟩, r, _, _ => (account_argumentImages as r _ _).bind fun _ _ _ _ _ has =>
      (account_freshIdentifier _ _).bind fun _ _ _ _ hlater he => Preserves.pure fun _ => by
        refine List.forall_mem_cons.2 ⟨he, fun d hd => ?_⟩
        obtain ⟨x, hx, rfl⟩ := List.mem_map.1 hd
        exact (has x hx).mono hlater

theorem account_argumentImages : ∀ (as : List Argument) (r : PartialRepresentation) (S : EncodingState)
    (held : Set Formula), Preserves accounting (argumentImages as r) S held fun images S' _ =>
      ∀ x ∈ images, S'.encoding.Gave x.2
  | [], _, _, _ => Preserves.pure fun _ => nofun
  | a :: as, r, _, _ => (account_argumentImage a r _ _).bind fun _ _ _ _ _ ha =>
      (account_argumentImages as r _ _).bind fun _ _ _ _ hlater has => Preserves.pure fun _ =>
        List.forall_mem_cons.2 ⟨ha.mono hlater, has⟩

theorem account_argumentImage : ∀ (a : Argument) (r : PartialRepresentation) (S : EncodingState)
    (held : Set Formula), Preserves accounting (argumentImage a r) S held fun x S' _ => S'.encoding.Gave x.2
  | ⟨name, t⟩, r, S, held => by
    have hrest : Preserves accounting (do
        let type ← argumentType true t r
        return (type, ← freshDestructor name r.type type)) S held fun x S' _ => S'.encoding.Gave x.2 :=
      (account_argumentType true t r S held).bind fun _ _ _ _ _ _ =>
        (account_freshIdentifier _ _).bind fun _ _ _ _ _ he => Preserves.pure fun _ => he
    rw [argumentImage]
    split_ifs
    · exact Preserves.bind (K := fun _ _ _ => False) Preserves.throw fun _ _ _ _ _ h => h.elim
    · exact hrest

theorem account_argumentType (top : Bool) : ∀ (t : ArgTy) (r : PartialRepresentation) (S : EncodingState)
    (held : Set Formula), Preserves accounting (argumentType top t r) S held fun _ _ _ => True
  | .leaf .self, _, _, _ | .boolean, _, _, _ | .given _, _, _, _ => Preserves.pure fun _ => trivial
  | .leaf (.param _), _, _, _ => preserves_orOutOfRange _ fun _ _ => trivial
  | .power a, r, _, _ => (account_argumentType top a r _ _).bind fun _ _ _ _ _ _ => Preserves.pure fun _ => trivial
  | .product a b, r, _, _ => (account_argumentType top a r _ _).bind fun _ _ _ _ _ _ =>
      (account_argumentType top b r _ _).bind fun _ _ _ _ _ _ => Preserves.pure fun _ => trivial
  | .data d as, r, S, held => by
    rw [argumentType]
    refine (preserves_orOutOfRange (K := fun _ _ _ => True) _ fun _ _ => trivial).bind fun args S₁ held₁ _ _ _ => ?_
    split_ifs
    · exact Preserves.pure fun _ => trivial
    · refine (account_represented ?_).bind fun _ _ _ _ _ _ => Preserves.pure fun _ => trivial
      exact (account_argumentTypes as r S₁ held₁).bind fun params S₂ held₂ _ _ _ =>
        d.account_represent args params S₂ held₂

theorem account_argumentTypes : ∀ (as : List ArgTy) (r : PartialRepresentation) (S : EncodingState)
    (held : Set Formula), Preserves accounting (argumentTypes as r) S held fun _ _ _ => True
  | [], _, _, _ => Preserves.pure fun _ => trivial
  | a :: as, r, _, _ => (account_argumentType false a r _ _).bind fun _ _ _ _ _ _ =>
      (account_argumentTypes as r _ _).bind fun _ _ _ _ _ _ => Preserves.pure fun _ => trivial

end

namespace Encode

mutual

theorem account_type : ∀ (T : Ty) (S : EncodingState) (held : Set Formula),
    Preserves accounting (type T) S held fun _ _ _ => True
  | .leaf v, _, _ => v.elim
  | .boolean, _, _ | .given _, _, _ => Preserves.pure fun _ => trivial
  | .power a, _, _ => (account_type a _ _).bind fun _ _ _ _ _ _ => Preserves.pure fun _ => trivial
  | .product a b, _, _ => (account_type a _ _).bind fun _ _ _ _ _ _ =>
      (account_type b _ _).bind fun _ _ _ _ _ _ => Preserves.pure fun _ => trivial
  | .data d as, S, held => by
    rw [type]
    refine (account_represented ?_).bind fun _ _ _ _ _ _ => Preserves.pure fun _ => trivial
    exact (account_types as S held).bind fun params _ _ _ _ _ => d.account_represent as params _ _

theorem account_types : ∀ (Ts : List Ty) (S : EncodingState) (held : Set Formula),
    Preserves accounting (types Ts) S held fun _ _ _ => True
  | [], _, _ => Preserves.pure fun _ => trivial
  | T :: Ts, _, _ => (account_type T _ _).bind fun _ _ _ _ _ _ =>
      (account_types Ts _ _).bind fun _ _ _ _ _ _ => Preserves.pure fun _ => trivial

end

theorem account_representation (i : Instance) (S : EncodingState) (held : Set Formula) :
    Preserves accounting (representation i) S held fun _ _ _ => True :=
  account_represented <| (account_types i.args S held).bind fun params _ _ _ _ _ =>
    i.datatype.account_represent i.args params _ _

/-- What is kept of sound states and of accounts is kept of both. -/
theorem preserves_bookkeeping {x : Encode α} {K L : α → EncodingState → Set Formula → Prop}
    (h : Preserves soundness x S held K) (k : Preserves accounting x S held L) :
    Preserves bookkeeping x S held K := by
  rintro ⟨hsound, haccounts⟩
  obtain ⟨held', hsub, hlater, hsound', hK⟩ := h hsound
  obtain ⟨_, -, hkeeps, haccounts', -⟩ := k haccounts
  exact ⟨held', hsub, ⟨hlater, hkeeps⟩, ⟨hsound', haccounts'⟩, hK⟩

theorem kept_bookkeeping : Kept bookkeeping where
  sound h := h.1
  quiet h k hs := by
    obtain ⟨-, hrecords, haccounts⟩ := h
    obtain ⟨hrecords', hkeeps⟩ := k.names.records hrecords k.env
    exact ⟨hs, hrecords', fun r hr e he => (haccounts r (k.representations ▸ hr) e he).mono hkeeps⟩
  later h k := ⟨k.later, (k.names.records h.2.1 k.env).2⟩
  type T S held := preserves_bookkeeping (imaging_soundness.kept.type T S held) (account_type T S held)
  representation i S held :=
    preserves_bookkeeping (imaging_soundness.kept.representation i S held) (account_representation i S held)

end Encode

/-- In every state of an encoding, whatever stands for an instance has a name that was given out. -/
theorem EncodingState.Reached.account {source : Factory} (h : Reached source S held) : S.encoding.Accounts := by
  induction h with
  | start _ _ hrun =>
    cases hrun
    exact nofun
  | step hreached hstep ih =>
    exact (hstep.preserves kept_bookkeeping ⟨hreached.sound.1, hreached.records, ih⟩).2.2.2

end SetLang
