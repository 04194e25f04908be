import SetLang.Proofs.Encoding.Images

/-! Representation of supported instances. Whatever is represented meanwhile has a lower rank than what is
being represented, so that no instance is represented twice. It fails where a datatype is not registered, and
leaves an orderly state all the same. -/

namespace SetLang

variable {ds : List Datatype} {n m : Nat} {S S' : EncodingState} {α β : Type}

namespace EncodingState.Quiet

theorem look (h : S.Quiet S') : S'.encoding.look = S.encoding.look := by
  funext i
  unfold Encoding.look
  rw [h.representation?]

end EncodingState.Quiet

section
variable {f : Factory} {s s' : Store} {look look' : Instance → Option Ty} {i : Instance} {type : Ty}

theorem ConstructorImage.Renders.mono {c : Constructor} {image : ConstructorImage}
    (h : image.Renders ds f s look i type c) (k : s.Later s')
    (hlook : ∀ i : Instance, i.type.Supported ds → ∀ t, look i = some t → look' i = some t) :
    image.Renders ds f s' look' i type c :=
  ⟨h.arguments.imp fun _ _ ⟨T, hT, hsup, ht⟩ => ⟨T, hT, hsup, Ty.image?_mono hlook hsup ht⟩,
    h.function.mono k, h.destructors.imp fun _ _ hd => hd.mono k⟩

theorem Representation.Renders.mono {r : Representation} (h : r.Renders ds f s look)
    (hr : r.source.type.Supported ds) (k : s.Later s')
    (hlook : ∀ i : Instance, i.type.Supported ds → ∀ t, look i = some t → look' i = some t) :
    r.Renders ds f s' look' := by
  have hargs := (TypeTree.supported_data.1 hr).2
  refine ⟨h.type, h.typeExpr.mono k, h.hasSets, fun e he => (h.setConstructor e he).mono k, ?_,
    h.constructors.imp fun _ _ hc => hc.mono k hlook⟩
  have hparams := h.params
  revert hargs hparams
  generalize r.source.args = args
  generalize r.params = params
  intro hargs hparams
  induction hparams with
  | nil => exact .nil
  | cons ha _ ih =>
    rw [List.forall_mem_cons] at hargs
    exact .cons (Ty.image?_mono hlook hargs.1 ha) (ih hargs.2)

end

namespace EncodingState

theorem Quiet.orderly (h : S.Orderly ds) (k : S.Quiet S') : S'.Orderly ds := by
  refine ⟨h.family, fun _ hr i hi heq => ?_, fun _ hr hsup => ?_, fun _ hr hsup => ?_, fun _ hr hsup => ?_,
    k.representations ▸ h.layered, ?_, fun _ hr hsup => ?_⟩
  any_goals rw [k.representations] at hr
  · exact h.unambiguous _ hr i hi heq
  · rw [k.representation?]
    exact h.found _ hr hsup
  · rw [k.target, k.look]
    exact (h.renders _ hr hsup).mono hsup k.store fun _ _ _ ht => ht
  · rw [k.source]
    exact h.registered _ hr hsup
  · rw [k.env]
    exact List.Subset.trans h.reserved k.used
  · obtain ⟨g, hg, htaken, hown⟩ := h.named _ hr hsup
    exact ⟨g, hg, k.used htaken, k.env ▸ hown⟩

theorem Quiet.coherent (h : S.Coherent ds) (k : S.Quiet S') : S'.Coherent ds :=
  ⟨k.orderly h.toOrderly, k.source ▸ h.provides⟩

theorem Quiet.advances (h : S.Orderly ds) (k : S.Quiet S') : S.Advances ds n S' :=
  ⟨k.later, k.orderly h, fun _ hr => .inl (k.representations ▸ hr)⟩

/-- From the state a run advances to a state with a value as stated, or names one of the datatypes that is
not registered. -/
inductive Settles (ds : List Datatype) (n : Nat) (S : EncodingState) (x : Encode α)
    (Q : α → EncodingState → Prop) : Prop
  | value {a : α} {S' : EncodingState} : x.run S = (.ok a, S') → S.Advances ds n S' → Q a S' →
    Settles ds n S x Q
  | missing {d : Datatype} {S' : EncodingState} :
    x.run S = (.error (.error (.unknownDatatype d.name)), S') → S.Advances ds n S' → d ∈ ds →
    S.encoding.source.hasDatatype d = false → Settles ds n S x Q

namespace Settles

variable {x : Encode α} {f : α → Encode β} {Q Q' : α → EncodingState → Prop}
  {R : β → EncodingState → Prop}

theorem pure {a : α} (hS : S.Orderly ds) (h : Q a S) : S.Settles ds n (pure a) Q :=
  .value rfl (.refl hS) h

theorem advances (h : S.Settles ds n x Q) : S.Advances ds n (x.run S).2 := by
  cases h with
  | value hrun hadv _ => rwa [hrun]
  | missing hrun hadv _ _ => rwa [hrun]

theorem mono (h : S.Settles ds n x Q) (hn : n ≤ m)
    (k : ∀ a S', S.Advances ds n S' → Q a S' → Q' a S') : S.Settles ds m x Q' := by
  cases h with
  | value hrun hadv hQ => exact .value hrun (hadv.mono hn) (k _ _ hadv hQ)
  | missing hrun hadv hd hnone => exact .missing hrun (hadv.mono hn) hd hnone

theorem bind (h : S.Settles ds n x Q)
    (k : ∀ a S', S.Advances ds n S' → Q a S' → S'.Settles ds n (f a) R) :
    S.Settles ds n (x >>= f) R := by
  cases h with
  | value hrun hadv hQ =>
    cases k _ _ hadv hQ with
    | value hrun' hadv' hR => exact .value ((run_bind_ok hrun).trans hrun') (hadv.trans hadv') hR
    | missing hrun' hadv' hd hnone =>
      exact .missing ((run_bind_ok hrun).trans hrun') (hadv.trans hadv') hd (hadv.later.source ▸ hnone)
  | missing hrun hadv hd hnone => exact .missing (by rw [run_bind, hrun]) hadv hd hnone

theorem bind_run {a : α} (h : x.run S = (.ok a, S)) (k : S.Settles ds n (f a) R) :
    S.Settles ds n (x >>= f) R := by
  cases k with
  | value hrun hadv hR => exact .value ((run_bind_ok h).trans hrun) hadv hR
  | missing hrun hadv hd hnone => exact .missing ((run_bind_ok h).trans hrun) hadv hd hnone

/-- A last step after which the state has advanced further. -/
theorem bind_succeeds (h : S.Settles ds n x Q) (hn : n ≤ m)
    (k : ∀ a S', S.Advances ds n S' → Q a S' → Succeeds (f a) S' fun b S'' =>
      S.Advances ds m S'' ∧ R b S'') : S.Settles ds m (x >>= f) R := by
  cases h with
  | value hrun hadv hQ =>
    obtain ⟨b, S'', hrun', hadv', hR⟩ := k _ _ hadv hQ
    exact .value ((run_bind_ok hrun).trans hrun') hadv' hR
  | missing hrun hadv hd hnone => exact .missing (by rw [run_bind, hrun]) (hadv.mono hn) hd hnone

theorem of_quiet (hS : S.Orderly ds) (h : Succeeds x S fun a S' => S.Quiet S' ∧ Q a S') :
    S.Settles ds n x fun a S' => S.Quiet S' ∧ Q a S' := by
  obtain ⟨a, S', hrun, hquiet, hQ⟩ := h
  exact .value hrun (hquiet.advances hS) ⟨hquiet, hQ⟩

/-- Where all datatypes are registered the run succeeds. -/
theorem succeeds (h : S.Settles ds n x Q) (hreg : ∀ d ∈ ds, S.encoding.source.hasDatatype d = true) :
    Succeeds x S fun a S' => S.Advances ds n S' ∧ Q a S' := by
  cases h with
  | value hrun hadv hQ => exact ⟨_, _, hrun, hadv, hQ⟩
  | missing _ _ hd hnone =>
    rw [hreg _ hd] at hnone
    cases hnone

end Settles
end EncodingState

namespace Encode

theorem succeeds_still {x : Build α} {Q : α → Store → Prop}
    (h : Succeeds x S.store fun a s' => S.store.Later s' ∧ Q a s') :
    Succeeds (liftM x : Encode α) S fun a S' => S.Still S' ∧ Q a S'.store :=
  (succeeds_liftM h).mono fun _ _ ⟨henc, hlater, hQ⟩ => ⟨⟨hlater, henc⟩, hQ⟩

theorem succeeds_quietly {x : Build α} {Q : α → Store → Prop}
    (h : Succeeds x S.store fun a s' => S.store.Later s' ∧ Q a s') :
    Succeeds (liftM x : Encode α) S fun a S' => S.Quiet S' ∧ Q a S'.store :=
  (succeeds_still h).mono fun _ _ h => ⟨h.1.quiet, h.2⟩

theorem succeeds_allocate (base : String) (type : String → Ty) (S : EncodingState) :
    Succeeds (allocate base type) S fun name S' => S.Quiet S' ∧ name ∉ S.encoding.used ∧
      name ∈ S'.encoding.used :=
  ⟨_, _, rfl, ⟨.refl _, rfl, rfl, rfl, ⟨_, .gave rfl⟩, rfl⟩, freshName_notMem _ _,
    List.mem_cons_self⟩

theorem succeeds_freshGiven (base : String) (S : EncodingState) :
    Succeeds (freshGiven base) S fun t S' => S.Quiet S' ∧ ∃ g, t = .given g ∧ g ∉ S.encoding.used ∧
      g ∈ S'.encoding.used := by
  unfold freshGiven
  refine (succeeds_allocate base _ S).bind fun name S' h => Succeeds.pure ⟨h.1, name, rfl, h.2⟩

theorem succeeds_freshIdentifier (base : String) {t : Ty} (ht : t.Plain) (S : EncodingState) :
    Succeeds (freshIdentifier base t) S fun e S' =>
      S.Quiet S' ∧ e.Names S'.encoding.target S'.store t := by
  unfold freshIdentifier
  refine (succeeds_allocate base _ S).bind fun name S₁ h₁ => ?_
  have h₁ := h₁.1
  refine Succeeds.bind_run (run_target S₁) ?_
  refine (succeeds_quietly (S₁.encoding.target.succeeds_free name ht S₁.store)).mono ?_
  exact fun e S₂ ⟨h₂, hnames⟩ => ⟨h₁.trans h₂, h₂.target ▸ hnames⟩

end Encode

namespace Instance

variable {i j : Instance}

theorem in_type_iff : j.In i.type ↔ j = i ∨ ∃ a ∈ i.args, j.In a := by
  obtain ⟨d, as⟩ := i
  constructor
  · intro h
    cases h with
    | self => exact .inl rfl
    | arg ha hj => exact .inr ⟨_, ha, hj⟩
  · rintro (rfl | ⟨a, ha, hj⟩)
    exacts [.self, .arg ha hj]

end Instance

namespace Ty

variable {look : Instance → Option Ty} {i j : Instance} {T t type : Ty}

/-- An instance in a type with an image is in one that stands for a type. -/
theorem exists_look_of_in (hT : T.Supported ds) (ht : image? look T = some t) (hj : j.In T) :
    ∃ k : Instance, k.type.Supported ds ∧ (∃ u, look k = some u) ∧ j.In k.type := by
  induction T using TypeTree.ind generalizing t with
  | leaf v => exact nomatch v
  | boolean => cases hj
  | given s => cases hj
  | power a ih =>
    cases hj with
    | power hj =>
      obtain ⟨u, hu, -⟩ := Option.map_eq_some_iff.1 ht
      exact ih hT hu hj
  | product a b iha ihb =>
    rw [TypeTree.supported_product] at hT
    obtain ⟨u, hu, hprod⟩ := Option.bind_eq_some_iff.1 ht
    obtain ⟨v, hv, -⟩ := Option.map_eq_some_iff.1 hprod
    cases hj with
    | left hj => exact iha hT.1 hu hj
    | right hj => exact ihb hT.2 hv hj
  | data d as _ => exact ⟨⟨d, as⟩, hT, ⟨t, ht⟩, hj⟩

/-- A type of lower rank than a supported instance does not depend on it. -/
theorem image?_along (hds : Datatype.Family ds) (hi : i.type.Supported ds) (hT : T.Supported ds)
    (hrank : T.rank < i.type.rank) : image? (i.along type look) T = image? look T := by
  refine image?_congr (fun j hj hjT => ?_) hT
  unfold Instance.along
  split_ifs with heq
  · rw [hds.instance_eq_of_beq hi hj heq] at hrank
    exact absurd hjT (Nat.not_le_of_lt hrank)
  · rfl

end Ty

namespace EncodingState

variable {i j : Instance} {r : Representation} {T t : Ty} {g : String}

/-- All instances in a type with an image are represented. -/
theorem Orderly.represented_of_in (h : S.Orderly ds) (hT : T.Supported ds)
    (ht : Ty.image? S.encoding.look T = some t) (hj : j.In T) :
    ∃ r ∈ S.encoding.representations, r.source = j := by
  obtain ⟨k, hk, ⟨u, hu⟩, hj⟩ := Ty.exists_look_of_in hT ht hj
  obtain ⟨r, hr, -⟩ := Option.map_eq_some_iff.1 hu
  obtain ⟨hmem, rfl⟩ := h.source_eq hk hr
  rcases Instance.in_type_iff.1 hj with rfl | ⟨a, ha, hj⟩
  · exact ⟨r, hmem, rfl⟩
  · exact h.layered.closed hmem hk (.arg ha hj)

/-- What a rendered instance uses is represented before it. -/
theorem Orderly.represented_of_uses (h : S.Orderly ds)
    (hr : r.Renders ds S.encoding.target S.store (r.source.along r.type S.encoding.look))
    (hsup : r.source.type.Supported ds) (hj : r.source.Uses j) (hne : j ≠ r.source) :
    ∃ r' ∈ S.encoding.representations, r'.source = j := by
  have harg : ∀ a ∈ r.source.args, j.In a → ∃ r' ∈ S.encoding.representations, r'.source = j := by
    intro a ha hj
    have hasup := (TypeTree.supported_data.1 hsup).2 a ha
    obtain ⟨p, -, hp⟩ := forall₂_exists_right hr.params ha
    rw [Ty.image?_along h.family hsup hasup (TypeTree.rank_arg_lt ha)] at hp
    exact h.represented_of_in hasup hp hj
  cases hj with
  | arg ha hj => exact harg _ ha hj
  | @argument c a T hc ha hT hj =>
    obtain ⟨image, -, himage⟩ := forall₂_exists_right hr.constructors hc
    obtain ⟨t, -, U, hU, hUsup, ht⟩ := forall₂_exists_right himage.arguments ha
    obtain rfl := Option.some_inj.1 (hT.symm.trans hU)
    obtain ⟨k, hk, ⟨u, hu⟩, hj⟩ := Ty.exists_look_of_in hUsup ht hj
    unfold Instance.along at hu
    split_ifs at hu with heq
    · obtain rfl := h.family.instance_eq_of_beq hsup hk heq
      rcases Instance.in_type_iff.1 hj with rfl | ⟨a, ha, hj⟩
      · exact absurd rfl hne
      · exact harg a ha hj
    · exact h.represented_of_in (T := k.type) hk hu hj

/-- The name was free in the first state; in the second one it is taken, but stands for no supported instance
yet. -/
structure Reserves (ds : List Datatype) (S S' : EncodingState) (g : String) : Prop where
  free : g ∉ S.encoding.used
  taken : g ∈ S'.encoding.used
  own : ∀ r ∈ S'.encoding.representations, r.source.type.Supported ds → r.type ≠ .given g

theorem Reserves.earlier {S₀ : EncodingState} (h : Reserves ds S S' g) (k : S₀.Later S) :
    Reserves ds S₀ S' g := ⟨fun hg => h.free (k.used hg), h.taken, h.own⟩

/-- A free name that is taken stays reserved as the state advances. -/
theorem Advances.reserves {S₁ S₂ : EncodingState} {n : Nat} (hadv : S₁.Advances ds n S₂) (h : S.Orderly ds)
    (hquiet : S.Quiet S₁) (hfree : g ∉ S.encoding.used) (htaken : g ∈ S₁.encoding.used) : S.Reserves ds S₂ g := by
  refine ⟨hfree, hadv.later.used htaken, fun r hr hsup heq => ?_⟩
  -- types that were there before have other names, and later ones avoid names that are taken
  rcases hadv.added r hr with hold | ⟨-, -, hname⟩
  · obtain ⟨g', hg', htaken', -⟩ := h.named r (hquiet.representations ▸ hold) hsup
    obtain rfl : g' = g := TypeTree.given.inj (hg'.symm.trans heq)
    exact hfree htaken'
  · exact hname g htaken heq

/-- A supported instance that has no representation yet gets one. -/
theorem Orderly.add (h : S.Orderly ds) (hnew : S.encoding.representation? r.source = none)
    (hr : r.Renders ds S.encoding.target S.store (r.source.along r.type S.encoding.look))
    (hsup : r.source.type.Supported ds)
    (hreg : S.encoding.source.hasDatatype r.source.datatype = true) (hg : r.type = .given g)
    (htaken : g ∈ S.encoding.used) (hfree : g ∉ Encoding.initialNames S.encoding.env)
    (hown : ∀ r' ∈ S.encoding.representations, r'.source.type.Supported ds → r'.type ≠ .given g) :
    (S.add r).Orderly ds := by
  have hold := Encoding.representation?_eq_none_iff.1 hnew
  have hold' : ∀ r' ∈ S.encoding.representations, (r.source.type == r'.source.type) = false := by
    intro r' hr'
    rw [← hold r' hr', Bool.eq_iff_iff, TypeTree.beq_iff_named, TypeTree.beq_iff_named, eq_comm]
  have hlook : ∀ i : Instance, i.type.Supported ds → ∀ t, S.encoding.look i = some t →
      (S.add r).encoding.look i = some t := by
    intro i hi t ht
    obtain ⟨r', hr', rfl⟩ := Option.map_eq_some_iff.1 ht
    obtain ⟨hmem, rfl⟩ := h.source_eq hi hr'
    change Encoding.look { S.encoding with representations := _ } _ = _
    rw [Encoding.look_add, Instance.along, hold' r' hmem]
    exact ht
  have hself : (r.source.type == r.source.type) = true := (TypeTree.beq_iff_named _ _).2 rfl
  have hlayered : Layered ds (S.encoding.representations ++ [r]) := .add h.layered fun _ =>
    ⟨hold, fun r' hr' hsup' => hg ▸ hown r' hr' hsup', fun j => h.represented_of_uses hr hsup⟩
  refine ⟨h.family, fun r' hr' i hi heq => ?_, fun r' hr' hsup' => ?_, fun r' hr' hsup' => ?_,
    fun r' hr' hsup' => ?_, hlayered, h.reserved, fun r' hr' hsup' => ?_⟩
  all_goals rcases List.mem_append.1 hr' with hr' | hr'
  any_goals obtain rfl := List.mem_singleton.1 hr'
  · exact h.unambiguous r' hr' i hi heq
  · exact h.family.instance_eq_of_beq hsup hi heq
  · change Encoding.representation? { S.encoding with representations := _ } _ = _
    rw [Encoding.representation?_add, hold' r' hr']
    exact h.found r' hr' hsup'
  · change Encoding.representation? { S.encoding with representations := _ } _ = _
    rw [Encoding.representation?_add, hself]
    rfl
  · exact (h.renders r' hr' hsup').mono hsup' (.refl _) hlook
  · change Representation.Renders ds _ _ (Encoding.look { S.encoding with representations := _ }) _
    rw [Encoding.look_add]
    exact hr
  · exact h.registered r' hr' hsup'
  · exact hreg
  · exact h.named r' hr' hsup'
  · exact ⟨g, hg, htaken, hfree⟩

end EncodingState

namespace Encode

open EncodingState

variable {i : Instance} {create : Encode Representation}

/-- A supported instance is represented, whether it was before or not, if its datatype is registered. -/
theorem settles_represented (hS : S.Orderly ds) (hi : i.type.Supported ds)
    (hcreate : S.Settles ds i.type.rank create fun r S' => r.source = i ∧
      r.Renders ds S'.encoding.target S'.store (i.along r.type S'.encoding.look) ∧
      ∃ g, r.type = .given g ∧ S.Reserves ds S' g) :
    S.Settles ds (i.type.rank + 1) (represented i create) fun r S' =>
      S'.encoding.representation? i = some r ∧ r.source = i := by
  unfold represented
  refine .bind_run (run_current S) ?_
  cases hr : S.encoding.representation? i with
  | some r => exact .pure hS ⟨hr, (hS.source_eq hi hr).2⟩
  | none =>
    dsimp only
    cases hreg : S.encoding.source.hasDatatype i.datatype with
    | false => exact .missing rfl (.refl hS) (TypeTree.supported_data.1 hi).1.1.mem hreg
    | true =>
      refine hcreate.bind_succeeds (Nat.le_succ _) fun r S' hadv ⟨hsource, hrenders, g, hg, hreserves⟩ => ?_
      subst hsource
      have hnew : S'.encoding.representation? r.source = none := by
        rw [Encoding.representation?_eq_none_iff] at hr ⊢
        intro r' hr'
        rcases hadv.added r' hr' with hold | ⟨hsup, hrank, -⟩
        · exact hr r' hold
        · rw [Bool.eq_false_iff]
          intro heq
          rw [hS.family.instance_eq_of_beq hsup hi heq] at hrank
          exact Nat.lt_irrefl _ hrank
      have hfree : g ∉ Encoding.initialNames S'.encoding.env := fun h =>
        hreserves.free (hS.reserved (hadv.later.env ▸ h))
      have horderly := hadv.orderly.add hnew hrenders hi (hadv.later.source ▸ hreg) hg hreserves.taken
        hfree hreserves.own
      refine Succeeds.bind_run (run_update _ S') (Succeeds.pure ?_)
      refine ⟨⟨hadv.later.trans (S'.later_add r), horderly, fun r' hr' => ?_⟩, ?_, rfl⟩
      · rcases List.mem_append.1 hr' with hr' | hr'
        · exact (hadv.added r' hr').imp_right fun h => ⟨h.1, Nat.lt_succ_of_lt h.2.1, h.2.2⟩
        · obtain rfl := List.mem_singleton.1 hr'
          refine .inr ⟨hi, Nat.lt_succ_self _, fun g' hg' heq => hreserves.free ?_⟩
          obtain rfl : g = g' := TypeTree.given.inj (hg.symm.trans heq)
          exact hg'
      · exact horderly.found r (List.mem_append_right _ (List.mem_singleton_self r)) hi

end Encode
end SetLang
