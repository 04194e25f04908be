import SetLang.Proofs.Encoding.Reached
import SetLang.Proofs.Encoding.Represent

/-! States of encodings are orderly. Whatever was asked for before, and whether it was answered or not, as
long as no represented instance can be mistaken for another one of the supported instances, every representation
renders its instance and came after what it uses. -/

namespace SetLang

variable {ds : List Datatype} {n : Nat} {S S' : EncodingState} {held : Set Formula} {α : Type}
  {i : Instance} {r : Representation}

namespace EncodingState

/-- The state is orderly unless some represented instance may be mistaken for another one. -/
def Faithful (ds : List Datatype) (S : EncodingState) : Prop :=
  Datatype.Family ds → S.encoding.Unambiguous ds → S.Orderly ds

/-- If a later state is orderly, then the state already is. -/
theorem Faithful.orderly (h : S.Faithful ds) (k : S.Later S') (hds : Datatype.Family ds)
    (hunamb : S'.encoding.Unambiguous ds) : S.Orderly ds :=
  h hds fun r hr => hunamb r (k.representations.subset hr)

theorem Faithful.add (h : S.Faithful ds) (hr : ¬ r.source.type.Supported ds) :
    (S.add r).Faithful ds := by
  intro hds hunamb
  have hS := h.orderly (S.later_add r) hds hunamb
  have hother : ∀ i : Instance, i.type.Supported ds → (r.source.type == i.type) = false := by
    intro i hi
    rw [Bool.eq_false_iff]
    intro heq
    rw [hunamb r (List.mem_append_right _ (List.mem_singleton_self r)) i hi heq] at hr
    exact hr hi
  have hlook : ∀ i : Instance, i.type.Supported ds → ∀ t, S.encoding.look i = some t →
      (S.add r).encoding.look i = some t := by
    intro i hi t ht
    change Encoding.look { S.encoding with representations := _ } _ = _
    rw [Encoding.look_add, Instance.along, hother i hi]
    exact ht
  have hold : ∀ r' ∈ (S.add r).encoding.representations, r'.source.type.Supported ds →
      r' ∈ S.encoding.representations := by
    intro r' hr' hsup
    rcases List.mem_append.1 hr' with hr' | hr'
    · exact hr'
    · obtain rfl := List.mem_singleton.1 hr'
      exact absurd hsup hr
  refine ⟨hds, hunamb, fun r' hr' hsup => ?_, fun r' hr' hsup => ?_, fun r' hr' hsup => ?_,
    .add hS.layered fun hsup => absurd hsup hr, hS.reserved, fun r' hr' hsup => ?_⟩
  · change Encoding.representation? { S.encoding with representations := _ } _ = _
    rw [Encoding.representation?_add, hother _ hsup]
    exact hS.found r' (hold r' hr' hsup) hsup
  · exact (hS.renders r' (hold r' hr' hsup) hsup).mono hsup (.refl _) hlook
  · exact hS.registered r' (hold r' hr' hsup) hsup
  · exact hS.named r' (hold r' hr' hsup) hsup

def coherence (ds : List Datatype) : Invariant EncodingState Formula where
  Fits S held := S.Sound held ∧ S.Faithful ds
  Later S S' := S.Later S' ∧ (S'.Orderly ds → S.Orderly ds)
  refl S := ⟨.refl S, id⟩
  trans h k := ⟨h.1.trans k.1, fun hS => h.2 (k.2 hS)⟩

def Means (ds : List Datatype) (S : EncodingState) (T t : Ty) : Prop :=
  T.Supported ds → S.Orderly ds → Ty.image? S.encoding.look T = some t

end EncodingState

namespace Encode

open EncodingState

theorem steady_coherence (ds : List Datatype) : Steady (coherence ds) where
  sound h := h.1
  quiet h k hs := ⟨hs, fun hds hunamb => k.orderly (h.2.orderly k.later hds hunamb)⟩
  later h k := ⟨k.later, fun hS => h.2.orderly k.later hS.family hS.unambiguous⟩

/-- What keeps sessions sound, and settles in orderly states, keeps states faithful. -/
theorem preserves_of_settles {x : Encode α} {K : α → EncodingState → Set Formula → Prop}
    {P : α → EncodingState → Prop} (h : Preserves soundness x S held K)
    (hsettles : S.Orderly ds → S.Settles ds n x P) :
    Preserves (coherence ds) x S held fun a S' held' => K a S' held' ∧ (S'.Orderly ds → P a S') := by
  intro hS
  obtain ⟨held', hsub, hlater, hsound, hK⟩ := h hS.1
  have hback : Datatype.Family ds → (x.run S).2.encoding.Unambiguous ds → S.Orderly ds :=
    hS.2.orderly hlater
  refine ⟨held', hsub, ⟨hlater, fun hS' => hback hS'.family hS'.unambiguous⟩,
    ⟨hsound, fun hds hunamb => (hsettles (hback hds hunamb)).advances.orderly⟩,
    fun a ha => ⟨hK a ha, fun hS' => ?_⟩⟩
  cases hsettles (hback hS'.family hS'.unambiguous) with
  | value hrun _ hP =>
    rw [hrun] at ha ⊢
    cases ha
    exact hP
  | missing hrun _ _ _ =>
    rw [hrun] at ha
    cases ha

theorem preserves_means {x : Encode Representation}
    {K : Representation → EncodingState → Set Formula → Prop} (h : Preserves soundness x S held K)
    (hsettles : S.Orderly ds → S.Settles ds (i.type.rank + 1) x fun rep S' =>
      S'.encoding.representation? i = some rep ∧ rep.source = i) :
    Preserves (coherence ds) x S held fun rep S' held' =>
      K rep S' held' ∧ Means ds S' i.type rep.type :=
  (preserves_of_settles h hsettles).mono fun rep _ _ _ _ h =>
    ⟨h.1, fun _ hS' => Option.map_eq_some_iff.2 ⟨rep, (h.2 hS').1, rfl⟩⟩

theorem loose_of_not_supported (hi : ¬ i.type.Supported ds) :
    Loose (coherence ds) (Means ds) i where
  stands _ _ h := absurd h hi
  add {S held r} h hr hsound := by
    subst hr
    have hfaithful := h.2.add hi
    exact ⟨⟨hsound, hfaithful⟩, S.later_add r, fun hS' =>
      h.2.orderly (S.later_add r) hS'.family hS'.unambiguous⟩

end Encode

open Encode EncodingState

namespace PartialRepresentation.Begun

variable {r : PartialRepresentation}

theorem not_supported (h : r.Begun (coherence ds) (Means ds) S) (hS : S.Orderly ds) :
    ¬ r.source.type.Supported ds := by
  intro hsup
  have hboth := (h.loose.stands S .boolean hsup hS).symm.trans
    (h.loose.stands S (.power .boolean) hsup hS)
  cases hboth

theorem ready (h : r.Begun (coherence ds) (Means ds) S) (hS : S.Orderly ds) : r.Ready ds S :=
  ⟨hS, h.type, h.params.length_eq.symm, fun _ _ _ ha hp hsup =>
    (forall₂_getElem? h.params ha hp).2 hsup hS⟩

theorem hasNestedSelf (h : r.Begun (coherence ds) (Means ds) S) (hS : S.Orderly ds) {a : ArgTy}
    {A : Ty} (hA : r.sourceType? a = some A) (hsup : A.Supported ds) :
    ArgTy.hasNestedSelf false a = false := by
  refine ArgTy.hasNestedSelf_eq_false.2 fun hself => h.not_supported hS ?_
  obtain ⟨-, rfl⟩ := TypeTree.subst?_eq_some_iff.1 hA
  exact TypeTree.supported_of_subst (v := ArgLeaf.self) hsup hself

theorem sound (h : r.Begun (coherence ds) (Means ds) S) :
    r.Begun soundness (fun _ _ _ => True) S :=
  ⟨loose_soundness _, h.type, h.params.imp fun _ _ hp => ⟨hp.1, trivial⟩⟩

end PartialRepresentation.Begun

namespace Encode

theorem imaging_coherence (ds : List Datatype) : Imaging (coherence ds) (Means ds) where
  toSteady := steady_coherence ds
  mono k h hT hS' := Ty.image?_mono (fun _ hj _ => (k.2 hS').look_later hS' k.1 hj) hT
    (h hT (k.2 hS'))
  boolean _ _ := rfl
  given _ _ := rfl
  power h hT hS := Ty.image?_power (h hT hS)
  product h k hT hS := by
    rw [TypeTree.supported_product] at hT
    exact Ty.image?_product (h hT.1 hS) (k hT.2 hS)
  within i := by
    by_cases hi : i.type.Supported ds
    -- the arguments of a supported instance do not contain the instance that is being represented
    · refine .inr fun as r S held hr hargs => ?_
      have hsup := (TypeTree.supported_data.1 hi).2
      have hsound : Preserves soundness
          (represented i do i.datatype.represent i.args (← argumentTypes as r)) S held
            fun rep S' held' => rep ∈ S'.encoding.representations ∧ Keeps rep held' :=
        steady_soundness.represented (loose_soundness i).add <|
          (preserves_argumentTypes imaging_soundness as r S held hr.sound i.args hargs).bind
            fun params _ _ _ _ hp => i.datatype.preserves_represent imaging_soundness i.args params
              _ _ (loose_soundness _) hp
      refine (preserves_means hsound fun hS => ?_).mono fun rep S' held' _ _ h => ⟨h.1.2, h.2⟩
      have hself : ∀ a ∈ as, ArgTy.hasNestedSelf false a = false := by
        intro a ha
        obtain ⟨A, hA, ha⟩ := forall₂_exists_right (mapM_eq_some_iff.1 hargs) ha
        exact hr.hasNestedSelf hS ha (hsup A hA)
      exact settles_representedWith hS hi (settles_argumentTypes as r S i.args i.type.rank
        (hr.ready hS) hargs hsup hself fun _ hA => TypeTree.rank_arg_lt hA)
    · exact .inl (loose_of_not_supported hi)
  outside i := by
    by_cases hi : i.type.Supported ds
    · exact .inr fun S held => preserves_means (imaging_soundness.kept.representation i S held)
        fun hS => settles_representation hS hi
    · exact .inl (loose_of_not_supported hi)

end Encode

namespace Registered

theorem provides {l : Language} (h : Registered l.extensions l.datatypes)
    (hds : ∀ d ∈ ds, d ∈ l.datatypes) : l.Provides ds :=
  ⟨⟨fun d hd => h.checked d (hds d hd), fun d hd e he => h.distinct d (hds d hd) e (hds e he)⟩, hds⟩

end Registered

namespace EncodingState

variable {source : Factory}

theorem Reached.assembled (h : Reached source S held) : source.Assembled := by
  induction h with
  | start hsource _ _ => exact hsource
  | step _ _ ih => exact ih

/-- Whatever an encoding was asked for, its state is faithful to every supply of datatypes. -/
theorem Reached.faithful (h : Reached source S held) (ds : List Datatype) : S.Faithful ds := by
  have hfits : (coherence ds).Fits S held := by
    induction h with
    | start hsource hs hrun =>
      refine ⟨(sound_start hsource hs.sound hrun).1, fun hds hunamb => ?_⟩
      cases hrun
      refine ⟨hds, hunamb, ?_, ?_, ?_, .nil, List.Subset.refl _, ?_⟩
      all_goals exact fun _ hr => (List.not_mem_nil hr).elim
    | step _ hstep ih => exact (hstep.preserves (Encode.imaging_coherence ds).kept ih).2
  exact hfits.2

/-- If no represented instance is mistaken for another one of some datatypes, then the state is orderly for
these. -/
theorem Reached.orderly (h : Reached source S held) (hds : Datatype.Family ds)
    (hunamb : S.encoding.Unambiguous ds) : S.Orderly ds := h.faithful ds hds hunamb

theorem Reached.coherent (h : Reached source S held) (hds : ∀ d ∈ ds, d ∈ source.datatypes)
    (hunamb : S.encoding.Unambiguous ds) : S.Coherent ds := by
  have hprov : S.encoding.source.Provides ds := h.sound.2.symm ▸ h.assembled.registered.provides hds
  exact ⟨h.orderly hprov.toFamily hunamb, hprov⟩

end EncodingState
end SetLang
