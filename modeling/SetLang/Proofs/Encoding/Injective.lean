import SetLang.Proofs.Encoding.Answers

/-! Stability of the encoding of types. In the course of a run every instance is represented once and every
type has one encoding. Types that have no given types but those of the environment are told apart by their
encodings, since a representation stands under a name that was new. -/

namespace SetLang

variable {T t : Ty}

inductive Ty.ImageOf (look : Instance → Option Ty) : Ty → Ty → Prop
  | boolean : ImageOf look .boolean .boolean
  | given (s : String) : ImageOf look (.given s) (.given s)
  | power {T t : Ty} : ImageOf look T t → ImageOf look (.power T) (.power t)
  | product {T U t u : Ty} : ImageOf look T t → ImageOf look U u →
    ImageOf look (.product T U) (.product t u)
  | data {d : Datatype} {as : List Ty} {t : Ty} : look ⟨d, as⟩ = some t → ImageOf look (.data d as) t

theorem Ty.imageOf_of_image? {look : Instance → Option Ty} (h : image? look T = some t) :
    ImageOf look T t := by
  induction T using TypeTree.ind generalizing t with
  | leaf v => exact nomatch v
  | boolean =>
    cases h
    exact .boolean
  | given s =>
    cases h
    exact .given s
  | power a ih =>
    obtain ⟨u, hu, rfl⟩ := Option.map_eq_some_iff.1 h
    exact .power (ih hu)
  | product a b iha ihb =>
    obtain ⟨u, hu, hprod⟩ := Option.bind_eq_some_iff.1 h
    obtain ⟨v, hv, rfl⟩ := Option.map_eq_some_iff.1 hprod
    exact .product (iha hu) (ihb hv)
  | data d as _ => exact .data h

namespace EncodingState

variable {ds : List Datatype} {source : Factory} {S S' : EncodingState} {held held' : Set Formula}
  {α : Type} {U u : Ty} {i : Instance} {r r' : Representation}

/-- In the run that led to the state, the encoding has given this value for a call. -/
inductive Gave (source : Factory) (x : Encode α) (a : α) : EncodingState → Set Formula → Prop
  | now {S S' : EncodingState} {held held' : Set Formula} : Reached source S held →
    x.run S = (.ok a, S') → Step S held S' held' → Gave source x a S' held'
  | before {S S' : EncodingState} {held held' : Set Formula} : Gave source x a S held →
    Step S held S' held' → Gave source x a S' held'

theorem Gave.reached {x : Encode α} {a : α} (h : Gave source x a S held) : Reached source S held := by
  induction h with
  | now hreached _ hstep => exact hreached.step hstep
  | before _ hstep ih => exact ih.step hstep

theorem Step.later (h : Step S held S' held') (hreached : Reached source S held) : S.Later S' :=
  (h.preserves Encode.imaging_soundness.kept hreached.sound.1).1

theorem Reached.orderly_before (h : Reached source S held) (hstep : Step S held S' held')
    (hds : Datatype.Family ds) (hunamb : S'.encoding.Unambiguous ds) : S.Orderly ds :=
  (h.faithful ds).orderly (hstep.later h) hds hunamb

/-- What was given as the encoding of a type is its image from then on. -/
theorem Gave.image? (h : Gave source (Encode.type T) t S held) (hds : Datatype.Family ds)
    (hunamb : S.encoding.Unambiguous ds) (hT : T.Supported ds) :
    Ty.image? S.encoding.look T = some t := by
  induction h with
  | @now S S' held held' hreached hrun hstep =>
    have hsettles := Encode.settles_type T S _ (hreached.orderly_before hstep hds hunamb) hT
      (Nat.lt_succ_self _)
    cases hsettles with
    | value hrun' _ ht =>
      cases hrun.symm.trans hrun'
      exact ht
    | missing hrun' _ _ _ => cases hrun.symm.trans hrun'
  | @before S S' held held' hgave hstep ih =>
    have horderly := hgave.reached.orderly_before hstep hds hunamb
    refine Ty.image?_mono (fun _ hj _ => horderly.look_later (hgave.reached.step hstep |>.orderly hds hunamb)
      (hstep.later hgave.reached) hj) hT (ih horderly.unambiguous)

theorem Gave.representation? (h : Gave source (Encode.representation i) r S held)
    (hds : Datatype.Family ds) (hunamb : S.encoding.Unambiguous ds) (hi : i.type.Supported ds) :
    S.encoding.representation? i = some r := by
  induction h with
  | @now S S' held held' hreached hrun hstep =>
    cases Encode.settles_representation (hreached.orderly_before hstep hds hunamb) hi with
    | value hrun' _ hr =>
      cases hrun.symm.trans hrun'
      exact hr.1
    | missing hrun' _ _ _ => cases hrun.symm.trans hrun'
  | @before S S' held held' hgave hstep ih =>
    have horderly := hgave.reached.orderly_before hstep hds hunamb
    obtain ⟨hmem, rfl⟩ := horderly.source_eq hi (ih horderly.unambiguous)
    exact (hgave.reached.step hstep |>.orderly hds hunamb).found r
      ((hstep.later hgave.reached).representations.subset hmem) hi

theorem Gave.representation_unique (h : Gave source (Encode.representation i) r S held)
    (k : Gave source (Encode.representation i) r' S held) (hds : Datatype.Family ds)
    (hunamb : S.encoding.Unambiguous ds) (hi : i.type.Supported ds) : r = r' :=
  Option.some_inj.1 ((h.representation? hds hunamb hi).symm.trans (k.representation? hds hunamb hi))

theorem Gave.type_unique (h : Gave source (Encode.type T) t S held) (k : Gave source (Encode.type T) u S held)
    (hds : Datatype.Family ds) (hunamb : S.encoding.Unambiguous ds) (hT : T.Supported ds) : t = u :=
  Option.some_inj.1 ((h.image? hds hunamb hT).symm.trans (k.image? hds hunamb hT))

theorem Orderly.eq_of_beq (h : S.Orderly ds) {j k : Nat} (hj : S.encoding.representations[j]? = some r)
    (hk : S.encoding.representations[k]? = some r') (hr : r.source.type.Supported ds)
    (hr' : r'.source.type.Supported ds) (heq : (r.source.type == r'.source.type) = true) : j = k := by
  by_contra hne
  rw [(h.layered.apart hj hk hr hr' hne).1] at heq
  cases heq

/-- A supported instance stands under a name that is not one of the environment. -/
theorem Orderly.named_of_look (h : S.Orderly ds) {d : Datatype} {as : List Ty}
    (hi : (.data d as : Ty).Supported ds) (ht : S.encoding.look ⟨d, as⟩ = some t) :
    ∃ r ∈ S.encoding.representations, r.source = ⟨d, as⟩ ∧ r.type = t ∧
      ∃ g, t = .given g ∧ g ∉ Encoding.initialNames S.encoding.env := by
  obtain ⟨r, hr, rfl⟩ := Option.map_eq_some_iff.1 ht
  obtain ⟨hmem, hsource⟩ := h.source_eq (i := ⟨d, as⟩) hi hr
  obtain ⟨g, hg, -, hfree⟩ := h.named r hmem (hsource ▸ hi)
  exact ⟨r, hmem, hsource, rfl, g, hg, hfree⟩

theorem Orderly.image?_injective (h : S.Orderly ds) (hT : T.Supported ds) (hU : U.Supported ds)
    (ht : Ty.image? S.encoding.look T = some t) (hu : Ty.image? S.encoding.look U = some t)
    (hTs : T.givens ⊆ Encoding.initialNames S.encoding.env)
    (hUs : U.givens ⊆ Encoding.initialNames S.encoding.env) : T = U := by
  replace ht := Ty.imageOf_of_image? ht
  replace hu := Ty.imageOf_of_image? hu
  -- a datatype stands under a name that no given type of the environment has, so the kinds of types do not mix
  induction ht generalizing U with
  | boolean =>
    cases hu with
    | boolean => rfl
    | data hlook =>
      obtain ⟨-, -, -, -, g, hg, -⟩ := h.named_of_look hU hlook
      cases hg
  | given s =>
    cases hu with
    | given => rfl
    | data hlook =>
      obtain ⟨-, -, -, -, g, hg, hfree⟩ := h.named_of_look hU hlook
      cases hg
      exact absurd (hTs (List.mem_singleton_self s)) hfree
  | power _ ih =>
    cases hu with
    | @power U _ hu => rw [ih (U := U) hT hU hTs hUs hu]
    | data hlook =>
      obtain ⟨-, -, -, -, g, hg, -⟩ := h.named_of_look hU hlook
      cases hg
  | product _ _ iha ihb =>
    cases hu with
    | product hu hv =>
      rw [TypeTree.supported_product] at hT hU
      rw [TypeTree.givens, List.append_subset] at hTs hUs
      rw [iha hT.1 hU.1 hTs.1 hUs.1 hu, ihb hT.2 hU.2 hTs.2 hUs.2 hv]
    | data hlook =>
      obtain ⟨-, -, -, -, g, hg, -⟩ := h.named_of_look hU hlook
      cases hg
  | data hlook =>
    obtain ⟨r, hr, hsource, htype, g, rfl, hfree⟩ := h.named_of_look hT hlook
    cases hu with
    | given => exact absurd (hUs (List.mem_singleton_self g)) hfree
    | data hlook' =>
      obtain ⟨r', hr', hsource', htype', -⟩ := h.named_of_look hU hlook'
      obtain rfl := h.layered.eq_of_type_eq hr hr' (hsource ▸ hT) (hsource' ▸ hU)
        (htype.trans htype'.symm)
      cases hsource.symm.trans hsource'
      rfl

theorem Gave.type_injective (h : Gave source (Encode.type T) t S held) (k : Gave source (Encode.type U) t S held)
    (hds : Datatype.Family ds) (hunamb : S.encoding.Unambiguous ds) (hT : T.Supported ds) (hU : U.Supported ds)
    (hTs : T.givens ⊆ Encoding.initialNames S.encoding.env)
    (hUs : U.givens ⊆ Encoding.initialNames S.encoding.env) : T = U :=
  (h.reached.orderly hds hunamb).image?_injective hT hU (h.image? hds hunamb hT) (k.image? hds hunamb hU) hTs hUs

/-- In every run over datatypes that are not mistaken for others, a supported instance is represented once and
by the same representation whenever it is asked for; a supported type always has the same encoding; and two such
types with one encoding are the same, if they have no given types but those of the environment. -/
theorem Reached.encodes_injectively (h : Reached source S held) (hds : Datatype.Family ds)
    (hunamb : S.encoding.Unambiguous ds) :
    (∀ (j k : Nat) (r r' : Representation), S.encoding.representations[j]? = some r →
      S.encoding.representations[k]? = some r' → r.source.type.Supported ds →
      r'.source.type.Supported ds → (r.source.type == r'.source.type) = true → j = k) ∧
    (∀ (i : Instance) (r r' : Representation), i.type.Supported ds →
      Gave source (Encode.representation i) r S held → Gave source (Encode.representation i) r' S held →
      r = r') ∧
    ∀ T U t u : Ty, T.Supported ds → U.Supported ds → Gave source (Encode.type T) t S held →
      Gave source (Encode.type U) u S held → (T = U → t = u) ∧
      (T.givens ⊆ Encoding.initialNames S.encoding.env →
        U.givens ⊆ Encoding.initialNames S.encoding.env → t = u → T = U) := by
  refine ⟨fun j k r r' hj hk hr hr' heq => (h.orderly hds hunamb).eq_of_beq hj hk hr hr' heq,
    fun i r r' hi hr hr' => hr.representation_unique hr' hds hunamb hi, fun T U t u hT hU ht hu => ⟨?_, ?_⟩⟩
  · rintro rfl
    exact ht.type_unique hu hds hunamb hT
  · rintro hTs hUs rfl
    exact ht.type_injective hu hds hunamb hT hU hTs hUs

end EncodingState

namespace FiniteList

open EncodingState
open Datatype (finiteList)

def declared : Environment := Environment.empty.insertGiven "S"

def askedAgain : EncodingState :=
  asked (asked (asked (start .empty declared) (lists (lists (.given "S")))) (lists (.given "S")))
    (lists (lists (.given "S")))

/-- Two instances are represented, the second answer for the lists of lists is the first one, and the answer for
the lists is another one. -/
theorem encodes_lists_injectively : ∃ held t u t', Reached source askedAgain held ∧ Datatype.Family [finiteList] ∧
    askedAgain.encoding.Unambiguous [finiteList] ∧ askedAgain.encoding.representations.length = 2 ∧
    Gave source (Encode.type (lists (lists (.given "S")))) t askedAgain held ∧
    Gave source (Encode.type (lists (.given "S"))) u askedAgain held ∧
    Gave source (Encode.type (lists (lists (.given "S")))) t' askedAgain held ∧ t = t' ∧ t ≠ u := by
  have hlists : (lists (.given "S")).Supported [finiteList] := supported nofun
  have hstart := reached_start declared .empty
  obtain ⟨t, held₁, hrun₁, -, hstep₁, -, hsup₁⟩ := step_ask hstart (supported hlists) nofun
  have h₁ := hstart.step hstep₁
  obtain ⟨u, held₂, hrun₂, -, hstep₂, -, hsup₂⟩ := step_ask h₁ hlists hsup₁
  have h₂ := h₁.step hstep₂
  obtain ⟨t', held₃, hrun₃, -, hstep₃, -, hsup₃⟩ := step_ask h₂ (supported hlists) hsup₂
  have hsup : ∀ r ∈ askedAgain.encoding.representations, r.source.type.Supported [finiteList] := by
    unfold askedAgain
    exact hsup₃
  have hunamb := Encoding.unambiguous_of_supported family hsup
  have ht : Gave source (Encode.type (lists (lists (.given "S")))) t askedAgain held₃ :=
    ((Gave.now hstart hrun₁ hstep₁).before hstep₂).before hstep₃
  have hu : Gave source (Encode.type (lists (.given "S"))) u askedAgain held₃ :=
    (Gave.now h₁ hrun₂ hstep₂).before hstep₃
  have ht' : Gave source (Encode.type (lists (lists (.given "S")))) t' askedAgain held₃ := .now h₂ hrun₃ hstep₃
  have h₃ : Reached source askedAgain held₃ := h₂.step hstep₃
  obtain ⟨-, -, hanswers⟩ := h₃.encodes_injectively family hunamb
  refine ⟨held₃, t, u, t', h₃, family, hunamb, by decide +kernel, ht, hu, ht', ?_, fun heq => ?_⟩
  · exact (hanswers _ _ t t' (supported hlists) (supported hlists) ht ht').1 rfl
  · have hnames : "S" ∈ Encoding.initialNames askedAgain.encoding.env := by decide +kernel
    have hgivens : ["S"] ⊆ Encoding.initialNames askedAgain.encoding.env :=
      List.cons_subset.2 ⟨hnames, List.nil_subset _⟩
    have hne : lists (lists (.given "S")) ≠ lists (.given "S") := by simp [lists]
    exact hne ((hanswers _ _ t u (supported hlists) hlists ht hu).2 hgivens hgivens heq)

end FiniteList
end SetLang
