import SetLang.Proofs.Encoding.Nodes
import SetLang.Proofs.Encoding.Occurrence

/-! Encoding of the applications of a datatype's extensions. An application of a constructor or destructor
becomes an application of its function, and a type constructor an image or the type itself. Either way the
type is that of the representation. -/

namespace SetLang

variable {ds : List Datatype} {s : Store} {f : Factory} {S S' : EncodingState} {T t : Ty}
  {d : Datatype} {args Es : List Ty} {r : Representation} {e : Expr} {es es' : List Expr}
  {ext : Extension}

open Formula Encode

def EncodingState.HasImage (S : EncodingState) (T : Ty) (e : Expr) : Prop :=
  ∃ t, Ty.image? S.encoding.look T = some t ∧ e.Has S.encoding.target S.store t

theorem EncodingState.HasImage.has (h : S.HasImage T e) (ht : Ty.image? S.encoding.look T = some t) :
    e.Has S.encoding.target S.store t := by
  obtain ⟨u, hu, he⟩ := h
  obtain rfl := Option.some_inj.1 (hu.symm.trans ht)
  exact he

theorem Formula.Became.hasImage {e' : Expr} (h : (Formula.expr e).Became ds s S (.expr e'))
    (hT : e.type? s = some T) : T.Supported ds ∧ S.HasImage T e' := by
  obtain ⟨U, t, hU, hsup, ht, ht'⟩ := h.type _ rfl
  obtain rfl := Option.some_inj.1 (hT.symm.trans hU)
  exact ⟨hsup, t, ht, h.clean, ht'⟩

theorem exists_operand_types (h : List.Forall₂ (fun e e' => (Formula.expr e).Became ds s S (.expr e'))
    es es') : ∃ Es : List Ty, List.Forall₂ (fun e E => e.type? s = some E) es Es ∧
      ∀ E ∈ Es, E.Supported ds := by
  induction h with
  | nil => exact ⟨[], .nil, fun _ h => (by cases h)⟩
  | cons he _ ih =>
    obtain ⟨T, -, hT, hsup, -⟩ := he.type _ rfl
    obtain ⟨Es, htypes, hsups⟩ := ih
    exact ⟨T :: Es, .cons hT htypes, List.forall_mem_cons.2 ⟨hsup, hsups⟩⟩

theorem hasImage_of_became
    (h : List.Forall₂ (fun e e' => (Formula.expr e).Became ds s S (.expr e')) es es')
    (hEs : List.Forall₂ (fun e E => e.type? s = some E) es Es) : List.Forall₂ S.HasImage Es es' :=
  forall₂_join hEs h fun _ _ _ _ hT he => (he.hasImage hT).2

namespace Representation.Renders

variable (hr : r.Renders ds S.encoding.target S.store S.encoding.look)
include hr

theorem has_typeExpr : r.typeExpr.Has S.encoding.target S.store (.power r.type) := by
  refine hr.typeExpr.has ?_
  obtain ⟨g, hg⟩ := hr.type
  rw [hg]
  rfl

/-- A type constructor that is applied to encoded sets becomes the image of these, or the type. -/
theorem succeeds_typeConstructor (hS : S.Coherent ds) (hrole : ext.role? = some (d, .typeConstructor))
    (hsup : ∀ a ∈ r.source.args, a.Supported ds)
    (hes : List.Forall₂ S.HasImage (r.source.args.map .power) es') :
    Succeeds (r.replace e ext es') S fun e' S' => S.Still S' ∧
      e'.Has S.encoding.target S'.store (.power r.type) ∧
        ((∀ x ∈ es', .expr x ∈ (Formula.expr e').nodes) ∨ e' = r.typeExpr) := by
  have htype := hr.has_typeExpr
  have hplain : r.type.Plain := htype.plain
  unfold Representation.replace
  refine Succeeds.bind_run (run_target S) ?_
  rw [hrole]
  dsimp only
  cases hset : r.setConstructor with
  | none => exact Succeeds.pure ⟨.refl S, htype, .inr rfl⟩
  | some set =>
    refine Succeeds.bind_run (run_store S) ?_
    split_ifs
    · exact Succeeds.pure ⟨.refl S, htype, .inr rfl⟩
    · have hargs : r.source.args ≠ [] := by
        intro hnil
        have hhas := hr.hasSets
        simp [hset, hnil] at hhas
      have hne : r.params ≠ [] := by
        intro hnil
        have hlen := hr.params.length_eq
        rw [hnil, List.length_nil, List.length_eq_zero_iff] at hlen
        exact hargs hlen
      have hparams : ∀ p ∈ r.params, p.Plain := by
        intro p hp
        obtain ⟨a, ha, hap⟩ := forall₂_exists_right hr.params.flip hp
        exact hS.plain (hsup a ha) hap
      have hsets : List.Forall₂ (fun e u => e.Has S.encoding.target S.store (.power u)) es' r.params := by
        rw [List.forall₂_map_left_iff] at hes
        exact forall₂_join hes hr.params fun _ _ _ _ he' hp => he'.has (Ty.image?_power hp)
      have hfunction := (hr.setConstructor set hset).has (plain_constructorType hparams hplain)
      refine (succeeds_still (Factory.succeeds_image S.store hfunction hplain hne hsets)).mono
        fun e' S' h => ⟨h.1, h.2.1, .inl fun x hx => h.2.2 x (List.mem_cons_of_mem _ hx)⟩

theorem exists_image {i : Nat} {c : Constructor}
    (hc : r.source.datatype.constructors[i]? = some c) : ∃ image, r.constructors[i]? = some image ∧
      image.Renders ds S.encoding.target S.store S.encoding.look r.source r.type c := by
  obtain ⟨hi, rfl⟩ := List.getElem?_eq_some_iff.1 hc
  have hi' := hr.constructors.length_eq ▸ hi
  exact ⟨_, List.getElem?_eq_getElem hi', hr.constructors.get hi hi'⟩

theorem succeeds_constructor (hS : S.Coherent ds) {i : Nat} {c : Constructor}
    (hrole : ext.role? = some (d, .constructor i))
    (hc : r.source.datatype.constructors[i]? = some c)
    (hEs : List.Forall₂ (fun (a : Argument) E =>
      ArgTy.instantiate? a.type r.source.args r.source.type = some E) c.arguments Es)
    (hes : List.Forall₂ S.HasImage Es es') :
    Succeeds (r.replace e ext es') S fun e' S' => S.Quiet S' ∧
      e'.Has S.encoding.target S'.store r.type ∧ ∀ x ∈ es', .expr x ∈ (Formula.expr e').nodes := by
  obtain ⟨image, himage, hrenders⟩ := hr.exists_image hc
  have hplain : r.type.Plain := hr.has_typeExpr.plain
  have hargs : ∀ t ∈ image.argTypes, t.Plain := by
    intro t ht
    obtain ⟨a, -, T, -, hsup, hT⟩ := forall₂_exists_right hrenders.arguments.flip ht
    exact hS.plain hsup hT
  have htypes : List.Forall₂ (fun E t => Ty.image? S.encoding.look E = some t) Es image.argTypes :=
    forall₂_join hEs hrenders.arguments fun a _ E t hE ht => by
      obtain ⟨T, hT, -, ht⟩ := ht
      obtain rfl := Option.some_inj.1 (hE.symm.trans hT)
      exact ht
  have hvalues : List.Forall₂ (fun e t => e.Has S.encoding.target S.store t) es' image.argTypes :=
    forall₂_join hes htypes fun _ _ _ _ he' ht => he'.has ht
  unfold Representation.replace
  refine Succeeds.bind_run (run_target S) ?_
  rw [hrole]
  dsimp only
  rw [himage]
  have hfunction := hrenders.function.has (plain_constructorType hargs hplain)
  exact (succeeds_quietly (Factory.succeeds_apply S.store hfunction hplain hvalues)).mono
    fun e' S' h => ⟨h.1, h.2.1, fun x hx => h.2.2 x (List.mem_cons_of_mem _ hx)⟩

/-- A destructor that is applied to an encoded value becomes its function. -/
theorem succeeds_destructor (hS : S.Coherent ds) {i j : Nat} {c : Constructor} {a : Argument}
    (hrole : ext.role? = some (d, .destructor i j))
    (hc : r.source.datatype.constructors[i]? = some c) (ha : c.arguments[j]? = some a)
    (hT : ArgTy.instantiate? a.type r.source.args r.source.type = some T)
    {e' : Expr} (he' : e'.Has S.encoding.target S.store r.type) :
    Succeeds (r.replace e ext [e']) S fun e'' S' => S.Quiet S' ∧ (∃ t,
      Ty.image? S.encoding.look T = some t ∧ e''.Has S.encoding.target S'.store t) ∧
        .expr e' ∈ (Formula.expr e'').nodes := by
  obtain ⟨image, himage, hrenders⟩ := hr.exists_image hc
  obtain ⟨hj, rfl⟩ := List.getElem?_eq_some_iff.1 ha
  have hj' := hrenders.arguments.length_eq ▸ hj
  obtain ⟨U, hU, hsup, ht⟩ := hrenders.arguments.get hj hj'
  obtain rfl := Option.some_inj.1 (hT.symm.trans hU)
  have hj'' := hrenders.destructors.length_eq.symm ▸ hj'
  have hnames := hrenders.destructors.get hj'' hj'
  have hplain := hS.plain hsup ht
  have hrelation : (constructorType [r.type] (image.argTypes.get ⟨j, hj'⟩)).Plain :=
    plain_constructorType (List.forall_mem_singleton.2 he'.plain) hplain
  unfold Representation.replace
  refine Succeeds.bind_run (run_target S) ?_
  rw [hrole]
  dsimp only
  rw [himage, Option.bind_some, List.getElem?_eq_getElem hj'']
  exact (succeeds_quietly (Factory.succeeds_apply S.store (Expr.Names.has hnames hrelation) hplain
    (.cons he' .nil))).mono fun e'' S' h => ⟨h.1, ⟨_, ht, h.2.1⟩, h.2.2 e' (by simp)⟩

end Representation.Renders

namespace Encode

variable {n : Node} {ps' : List Pred} {given o : Option Ty} {role : DatatypeRole} {i : Instance}

/-- An application of an extension is replaced by what the representation of its instance makes of it. -/
theorem succeeds_instance (hS : S.Underway ds s f) (hT : s.type? n.slot = some T)
    (hsup : T.Supported ds)
    (hes : List.Forall₂ (fun e e' => (Formula.expr e).Traced ds s S (.expr e')) es es')
    (hrole : ext.role? = some (d, role)) (hi : i.type.Supported ds)
    (hinst : instanceOf? S.store role (.extended n ext es [] given) es = some i)
    (hreplace : ∀ r S₁, S.Continues ds S₁ → S₁.encoding.representation? i = some r → r.source = i →
      r.Renders ds S₁.encoding.target S₁.store S₁.encoding.look →
        Succeeds (r.replace (.extended n ext es [] given) ext es') S₁ fun e' S' => S₁.Quiet S' ∧ ∃ t,
          Ty.image? S₁.encoding.look T = some t ∧ e'.Has S₁.encoding.target S'.store t ∧
            ((∀ x ∈ es', .expr x ∈ (Formula.expr e').nodes) ∨
              ext.isTypeConstructor ∧ e' = r.typeExpr)) :
    Succeeds (extended f (.extended n ext es [] given) ext es' ps' o) S fun e' S' =>
      S.Continues ds S' ∧ (Formula.expr (.extended n ext es [] given)).Traced ds s S' (.expr e') := by
  unfold extended
  rw [hrole]
  dsimp only
  refine Succeeds.bind_run (run_store S) ?_
  rw [hinst]
  refine (succeeds_representation hS.coherent hi).bind fun r S₁ h₁ => ?_
  obtain ⟨hadv, hr, hsource⟩ := h₁
  have hmem := (Encoding.mem_of_representation? hr).1
  have hcontinues₁ := hadv.continues hS.coherent
  have hrenders := hadv.orderly.renders r hmem (hsource ▸ hi)
  refine ((hreplace r S₁ hcontinues₁ hr hsource hrenders).and_yields (r.yields_replace _ ext es' S₁)).mono
    fun e' S₂ h₂ => ?_
  obtain ⟨⟨hquiet, t, ht, hhas, hnodes⟩, happlied⟩ := h₂
  have hcontinues := hcontinues₁.trans (hquiet.continues hcontinues₁.coherent)
  have ht₂ : Ty.image? S₂.encoding.look T = some t := hquiet.look ▸ ht
  have hmem₂ : r ∈ S₂.encoding.representations := hquiet.representations ▸ hmem
  refine ⟨hcontinues, .replaced ⟨fun x hx => ?_, hquiet.target ▸ hhas.clean, fun S' k => ?_⟩ hes
    (fun _ _ he => he.mono hS.coherent hcontinues) hmem₂ happlied⟩
  · cases hx
    exact ⟨T, t, hT, hsup, ht₂, hhas.type⟩
  · have hgs : List.Forall₂ (Encodes s S') (es.map .expr) (es'.map .expr) := by
      rw [List.forall₂_map_left_iff, List.forall₂_map_right_iff]
      exact hes.imp fun _ _ he => he.became.encodes S' (hcontinues.trans k)
    refine .replaced (.of_image (isTyped_mono hhas.clean.self.typed k.later.store)
      fun x hx => ?_) hgs ?_
    · cases hx
      exact ⟨T, t, hT, k.image? hcontinues.coherent hsup ht₂, k.later.store.type? _ t hhas.type⟩
    · refine hnodes.imp (fun h => List.forall_mem_map.2 h) fun h => ⟨h.1, r, ?_, h.2⟩
      exact k.later.representations.subset hmem₂

theorem holds_role {ps : List Pred} (htyping : ext.typing = .ofDatatype d role)
    (hrule : (Expr.extended n ext es ps given).scheme.Holds (es.map s.typing.ofExpr)
      (some (s.typing.slot n.slot)))
    (hT : s.type? n.slot = some T) (hEs : List.Forall₂ (fun e E => e.type? s = some E) es Es) :
    (d.scheme role).Holds (Es.map TypeTree.named) (some T.named) := by
  have hnamed : es.map s.typing.ofExpr = Es.map TypeTree.named :=
    List.forall₂_eq_eq_eq ▸ (List.forall₂_map_left_iff.2 (List.forall₂_map_right_iff.2
      (hEs.imp fun _ _ h => Store.typing_slot h)))
  have hscheme : ext.scheme = d.scheme role := by rw [Extension.scheme, htyping]
  rwa [Expr.scheme, hscheme, hnamed, Store.typing_slot hT] at hrule

theorem succeeds_extended {ps : List Pred} (hS : S.Underway ds s f)
    (he : (Formula.expr (.extended n ext es ps given)).Source ds s)
    (hes : List.Forall₂ (fun e e' => (Formula.expr e).Traced ds s S (.expr e')) es es') :
    Succeeds (extended f (.extended n ext es ps given) ext es' ps' o) S fun e' S' =>
      S.Continues ds S' ∧ (Formula.expr (.extended n ext es ps given)).Traced ds s S' (.expr e') := by
  obtain ⟨d, hd, hext⟩ := he.extension ext rfl
  obtain ⟨role, htyping⟩ := Datatype.typing_of_mem_extensions hext
  have hrole : ext.role? = some (d, role) := by rw [Extension.role?, htyping]
  obtain rfl : ps = [] := by
    have hformed : ext.arity.predicates.admits ps.length := he.formed.2.2
    rw [(Datatype.kind_of_mem_extensions hext).2] at hformed
    simpa [ChildCount.admits] using hformed
  obtain ⟨T, hT⟩ : ∃ T, s.type? n.slot = some T := exists_type? he.typed rfl
  have hsup := he.supported T hT
  have hbecame := hes.imp fun _ _ he => he.became
  obtain ⟨Es, hEs, hsups⟩ := exists_operand_types hbecame
  have hlen : es.length = Es.length := hEs.length_eq
  have hserves := Datatype.serves_of_mem_extensions hext htyping he.fits.2.2
  have hholds := holds_role htyping he.obeys.1 hT hEs
  have himages : ∀ S₁, S.Continues ds S₁ → List.Forall₂ S₁.HasImage Es es' := fun S₁ k =>
    hasImage_of_became (hbecame.imp fun _ _ he => he.mono hS.coherent k) hEs
  have hlook : ∀ (r : Representation) (S₁ : EncodingState) (i : Instance),
      S₁.encoding.representation? i = some r → Ty.image? S₁.encoding.look i.type = some r.type :=
    fun r S₁ i hr => Option.map_eq_some_iff.2 ⟨r, hr, rfl⟩
  have hfamily := hS.coherent.family
  have hnode := hS.store.type? _ T hT
  -- the rule of the role, read for these types, tells which instance the application belongs to
  cases role with
  | typeConstructor =>
    obtain ⟨args, rfl, rfl⟩ := hfamily.of_typeConstructor hd hsup hsups (hlen ▸ hserves) hholds
    have hinst : instanceOf? S.store .typeConstructor (.extended n ext es [] given) es =
        some ⟨d, args⟩ := congrArg (·.bind fun t => (Ty.base? t).bind Ty.instance?) hnode
    refine succeeds_instance (i := ⟨d, args⟩) hS hT hsup hes hrole hsup hinst
      fun r S₁ k hr hsource hrenders => ?_
    have hargs : ∀ a ∈ r.source.args, a.Supported ds := hsource ▸ (TypeTree.supported_data.1 hsup).2
    have hsets : List.Forall₂ S₁.HasImage (r.source.args.map .power) es' := hsource ▸ himages S₁ k
    have hconstructor : ext.isTypeConstructor := by rw [Extension.isTypeConstructor, hrole]
    exact (hrenders.succeeds_typeConstructor k.coherent hrole hargs hsets).mono fun e' S₂ h =>
      ⟨h.1.quiet, .power r.type, Ty.image?_power (hlook r S₁ _ hr), h.2.1, h.2.2.imp id fun h => ⟨hconstructor, h⟩⟩
  | constructor i =>
    obtain ⟨c, hc, hcount⟩ := hserves
    obtain ⟨args, rfl, hargs⟩ := hfamily.of_constructor hd hsup hsups hc (hlen ▸ hcount) hholds
    have hinst : instanceOf? S.store (.constructor i) (.extended n ext es [] given) es =
        some ⟨d, args⟩ := congrArg (·.bind Ty.instance?) hnode
    refine succeeds_instance (i := ⟨d, args⟩) hS hT hsup hes hrole hsup hinst
      fun r S₁ k hr hsource hrenders => ?_
    have hc' : r.source.datatype.constructors[i]? = some c := hsource.symm ▸ hc
    have hargs' : List.Forall₂ (fun (a : Argument) E =>
        ArgTy.instantiate? a.type r.source.args r.source.type = some E) c.arguments Es :=
      hsource.symm ▸ hargs
    exact (hrenders.succeeds_constructor k.coherent hrole hc' hargs' (himages S₁ k)).mono
      fun e' S₂ h => ⟨h.1, r.type, hlook r S₁ _ hr, h.2.1, .inl h.2.2⟩
  | destructor i j =>
    obtain ⟨hone, c, a, hc, ha⟩ := hserves
    obtain ⟨e, rfl⟩ := List.length_eq_one_iff.1 hone
    obtain ⟨E, Es, hE, hnil, rfl⟩ := List.forall₂_cons_left_iff.1 hEs
    cases hnil
    obtain ⟨e', es', he', hnil, rfl⟩ := List.forall₂_cons_left_iff.1 hes
    cases hnil
    have hEsup := (List.forall_mem_singleton.1 hsups)
    obtain ⟨args, rfl, hargs⟩ := hfamily.of_destructor hd hsup hEsup hc ha hholds
    have hinst : instanceOf? S.store (.destructor i j) (.extended n ext [e] [] given) [e] =
        some ⟨d, args⟩ := congrArg (·.bind Ty.instance?) (hS.store.type? _ _ hE)
    refine succeeds_instance (i := ⟨d, args⟩) hS hT hsup hes hrole hEsup hinst
      fun r S₁ k hr hsource hrenders => ?_
    have hc' : r.source.datatype.constructors[i]? = some c := hsource.symm ▸ hc
    have hargs' : ArgTy.instantiate? a.type r.source.args r.source.type = some T :=
      hsource.symm ▸ hargs
    have hvalue := (List.forall₂_cons.1 (himages S₁ k)).1.has (hlook r S₁ _ hr)
    refine (hrenders.succeeds_destructor k.coherent hrole hc' ha hargs' hvalue).mono fun x S₂ h => ?_
    obtain ⟨hquiet, ⟨t, ht, hhas⟩, hmem⟩ := h
    exact ⟨hquiet, t, ht, hhas, .inl (List.forall_mem_singleton.2 hmem)⟩

end Encode
end SetLang
