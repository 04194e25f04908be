import SetLang.Proofs.Encoding.Construct
import SetLang.Proofs.Encoding.Layered
import SetLang.Proofs.Encoding.Run

/-! What stands for the types of the source language. A type has an image if all instances in it are
represented. The state of an encoding is orderly if no instance is mistaken for another one, every
representation renders the constructors of its instance with the images of their argument types, and
representations came one after the other under new names. It is coherent for datatypes that are registered. -/

namespace SetLang

/-- Datatypes without fault that have distinct names. -/
structure Datatype.Family (ds : List Datatype) : Prop where
  checked : ∀ d ∈ ds, d.check = .ok ()
  distinct : ∀ d ∈ ds, ∀ d' ∈ ds, d.name = d'.name → d = d'

namespace Datatype.Family

variable {ds : List Datatype}

/-- Supported types that are the same to the encoding are the same. -/
theorem eq_of_beq (h : Family ds) {T U : Ty} (hT : T.Supported ds) (hU : U.Supported ds)
    (heq : (T == U) = true) : T = U :=
  TypeTree.eq_of_named_eq h.distinct hT hU ((TypeTree.beq_iff_named T U).1 heq)

theorem instance_eq_of_beq (h : Family ds) {i j : Instance} (hi : i.type.Supported ds)
    (hj : j.type.Supported ds) (heq : (i.type == j.type) = true) : i = j := by
  have htype := h.eq_of_beq hi hj heq
  cases i
  cases j
  cases htype
  rfl

end Datatype.Family

structure Language.Provides (l : Language) (ds : List Datatype) : Prop extends Datatype.Family ds where
  mem : ∀ d ∈ ds, d ∈ l.datatypes

theorem Language.Provides.hasDatatype {l : Language} {ds : List Datatype} (h : l.Provides ds)
    {d : Datatype} (hd : d ∈ ds) : l.hasDatatype d = true := by
  unfold Language.hasDatatype
  rw [List.contains_iff_exists_mem_beq]
  exact ⟨d, h.mem d hd, (d.beq_iff_name d).2 rfl⟩

namespace Ty

/-- The type that stands for a type, where instances stand for types of their own. -/
def image? (look : Instance → Option Ty) : Ty → Option Ty
  | .leaf v => nomatch v
  | .boolean => some .boolean
  | .given s => some (.given s)
  | .power a => (image? look a).map .power
  | .product a b => (image? look a).bind fun a => (image? look b).map (.product a)
  | .data d as => look ⟨d, as⟩

variable {ds : List Datatype} {look look' : Instance → Option Ty} {T U t u : Ty}

theorem image?_power (h : image? look T = some t) : image? look (.power T) = some (.power t) := by
  rw [image?, h]
  rfl

theorem image?_product (h : image? look T = some t) (k : image? look U = some u) :
    image? look (.product T U) = some (.product t u) := by
  rw [image?, h, k]
  rfl

theorem image?_mono (h : ∀ i : Instance, i.type.Supported ds → ∀ t, look i = some t → look' i = some t)
    (hT : T.Supported ds) (ht : image? look T = some t) : image? look' T = some t := by
  induction T using TypeTree.ind generalizing t with
  | leaf v => exact nomatch v
  | boolean => exact ht
  | given s => exact ht
  | power a ih =>
    obtain ⟨b, hb, rfl⟩ := Option.map_eq_some_iff.1 ht
    exact image?_power (ih hT hb)
  | product a b iha ihb =>
    rw [TypeTree.supported_product] at hT
    obtain ⟨c, hc, hprod⟩ := Option.bind_eq_some_iff.1 ht
    obtain ⟨d, hd, rfl⟩ := Option.map_eq_some_iff.1 hprod
    exact image?_product (iha hT.1 hc) (ihb hT.2 hd)
  | data d as ih => exact h ⟨d, as⟩ hT t ht

/-- Instances of a rank that the type does not reach do not matter. -/
theorem image?_congr (h : ∀ i : Instance, i.type.Supported ds → i.type.rank ≤ T.rank → look' i = look i)
    (hT : T.Supported ds) : image? look' T = image? look T := by
  induction T using TypeTree.ind with
  | leaf v => exact nomatch v
  | boolean => rfl
  | given s => rfl
  | power a ih => rw [image?, image?, ih h hT]
  | product a b iha ihb =>
    rw [TypeTree.supported_product] at hT
    rw [image?, image?, iha (fun i hi hr => h i hi (Nat.le_trans hr (Nat.le_max_left _ _))) hT.1,
      ihb (fun i hi hr => h i hi (Nat.le_trans hr (Nat.le_max_right _ _))) hT.2]
  | data d as ih => exact h ⟨d, as⟩ hT (Nat.le_refl _)

theorem plain_of_image? (h : ∀ i : Instance, i.type.Supported ds → ∀ t, look i = some t → t.Plain)
    (hT : T.Supported ds) (ht : image? look T = some t) : t.Plain := by
  induction T using TypeTree.ind generalizing t with
  | leaf v => exact nomatch v
  | boolean => cases ht; rfl
  | given s => cases ht; rfl
  | power a ih =>
    obtain ⟨b, hb, rfl⟩ := Option.map_eq_some_iff.1 ht
    exact ih (t := b) hT hb
  | product a b iha ihb =>
    rw [TypeTree.supported_product] at hT
    obtain ⟨c, hc, hprod⟩ := Option.bind_eq_some_iff.1 ht
    obtain ⟨d, hd, rfl⟩ := Option.map_eq_some_iff.1 hprod
    exact List.append_eq_nil_iff.2 ⟨iha hT.1 hc, ihb hT.2 hd⟩
  | data d as ih => exact h ⟨d, as⟩ hT t ht

end Ty

namespace Encoding

def look (t : Encoding) (i : Instance) : Option Ty := (t.representation? i).map (·.type)

/-- The encoding takes no represented instance for another one that is supported. -/
def Unambiguous (ds : List Datatype) (t : Encoding) : Prop :=
  ∀ r ∈ t.representations, ∀ i : Instance, i.type.Supported ds →
    (r.source.type == i.type) = true → r.source = i

/-- An encoding of supported instances alone takes none for another one. -/
theorem unambiguous_of_supported {ds : List Datatype} {t : Encoding} (hds : Datatype.Family ds)
    (h : ∀ r ∈ t.representations, r.source.type.Supported ds) : t.Unambiguous ds :=
  fun r hr _ hi heq => hds.instance_eq_of_beq (h r hr) hi heq

end Encoding

/-- What stands for instances while a further one is represented. -/
def Instance.along (i : Instance) (t : Ty) (look : Instance → Option Ty) (j : Instance) : Option Ty :=
  if i.type == j.type then some t else look j

namespace Encoding

variable {t : Encoding} {r : Representation} {i j : Instance}

theorem representation?_add (t : Encoding) (r : Representation) (i : Instance) :
    Encoding.representation? { t with representations := t.representations ++ [r] } i =
      if r.source.type == i.type then some r else t.representation? i := by
  simp only [representation?, List.reverse_append, List.reverse_singleton, List.singleton_append,
    List.find?_cons]
  cases r.source.type == i.type <;> rfl

theorem look_add (t : Encoding) (r : Representation) :
    Encoding.look { t with representations := t.representations ++ [r] } =
      r.source.along r.type t.look := by
  funext i
  unfold look Instance.along
  rw [representation?_add]
  split_ifs <;> rfl

theorem representation?_eq_none_iff : t.representation? i = none ↔
    ∀ r ∈ t.representations, (r.source.type == i.type) = false := by
  simp [representation?, List.find?_eq_none]

end Encoding

/-- What stands for a constructor: functions from the arguments and back, where the arguments have the
images of their types. -/
structure ConstructorImage.Renders (ds : List Datatype) (f : Factory) (s : Store)
    (look : Instance → Option Ty) (i : Instance) (type : Ty) (c : Constructor)
    (image : ConstructorImage) : Prop where
  arguments : List.Forall₂ (fun (a : Argument) t => ∃ T, ArgTy.instantiate? a.type i.args i.type =
    some T ∧ T.Supported ds ∧ Ty.image? look T = some t) c.arguments image.argTypes
  function : image.function.Names f s (constructorType image.argTypes type)
  destructors : List.Forall₂ (fun e t => Expr.Names f s (.relation type t) e) image.destructors
    image.argTypes

/-- What stands for an instance: a new given type, with identifiers for it and for its
constructors. -/
structure Representation.Renders (ds : List Datatype) (f : Factory) (s : Store)
    (look : Instance → Option Ty) (r : Representation) : Prop where
  type : ∃ g, r.type = .given g
  typeExpr : r.typeExpr.Names f s (.power r.type)
  hasSets : r.setConstructor.isSome = (r.source.datatype.hasArguments && !r.source.args.isEmpty)
  setConstructor : ∀ e, r.setConstructor = some e → e.Names f s (constructorType r.params r.type)
  params : List.Forall₂ (fun a p => Ty.image? look a = some p) r.source.args r.params
  constructors : List.Forall₂ (ConstructorImage.Renders ds f s look r.source r.type)
    r.source.datatype.constructors r.constructors

namespace EncodingState

/-- All supported representations are found again, render their instances, and came after what they use under
names that were free; their datatypes are registered. -/
structure Orderly (ds : List Datatype) (S : EncodingState) : Prop where
  family : Datatype.Family ds
  unambiguous : S.encoding.Unambiguous ds
  found : ∀ r ∈ S.encoding.representations, r.source.type.Supported ds →
    S.encoding.representation? r.source = some r
  renders : ∀ r ∈ S.encoding.representations, r.source.type.Supported ds →
    r.Renders ds S.encoding.target S.store S.encoding.look
  registered : ∀ r ∈ S.encoding.representations, r.source.type.Supported ds →
    S.encoding.source.hasDatatype r.source.datatype = true
  layered : Layered ds S.encoding.representations
  reserved : Encoding.initialNames S.encoding.env ⊆ S.encoding.used
  named : ∀ r ∈ S.encoding.representations, r.source.type.Supported ds →
    ∃ g, r.type = .given g ∧ g ∈ S.encoding.used ∧ g ∉ Encoding.initialNames S.encoding.env

/-- An orderly state of an encoding whose source provides the datatypes. -/
structure Coherent (ds : List Datatype) (S : EncodingState) : Prop extends S.Orderly ds where
  provides : S.encoding.source.Provides ds

/-- A later orderly state with new representations for supported instances of low rank only, under types
whose names were free. -/
structure Advances (ds : List Datatype) (n : Nat) (S S' : EncodingState) : Prop where
  later : S.Later S'
  orderly : S'.Orderly ds
  added : ∀ r ∈ S'.encoding.representations, r ∈ S.encoding.representations ∨
    r.source.type.Supported ds ∧ r.source.type.rank < n ∧ ∀ g ∈ S.encoding.used, r.type ≠ .given g

variable {ds : List Datatype} {n m : Nat} {S S' S'' : EncodingState} {i : Instance} {t : Ty}

theorem Advances.refl (h : S.Orderly ds) : S.Advances ds n S := ⟨.refl S, h, fun _ hr => .inl hr⟩

theorem Advances.trans (h : S.Advances ds n S') (k : S'.Advances ds n S'') : S.Advances ds n S'' := by
  refine ⟨h.later.trans k.later, k.orderly, fun r hr => ?_⟩
  rcases k.added r hr with hr | ⟨hsup, hrank, hname⟩
  · exact h.added r hr
  · exact .inr ⟨hsup, hrank, fun g hg => hname g (h.later.used hg)⟩

theorem Advances.mono (h : S.Advances ds n S') (hn : n ≤ m) : S.Advances ds m S' :=
  ⟨h.later, h.orderly, fun r hr => (h.added r hr).imp_right fun ⟨hsup, hrank, hname⟩ =>
    ⟨hsup, Nat.lt_of_lt_of_le hrank hn, hname⟩⟩

theorem Advances.coherent (h : S.Advances ds n S') (hS : S.Coherent ds) : S'.Coherent ds :=
  ⟨h.orderly, h.later.source ▸ hS.provides⟩

/-- The representation of a supported instance is its own. -/
theorem Orderly.source_eq (h : S.Orderly ds) {r : Representation} (hi : i.type.Supported ds)
    (hr : S.encoding.representation? i = some r) : r ∈ S.encoding.representations ∧ r.source = i := by
  obtain ⟨hmem, heq⟩ := Encoding.mem_of_representation? hr
  exact ⟨hmem, h.unambiguous r hmem i hi heq⟩

/-- What stands for a supported instance stays. -/
theorem Orderly.look_later (h : S.Orderly ds) (h' : S'.Orderly ds) (k : S.Later S')
    (hi : i.type.Supported ds) (ht : S.encoding.look i = some t) : S'.encoding.look i = some t := by
  obtain ⟨r, hr, rfl⟩ := Option.map_eq_some_iff.1 ht
  obtain ⟨hmem, rfl⟩ := h.source_eq hi hr
  exact Option.map_eq_some_iff.2 ⟨r, h'.found r (k.representations.subset hmem) hi, rfl⟩

theorem Orderly.plain_look (h : S.Orderly ds) (hi : i.type.Supported ds)
    (ht : S.encoding.look i = some t) : t.Plain := by
  obtain ⟨r, hr, rfl⟩ := Option.map_eq_some_iff.1 ht
  obtain ⟨hmem, rfl⟩ := h.source_eq hi hr
  obtain ⟨g, hg⟩ := (h.renders r hmem hi).type
  rw [hg]
  rfl

end EncodingState
end SetLang
