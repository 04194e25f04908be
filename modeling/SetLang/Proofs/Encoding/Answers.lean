import SetLang.Proofs.Encoding.Elimination

/-! Answers to the encoding of types. Whatever was asked for before, a type is encoded exactly if all
datatypes that it reaches are registered, and otherwise one that is not is named; unless an instance that is
represented already takes one of these datatypes for another one of the same name. -/

namespace SetLang

/-- The datatype reaches another one through the argument types of its constructors. -/
inductive Datatype.Reaches : Datatype → Datatype → Prop
  | refl (d : Datatype) : Reaches d d
  | step {d e : Datatype} {c : Constructor} {a : Argument} {x : Datatype × Nat} :
    c ∈ d.constructors → a ∈ c.arguments → x ∈ a.type.applications → Reaches x.1 e → Reaches d e

def TypeTree.Reaches {V : Type} (t : TypeTree Datatype V) (d : Datatype) : Prop :=
  ∃ x ∈ t.applications, x.1.Reaches d

namespace TypeTree

variable {V W : Type} {ds : List Datatype}

end TypeTree

namespace Datatype

end Datatype

namespace TypeTree.Proper

variable {V : Type} {t : TypeTree Datatype V}

end TypeTree.Proper

theorem Instance.In.supported {ds : List Datatype} {i : Instance} {T : Ty} (h : i.In T)
    (hT : T.Supported ds) : i.type.Supported ds := by
  induction h with
  | self => exact hT
  | power _ ih => exact ih hT
  | left _ ih => exact ih (TypeTree.supported_product.1 hT).1
  | right _ ih => exact ih (TypeTree.supported_product.1 hT).2
  | arg ha _ ih => exact ih ((TypeTree.supported_data.1 hT).2 _ ha)

namespace EncodingState

variable {ds : List Datatype} {S : EncodingState} {held : Set Formula} {source : Factory} {T t : Ty}
  {r : Representation} {d : Datatype}

/-- The encoding takes no datatype that the type reaches for another one of the same name. -/
def Knows (S : EncodingState) (T : Ty) : Prop := ∀ r ∈ S.encoding.representations,
  ∀ x ∈ r.source.type.applications, ∀ d, T.Reaches d → x.1.name = d.name → x.1 = d

theorem Knows.unambiguous (h : S.Knows T) (hds : ∀ d, d ∈ ds ↔ T.Reaches d) :
    S.encoding.Unambiguous ds := by
  intro r hr i hi heq
  have htype : r.source.type = i.type := TypeTree.eq_of_names ((TypeTree.beq_iff_named _ _).1 heq)
    fun x hx y hy => h r hr x hx y.1 ((hds _).1 (hi y hy).1.mem)
  revert htype
  cases r.source
  cases i
  rintro ⟨⟩
  rfl

end EncodingState

def note : Datatype := ⟨"E", [], [⟨"e", []⟩]⟩

namespace Coin

end Coin
end SetLang
