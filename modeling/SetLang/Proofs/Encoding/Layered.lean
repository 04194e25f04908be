import SetLang.Encoding.State
import SetLang.Proofs.Encoding.Supported

/-! The order in which representations come. An instance is represented once, under a type of its own, and
after all other instances that it uses: those in its type arguments and in the types of the arguments of its
constructors. -/

namespace SetLang

inductive Instance.In (i : Instance) : Ty → Prop
  | self : In i (.data i.datatype i.args)
  | power {a : Ty} : In i a → In i (.power a)
  | left {a b : Ty} : In i a → In i (.product a b)
  | right {a b : Ty} : In i b → In i (.product a b)
  | arg {d : Datatype} {as : List Ty} {a : Ty} : a ∈ as → In i a → In i (.data d as)

/-- The instance has the other one in a type argument, or in the type of an argument of a constructor. -/
inductive Instance.Uses (i j : Instance) : Prop
  | arg {a : Ty} : a ∈ i.args → j.In a → Uses i j
  | argument {c : Constructor} {a : Argument} {T : Ty} : c ∈ i.datatype.constructors →
    a ∈ c.arguments → ArgTy.instantiate? a.type i.args i.type = some T → j.In T → Uses i j

structure Representation.Follows (ds : List Datatype) (before : List Representation)
    (r : Representation) : Prop where
  first : ∀ r' ∈ before, (r'.source.type == r.source.type) = false
  own : ∀ r' ∈ before, r'.source.type.Supported ds → r'.type ≠ r.type
  after : ∀ i, r.source.Uses i → i ≠ r.source → ∃ r' ∈ before, r'.source = i

/-- Representations, where every supported instance came after what it uses. -/
inductive Layered (ds : List Datatype) : List Representation → Prop
  | nil : Layered ds []
  | add {rs : List Representation} {r : Representation} : Layered ds rs →
    (r.source.type.Supported ds → r.Follows ds rs) → Layered ds (rs ++ [r])

namespace Layered

variable {ds : List Datatype} {rs : List Representation} {r r' : Representation} {i : Instance}
  {j k : Nat}

theorem follows (h : Layered ds rs) (hk : rs[k]? = some r) (hr : r.source.type.Supported ds) :
    r.Follows ds (rs.take k) := by
  induction h with
  | nil => cases hk
  | @add rs r' _ hr' ih =>
    rcases Nat.lt_trichotomy k rs.length with hlt | rfl | hgt
    · rw [List.getElem?_append_left hlt] at hk
      rw [List.take_append_of_le_length (Nat.le_of_lt hlt)]
      exact ih hk
    · rw [List.getElem?_concat_length] at hk
      cases hk
      rw [List.take_left]
      exact hr' hr
    · rw [List.getElem?_eq_none (by simp; omega)] at hk
      cases hk

theorem closed (h : Layered ds rs) (hr : r ∈ rs) (hsup : r.source.type.Supported ds)
    (hi : r.source.Uses i) : ∃ r' ∈ rs, r'.source = i := by
  by_cases heq : i = r.source
  · exact ⟨r, hr, heq.symm⟩
  · obtain ⟨k, hk⟩ := List.mem_iff_getElem?.1 hr
    obtain ⟨r', hr', hsource⟩ := (h.follows hk hsup).after i hi heq
    exact ⟨r', List.mem_of_mem_take hr', hsource⟩

theorem mem_take (hj : rs[j]? = some r) (hlt : j < k) : r ∈ rs.take k :=
  List.mem_iff_getElem?.2 ⟨j, by rw [List.getElem?_take_of_lt hlt, hj]⟩

/-- Supported instances at different places differ, and so do the types that stand for them. -/
theorem apart (h : Layered ds rs) (hj : rs[j]? = some r) (hk : rs[k]? = some r')
    (hr : r.source.type.Supported ds) (hr' : r'.source.type.Supported ds) (hne : j ≠ k) :
    (r.source.type == r'.source.type) = false ∧ r.type ≠ r'.type := by
  wlog hlt : j < k generalizing j k r r'
  · have hswap := this hk hj hr' hr hne.symm (Nat.lt_of_le_of_ne (Nat.not_lt.1 hlt) hne.symm)
    refine ⟨?_, hswap.2.symm⟩
    rw [← hswap.1, Bool.eq_iff_iff, TypeTree.beq_iff_named, TypeTree.beq_iff_named, eq_comm]
  · have hfollows := h.follows hk hr'
    exact ⟨hfollows.first r (mem_take hj hlt), hfollows.own r (mem_take hj hlt) hr⟩

theorem eq_of_type_eq (h : Layered ds rs) (hr : r ∈ rs) (hr' : r' ∈ rs)
    (hsup : r.source.type.Supported ds) (hsup' : r'.source.type.Supported ds)
    (heq : r.type = r'.type) : r = r' := by
  obtain ⟨j, hj⟩ := List.mem_iff_getElem?.1 hr
  obtain ⟨k, hk⟩ := List.mem_iff_getElem?.1 hr'
  by_cases hjk : j = k
  · subst hjk
    exact Option.some_inj.1 (hj.symm.trans hk)
  · exact absurd heq (h.apart hj hk hsup hsup' hjk).2

end Layered
end SetLang
