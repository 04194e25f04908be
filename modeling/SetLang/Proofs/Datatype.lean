import Mathlib.Tactic.Common
import SetLang.Datatype.Definition
import SetLang.Extension
import SetLang.Proofs.TypeTree

/-! What the definition of a datatype guarantees: its argument types refer to its parameters only, and
its extensions to its own constructors and arguments. -/

namespace SetLang

namespace ArgTy

theorem hasNestedSelfAll_eq_false {as : List ArgTy} :
    hasNestedSelfAll as = false ↔ ∀ a ∈ as, hasNestedSelf false a = false := by
  induction as with
  | nil => simp [hasNestedSelfAll]
  | cons a as ih => simp [hasNestedSelfAll, ih]

/-- Below the top, every occurrence of the datatype itself is nested. -/
theorem hasNestedSelf_eq_false {t : ArgTy} : hasNestedSelf false t = false ↔ .self ∉ t.leaves := by
  induction t using TypeTree.ind with
  | leaf v => cases v <;> simp [hasNestedSelf, TypeTree.leaves]
  | boolean => simp [hasNestedSelf, TypeTree.leaves]
  | given s => simp [hasNestedSelf, TypeTree.leaves]
  | power a ih => simp [hasNestedSelf, TypeTree.leaves, ih]
  | product a b iha ihb => simp [hasNestedSelf, TypeTree.leaves, iha, ihb]
  | data d as ih =>
    rw [hasNestedSelf, hasNestedSelfAll_eq_false]
    simp +contextual [TypeTree.leaves, ih]

theorem max?_lt_iff {xs : List Nat} {n : Nat} : (∀ m, xs.max? = some m → m < n) ↔ ∀ i ∈ xs, i < n := by
  refine ⟨fun h i hi => ?_, fun h m hm => h m (List.max?_eq_some_iff.1 hm).1⟩
  cases hmax : xs.max? with
  | none => exact absurd hi (List.max?_eq_none_iff.1 hmax ▸ List.not_mem_nil)
  | some m => exact Nat.lt_of_le_of_lt ((List.max?_eq_some_iff.1 hmax).2 i hi) (h m hmax)

theorem maxParam?_lt_iff {t : ArgTy} {n : Nat} :
    (∀ m, maxParam? t = some m → m < n) ↔ ∀ i, .param i ∈ t.leaves → i < n := by
  unfold maxParam?
  simp only [max?_lt_iff, List.mem_filterMap]
  refine forall_congr' fun i => imp_congr_left ⟨fun ⟨v, hv, hi⟩ => ?_, fun h => ⟨_, h, rfl⟩⟩
  cases v with
  | param j => exact Option.some.inj hi ▸ hv
  | self => cases hi

end ArgTy

namespace Datatype

variable {d : Datatype}

/-- The children that an extension of a datatype has, and that what it refers to exists. -/
def Serves (d : Datatype) : DatatypeRole → Nat → Prop
  | .typeConstructor, n => n = d.params.length
  | .constructor index, n => ∃ c, d.constructors[index]? = some c ∧ n = c.arguments.length
  | .destructor index argument, n =>
    n = 1 ∧ ∃ c a, d.constructors[index]? = some c ∧ c.arguments[argument]? = some a

def Closed (d : Datatype) : Prop :=
  ∀ c ∈ d.constructors, ∀ a ∈ c.arguments, ∀ i, .param i ∈ a.type.leaves → i < d.params.length

/-- A loop over checks succeeds if all of them do. -/
theorem forM_eq_ok_iff {ε α : Type} {f : α → Except ε Unit} {xs : List α} :
    xs.forM f = .ok () ↔ ∀ x ∈ xs, f x = .ok () := by
  induction xs with
  | nil => exact ⟨fun _ => by simp, fun _ => rfl⟩
  | cons x xs ih =>
    rw [List.forall_mem_cons, ← ih, List.forM_eq_forM, List.forM_cons]
    cases f x <;> simp [bind, Except.bind]

theorem refuse_eq_ok_iff {ε α : Type} {p : Prop} [Decidable p] {e : ε} {x : Except ε α} {a : α} :
    (if p then .error e else x) = .ok a ↔ ¬p ∧ x = .ok a := by
  split_ifs with hp <;> simp [hp]

theorem checkArgument_eq_ok_iff {c : Constructor} {a : Argument} : d.checkArgument c a = .ok () ↔
    (∀ i, .param i ∈ a.type.leaves → i < d.params.length) ∧ ArgTy.hasNestedSelf true a.type = false := by
  have hself : (if ArgTy.hasNestedSelf true a.type then throw (.illegalRecursion d.name c.symbol)
      else pure () : Except DatatypeError Unit) = .ok () ↔ ArgTy.hasNestedSelf true a.type = false := by
    rw [← Bool.not_eq_true]
    exact refuse_eq_ok_iff.trans (and_iff_left rfl)
  rw [← ArgTy.maxParam?_lt_iff, ← hself]
  unfold checkArgument
  cases ArgTy.maxParam? a.type with
  | none => simp
  | some m =>
    simp only [Option.some.injEq, forall_eq', ← Nat.not_le]
    exact refuse_eq_ok_iff

/-- A definition has no fault exactly if it passes each of the checks. -/
theorem check_eq_ok_iff : d.check = .ok () ↔ d.constructors ≠ [] ∧
    firstRepeated? [d.name] d.memberSymbols = none ∧ d.Closed ∧
    ∀ c ∈ d.constructors, ∀ a ∈ c.arguments, ArgTy.hasNestedSelf true a.type = false := by
  have hargs : d.constructors.forM (fun c => c.arguments.forM (d.checkArgument c)) = .ok () ↔
      d.Closed ∧ ∀ c ∈ d.constructors, ∀ a ∈ c.arguments, ArgTy.hasNestedSelf true a.type = false := by
    simp only [forM_eq_ok_iff, checkArgument_eq_ok_iff, Closed, forall_and]
  rw [← hargs, ← List.isEmpty_eq_false_iff, ← Bool.not_eq_true]
  unfold check
  refine refuse_eq_ok_iff.trans (and_congr_right fun _ => ?_)
  cases firstRepeated? [d.name] d.memberSymbols with
  | none => exact (and_iff_right rfl).symm
  | some s => exact iff_of_false (fun h => by cases h) fun h => nomatch h.1

theorem closed_of_check (h : d.check = .ok ()) : d.Closed := (check_eq_ok_iff.1 h).2.2.1

theorem serves_of_mem_extensions {e : Extension} {role : DatatypeRole} {n : Nat}
    (he : e ∈ d.extensions) (hrole : e.typing = .ofDatatype d role)
    (hn : e.arity.expressions.admits n) : d.Serves role n := by
  unfold extensions at he
  rcases List.mem_cons.1 he with rfl | he
  · cases hrole
    simpa [Serves, Extension.ofRole, ChildCount.admits] using hn
  · obtain ⟨⟨c, i⟩, hc, he⟩ := List.mem_flatMap.1 he
    have hcon : d.constructors[i]? = some c := List.mem_zipIdx_iff_getElem?.1 hc
    rcases List.mem_cons.1 he with rfl | he
    · cases hrole
      exact ⟨c, hcon, by simpa [Extension.ofRole, ChildCount.admits] using hn⟩
    · obtain ⟨⟨a, j⟩, ha, he⟩ := List.mem_filterMap.1 he
      have harg : c.arguments[j]? = some a := List.mem_zipIdx_iff_getElem?.1 ha
      obtain ⟨name, -, rfl⟩ := Option.map_eq_some_iff.1 he
      cases hrole
      exact ⟨by simpa [Extension.ofRole, ChildCount.admits] using hn, c, a, hcon, harg⟩

theorem ofRole_of_mem_extensions {e : Extension} (he : e ∈ d.extensions) :
    ∃ symbol n role, e = .ofRole d symbol n role := by
  unfold extensions at he
  rcases List.mem_cons.1 he with rfl | he
  · exact ⟨_, _, _, rfl⟩
  · obtain ⟨⟨c, i⟩, -, he⟩ := List.mem_flatMap.1 he
    rcases List.mem_cons.1 he with rfl | he
    · exact ⟨_, _, _, rfl⟩
    · obtain ⟨⟨a, j⟩, -, he⟩ := List.mem_filterMap.1 he
      obtain ⟨name, -, rfl⟩ := Option.map_eq_some_iff.1 he
      exact ⟨_, _, _, rfl⟩

theorem typing_of_mem_extensions {e : Extension} (he : e ∈ d.extensions) :
    ∃ role, e.typing = .ofDatatype d role := by
  obtain ⟨symbol, n, role, rfl⟩ := ofRole_of_mem_extensions he
  exact ⟨role, rfl⟩

/-- The extensions of a datatype build expressions and take no predicates. -/
theorem kind_of_mem_extensions {e : Extension} (he : e ∈ d.extensions) :
    e.kind = .expression ∧ e.arity.predicates = .exactly 0 := by
  obtain ⟨symbol, n, role, rfl⟩ := ofRole_of_mem_extensions he
  exact ⟨rfl, rfl⟩

end Datatype

namespace Extension

/-- An extension of a datatype is one that the datatype registers, and the definition of the datatype
has no fault. -/
def Genuine (e : Extension) : Prop :=
  ∀ d role, e.typing = .ofDatatype d role → d.check = .ok () ∧ e ∈ d.extensions

theorem genuine_of_mem_extensions {d : Datatype} {e : Extension} (hd : d.check = .ok ())
    (he : e ∈ d.extensions) : e.Genuine := by
  intro d' role htyping
  obtain ⟨role', htyping'⟩ := Datatype.typing_of_mem_extensions he
  rw [htyping] at htyping'
  cases htyping'
  exact ⟨hd, he⟩

end Extension
end SetLang
