import Mathlib.Data.List.Perm.Basic
import SetLang.Proofs.Language

/-! Well-formed definitions of datatypes. The checks of a definition accept exactly these, and what they accept
may be used without further checks: its extensions have distinct ids and refer to its own constructors and
arguments, they are registered wherever their ids are new, and its argument types are instantiated by as many
types as it has parameters. -/

namespace SetLang

namespace TypeTree

variable {D V : Type} {a t u : TypeTree D V}

inductive Within (u : TypeTree D V) : TypeTree D V → Prop
  | refl : Within u u
  | power {a : TypeTree D V} : Within u a → Within u (power a)
  | left {a b : TypeTree D V} : Within u a → Within u (product a b)
  | right {a b : TypeTree D V} : Within u b → Within u (product a b)
  | data {d : D} {a : TypeTree D V} {as : List (TypeTree D V)} : a ∈ as → Within u a → Within u (data d as)

theorem Within.leaves_subset (h : u.Within t) : u.leaves ⊆ t.leaves := by
  induction h with
  | refl => exact List.Subset.refl _
  | power _ ih => exact ih
  | left _ ih => exact fun v hv => List.mem_append_left _ (ih hv)
  | right _ ih => exact fun v hv => List.mem_append_right _ (ih hv)
  | data ha _ ih =>
    rw [leaves, leavesAll_eq]
    exact fun v hv => List.mem_flatMap.2 ⟨_, ha, ih hv⟩

end TypeTree

namespace ArgTy

/-- The datatype itself stands neither below a power type nor in an argument of a datatype. -/
structure Positive (t : ArgTy) : Prop where
  power : ∀ a, TypeTree.Within (.power a) t → .self ∉ a.leaves
  data : ∀ d as, TypeTree.Within (.data d as) t → ∀ a ∈ as, .self ∉ a.leaves

variable {a b : ArgTy}

theorem positive_power : Positive (.power a) ↔ .self ∉ a.leaves := by
  refine ⟨fun h => h.power a .refl, fun h => ⟨fun b hb => ?_, fun d as hd b hb => ?_⟩⟩
  · cases hb with
    | refl => exact h
    | power hb => exact fun hself => h (hb.leaves_subset hself)
  · cases hd with
    | power hd => exact fun hself => h (hd.leaves_subset (by simpa [TypeTree.leaves] using ⟨b, hb, hself⟩))

theorem positive_product : Positive (.product a b) ↔ Positive a ∧ Positive b := by
  refine ⟨fun h => ⟨⟨fun c hc => h.power c (.left hc), fun d as hd => h.data d as (.left hd)⟩,
    ⟨fun c hc => h.power c (.right hc), fun d as hd => h.data d as (.right hd)⟩⟩,
    fun h => ⟨fun c hc => ?_, fun d as hd => ?_⟩⟩
  · cases hc with
    | left hc => exact h.1.power c hc
    | right hc => exact h.2.power c hc
  · cases hd with
    | left hd => exact h.1.data d as hd
    | right hd => exact h.2.data d as hd

theorem positive_data {d : Datatype} {as : List ArgTy} :
    Positive (.data d as) ↔ ∀ a ∈ as, .self ∉ a.leaves := by
  refine ⟨fun h => h.data d as .refl, fun h => ⟨fun b hb => ?_, fun d' bs hd b hb => ?_⟩⟩
  · cases hb with
    | data ha hb => exact fun hself => h _ ha (hb.leaves_subset hself)
  · cases hd with
    | refl => exact h b hb
    | data ha hd => exact fun hself => h _ ha (hd.leaves_subset (by simpa [TypeTree.leaves] using ⟨b, hb, hself⟩))

/-- No occurrence of the datatype is refused exactly if all of them are positive. -/
theorem hasNestedSelf_true_eq_false {t : ArgTy} : hasNestedSelf true t = false ↔ Positive t := by
  induction t using TypeTree.ind with
  | leaf v => refine iff_of_true (by cases v <;> rfl) ⟨fun a h => ?_, fun d as h => ?_⟩ <;> cases h
  | boolean | given => refine iff_of_true rfl ⟨fun a h => ?_, fun d as h => ?_⟩ <;> cases h
  | power a => rw [positive_power, hasNestedSelf, hasNestedSelf_eq_false]
  | product a b iha ihb => rw [positive_product, hasNestedSelf, Bool.or_eq_false_iff, iha, ihb]
  | data d as => simp only [positive_data, hasNestedSelf, hasNestedSelfAll_eq_false, hasNestedSelf_eq_false]

/-- An argument type is instantiated if all its parameters have trees. -/
theorem isSome_instantiate? {V : Type} {t : ArgTy} {ps : List (TypeTree Datatype V)}
    {own : TypeTree Datatype V} (h : ∀ i, .param i ∈ t.leaves → i < ps.length) :
    (instantiate? t ps own).isSome := by
  refine Option.isSome_of_eq_some (TypeTree.subst?_eq_some_iff.2 ⟨fun v hv => ?_, rfl⟩)
  cases v with
  | param i => exact Option.isSome_iff_exists.2 ⟨_, List.getElem?_eq_getElem (h i hv)⟩
  | self => rfl

end ArgTy

namespace Datatype

variable {d : Datatype}

structure WellFormed (d : Datatype) : Prop where
  constructed : d.constructors ≠ []
  distinct : (d.name :: d.memberSymbols).Nodup
  closed : d.Closed
  positive : ∀ c ∈ d.constructors, ∀ a ∈ c.arguments, ArgTy.Positive a.type

theorem firstRepeated?_eq_none {xs seen : List String} :
    firstRepeated? seen xs = none ↔ xs.Nodup ∧ ∀ x ∈ xs, x ∉ seen := by
  induction xs generalizing seen with
  | nil => simp [firstRepeated?]
  | cons x xs ih =>
    unfold firstRepeated?
    by_cases hx : x ∈ seen
    · simp [hx]
    · have hne : (∀ y ∈ xs, y ∉ x :: seen) ↔ x ∉ xs ∧ ∀ y ∈ xs, y ∉ seen := by
        simp only [List.mem_cons, not_or, forall_and]
        exact and_congr_left fun _ => List.forall_mem_ne'
      simp only [List.contains_iff_mem, hx, if_false, ih, hne, List.nodup_cons, List.forall_mem_cons,
        not_false_eq_true, true_and]
      tauto

theorem check_eq_ok_iff_wellFormed : d.check = .ok () ↔ d.WellFormed := by
  have hdistinct : firstRepeated? [d.name] d.memberSymbols = none ↔ (d.name :: d.memberSymbols).Nodup := by
    rw [firstRepeated?_eq_none, List.nodup_cons, and_comm]
    simp only [List.mem_singleton, List.forall_mem_ne']
  simp only [check_eq_ok_iff, hdistinct, ArgTy.hasNestedSelf_true_eq_false]
  exact ⟨fun ⟨h₁, h₂, h₃, h₄⟩ => ⟨h₁, h₂, h₃, h₄⟩, fun h => ⟨h.constructed, h.distinct, h.closed, h.positive⟩⟩

theorem define_eq_ok_iff {name : String} {params : List String} {cs : List Constructor} :
    define name params cs = .ok d ↔ d = ⟨name, params, cs⟩ ∧ d.WellFormed := by
  have hrun : define name params cs = (check ⟨name, params, cs⟩).map fun _ => ⟨name, params, cs⟩ := rfl
  rw [← check_eq_ok_iff_wellFormed, hrun]
  cases hcheck : check ⟨name, params, cs⟩ with
  | error e => exact iff_of_false nofun fun ⟨hd, h⟩ => by rw [hd, hcheck] at h; cases h
  | ok u => exact ⟨fun h => by cases h; exact ⟨rfl, hcheck⟩, fun ⟨hd, _⟩ => hd ▸ rfl⟩

theorem extensions_ids_perm (d : Datatype) : (d.extensions.map (·.id)).Perm (d.name :: d.memberSymbols) := by
  have hdestructors (c : Constructor) (i : Nat) :
      (d.destructorExtensions i c).map (·.id) = c.arguments.filterMap (·.destructor) := by
    rw [destructorExtensions, List.map_filterMap]
    conv_rhs => rw [← List.zipIdx_map_fst 0 c.arguments, List.filterMap_map]
    refine List.filterMap_congr fun (a, j) _ => ?_
    cases ha : a.destructor <;> simp [ha, Extension.ofRole]
  have hids : d.extensions.map (·.id) =
      d.name :: d.constructors.flatMap fun c => c.symbol :: c.arguments.filterMap (·.destructor) := by
    rw [extensions, List.map_cons, List.map_flatMap]
    conv_rhs => rw [← List.zipIdx_map_fst 0 d.constructors, List.flatMap_map]
    simp only [List.map_cons, hdestructors]
    rfl
  rw [hids, memberSymbols]
  exact (List.map_append_flatMap_perm _ _ _).symm.cons _

theorem serves_of_mem {e : Extension} (he : e ∈ d.extensions) : ∃ role n,
    e.typing = .ofDatatype d role ∧ e.arity = ⟨.exactly n, .exactly 0⟩ ∧ d.Serves role n := by
  obtain ⟨symbol, n, role, rfl⟩ := ofRole_of_mem_extensions he
  exact ⟨role, n, rfl, rfl, serves_of_mem_extensions he rfl (by simp [Extension.ofRole, ChildCount.admits])⟩

end Datatype

namespace LanguageDraft

variable {l : LanguageDraft}

theorem register_ofRole {d : Datatype} {symbol : String} {n : Nat} {role : DatatypeRole}
    (hnew : ∀ f ∈ l.extensions, f.id ≠ symbol) : l.register (.ofRole d symbol n role) =
      .ok { l with extensions := place (.ofRole d symbol n role) l.extensions } := by
  have hdup : l.extensions.any (·.id == symbol) = false := by simpa using hnew
  unfold register
  simp [Extension.ofRole, hdup, lacksPatterns, declareOperator]
  rfl

/-- Extensions of datatypes with distinct and new ids are registered, and nothing but the extensions
changes. -/
theorem registerAll_ofRole {es : List Extension} (hes : ∀ e ∈ es, ∃ d symbol n role, e = .ofRole d symbol n role)
    (hdistinct : (es.map (·.id)).Nodup) (hnew : ∀ e ∈ es, ∀ f ∈ l.extensions, f.id ≠ e.id) :
    ∃ fs, l.registerAll es = ({ l with extensions := fs }, none) ∧ ∀ e, e ∈ fs ↔ e ∈ es ∨ e ∈ l.extensions := by
  induction es generalizing l with
  | nil => exact ⟨_, rfl, by simp⟩
  | cons e es ih =>
    rw [List.map_cons, List.nodup_cons] at hdistinct
    rw [List.forall_mem_cons] at hes hnew
    obtain ⟨d, symbol, n, role, rfl⟩ := hes.1
    have hregister : l.register (.ofRole d symbol n role) = _ := register_ofRole hnew.1
    rw [registerAll, hregister]
    obtain ⟨fs, hrun, hfs⟩ := ih (l := { l with extensions := place (.ofRole d symbol n role) l.extensions })
      hes.2 hdistinct.2 fun f hf g hg => by
        rcases mem_place.1 hg with rfl | hg
        · exact fun heq => hdistinct.1 (List.mem_map.2 ⟨f, hf, heq.symm⟩)
        · exact hnew.2 f hf g hg
    refine ⟨fs, hrun, fun f => ?_⟩
    rw [hfs, mem_place, List.mem_cons]
    tauto

end LanguageDraft

namespace Datatype

/-- Exactly the well-formed definitions are accepted, and what is accepted is safe to use. Its extensions have
distinct ids and refer to constructors and arguments that exist; it is registered, with all of them, wherever
none of their ids is in use; and its argument types are instantiated by as many trees as it has parameters. -/
theorem define_exact (name : String) (params : List String) (cs : List Constructor) :
    ((∃ d, define name params cs = .ok d) ↔ WellFormed ⟨name, params, cs⟩) ∧
    ∀ d, define name params cs = .ok d → d = ⟨name, params, cs⟩ ∧
      (d.extensions.map (·.id)).Nodup ∧
      (∀ e ∈ d.extensions, ∃ role n, e.typing = .ofDatatype d role ∧
        e.arity = ⟨.exactly n, .exactly 0⟩ ∧ d.Serves role n) ∧
      (∀ l : LanguageDraft, (∀ e ∈ d.extensions, ∀ f ∈ l.extensions, f.id ≠ e.id) →
        ∃ es, l.registerDatatype d = ({ l with extensions := es, datatypes := l.datatypes ++ [d] }, none) ∧
          ∀ e, e ∈ es ↔ e ∈ d.extensions ∨ e ∈ l.extensions) ∧
      ∀ c ∈ d.constructors, ∀ a ∈ c.arguments, ∀ (V : Type) (ps : List (TypeTree Datatype V))
        (own : TypeTree Datatype V), ps.length = d.params.length → (ArgTy.instantiate? a.type ps own).isSome := by
  refine ⟨⟨fun ⟨d, hd⟩ => ?_, fun h => ⟨_, define_eq_ok_iff.2 ⟨rfl, h⟩⟩⟩, fun d hd => ?_⟩
  · obtain ⟨rfl, h⟩ := define_eq_ok_iff.1 hd
    exact h
  · obtain ⟨heq, h⟩ := define_eq_ok_iff.1 hd
    have hids : (d.extensions.map (·.id)).Nodup := (extensions_ids_perm d).nodup_iff.2 h.distinct
    refine ⟨heq, hids, fun e => serves_of_mem, fun l hnew => ?_, fun c hc a ha V ps own hlen => ?_⟩
    · obtain ⟨es, hrun, hes⟩ := LanguageDraft.registerAll_ofRole
        (fun e he => ⟨d, ofRole_of_mem_extensions he⟩) hids hnew
      refine ⟨es, ?_, hes⟩
      rw [LanguageDraft.registerDatatype, hrun]
    · exact ArgTy.isSome_instantiate? fun i hi => hlen ▸ h.closed c hc a ha i hi

example : define "Tree" [] [⟨"node", [⟨some "children", .power (.leaf .self)⟩]⟩] =
    .error (.illegalRecursion "Tree" "node") := rfl

def finiteList : Datatype := ⟨"List", ["T"],
  [⟨"nil", []⟩, ⟨"cons", [⟨some "head", .leaf (.param 0)⟩, ⟨some "tail", .leaf .self⟩]⟩]⟩

theorem define_exact_finiteList : define "List" ["T"] finiteList.constructors = .ok finiteList ∧
    WellFormed finiteList ∧ (finiteList.extensions.map (·.id)).Nodup ∧
    (∃ es, LanguageDraft.core.registerDatatype finiteList =
      ({ LanguageDraft.core with extensions := es, datatypes := [finiteList] }, none)) ∧
    (ArgTy.instantiate? (.leaf .self) [.boolean] (.data finiteList [.boolean] : Ty)).isSome := by
  have hdefine : define "List" ["T"] finiteList.constructors = .ok finiteList := rfl
  obtain ⟨hiff, hsafe⟩ := define_exact "List" ["T"] finiteList.constructors
  obtain ⟨-, hids, -, hregister, hinstantiate⟩ := hsafe finiteList hdefine
  obtain ⟨es, hes, -⟩ := hregister .core fun _ _ _ hf => by cases hf
  exact ⟨hdefine, hiff.1 ⟨_, hdefine⟩, hids, ⟨es, hes⟩,
    hinstantiate _ (List.mem_of_getElem? (i := 1) rfl) _ (List.mem_of_getElem? (i := 1) rfl) Empty _ _ rfl⟩

end Datatype
end SetLang
