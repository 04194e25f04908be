import SetLang.Proofs.Language
import SetLang.Proofs.TypeTree

/-! The types that an encoding can represent: all datatypes that are reached, through type arguments
and through the argument types of constructors, are registered and applied to as many arguments as they
have parameters. -/

namespace SetLang

namespace TypeTree

variable {D V W : Type}

mutual

def applications : TypeTree D V → List (D × Nat)
  | leaf _ => []
  | boolean => []
  | given _ => []
  | power a => applications a
  | product a b => applications a ++ applications b
  | data d as => (d, as.length) :: applicationsAll as

def applicationsAll : List (TypeTree D V) → List (D × Nat)
  | [] => []
  | a :: as => applications a ++ applicationsAll as

end

@[simp] theorem applicationsAll_eq (as : List (TypeTree D V)) :
    applicationsAll as = as.flatMap applications := by
  induction as with
  | nil => rfl
  | cons a as ih => simp [applicationsAll, ih]

theorem applications_mapData {E : Type} (f : D → E) (t : TypeTree D V) :
    (t.mapData f).applications = t.applications.map fun x => (f x.1, x.2) := by
  induction t using ind with
  | leaf v => rfl
  | boolean => rfl
  | given s => rfl
  | power a ih => exact ih
  | product a b iha ihb => simp [mapData, applications, iha, ihb]
  | data d as ih =>
    have hargs : as.flatMap (fun a => (a.mapData f).applications) =
        as.flatMap fun a => a.applications.map fun x => (f x.1, x.2) := by
      rw [List.flatMap_def, List.flatMap_def, List.map_congr_left ih]
    simp [mapData, applications, List.flatMap_map, List.map_flatMap, hargs]

end TypeTree

def TypeTree.Plain {D V : Type} (t : TypeTree D V) : Prop := t.applications = []

/-- A datatype is registered, and so are all that its argument types reach. -/
inductive Datatype.Supported (datatypes : List Datatype) : Datatype → Prop
  | intro {d : Datatype} : d ∈ datatypes →
    (∀ c ∈ d.constructors, ∀ a ∈ c.arguments, ∀ x ∈ a.type.applications,
      x.1.Supported datatypes) →
    (∀ c ∈ d.constructors, ∀ a ∈ c.arguments, ∀ x ∈ a.type.applications,
      x.2 = x.1.params.length) → Supported datatypes d

theorem Datatype.Supported.mem {datatypes : List Datatype} {d : Datatype}
    (h : d.Supported datatypes) : d ∈ datatypes := by
  cases h with
  | intro hmem => exact hmem

namespace TypeTree

variable {V W : Type} {datatypes : List Datatype}

def Supported (datatypes : List Datatype) (t : TypeTree Datatype V) : Prop :=
  ∀ x ∈ t.applications, x.1.Supported datatypes ∧ x.2 = x.1.params.length

theorem supported_power {a : TypeTree Datatype V} :
    (power a).Supported datatypes ↔ a.Supported datatypes := Iff.rfl

theorem supported_product {a b : TypeTree Datatype V} :
    (product a b).Supported datatypes ↔ a.Supported datatypes ∧ b.Supported datatypes :=
  List.forall_mem_append

theorem supported_data {d : Datatype} {as : List (TypeTree Datatype V)} :
    (data d as).Supported datatypes ↔ (d.Supported datatypes ∧ as.length = d.params.length) ∧
      ∀ a ∈ as, a.Supported datatypes := by
  simp only [Supported, applications, applicationsAll_eq, List.forall_mem_cons, List.mem_flatMap,
    forall_exists_index, and_imp]
  exact and_congr_right fun _ => ⟨fun h a ha x hx => h x a ha hx, fun h x a ha hx => h a ha x hx⟩

theorem supported_subst {t : TypeTree Datatype V} {f : V → TypeTree Datatype W}
    (ht : t.Supported datatypes) (hf : ∀ v ∈ t.leaves, (f v).Supported datatypes) :
    (t.subst f).Supported datatypes := by
  induction t using ind with
  | leaf v => exact hf v (by simp [leaves])
  | boolean => exact ht
  | given s => exact ht
  | power a ih => exact ih ht hf
  | product a b iha ihb =>
    rw [supported_product] at ht
    simp only [leaves, List.mem_append] at hf
    exact supported_product.2 ⟨iha ht.1 fun v hv => hf v (.inl hv),
      ihb ht.2 fun v hv => hf v (.inr hv)⟩
  | data d as ih =>
    rw [supported_data] at ht
    rw [subst, substAll_eq, supported_data, List.length_map]
    refine ⟨ht.1, List.forall_mem_map.2 fun a ha => ih a ha (ht.2 a ha) fun v hv => hf v ?_⟩
    simpa [leaves] using ⟨a, ha, hv⟩

/-- What replaces a leaf of a supported tree is supported. -/
theorem supported_of_subst {t : TypeTree Datatype V} {f : V → TypeTree Datatype W} {v : V}
    (h : (t.subst f).Supported datatypes) (hv : v ∈ t.leaves) : (f v).Supported datatypes := by
  induction t using ind with
  | leaf w =>
    obtain rfl : v = w := by simpa [leaves] using hv
    exact h
  | boolean => simp [leaves] at hv
  | given s => simp [leaves] at hv
  | power a ih => exact ih h hv
  | product a b iha ihb =>
    have h := supported_product.1 h
    rcases List.mem_append.1 hv with hv | hv
    exacts [iha h.1 hv, ihb h.2 hv]
  | data d as ih =>
    rw [subst, substAll_eq, supported_data, List.forall_mem_map] at h
    obtain ⟨a, ha, hv⟩ : ∃ a ∈ as, v ∈ a.leaves := by simpa [leaves] using hv
    exact ih a ha (h.2 a ha) hv

/-- The argument types of a supported datatype are supported. -/
theorem supported_argument {d : Datatype} (h : d.Supported datatypes) {c : Constructor}
    (hc : c ∈ d.constructors) {a : Argument} (ha : a ∈ c.arguments) : a.type.Supported datatypes := by
  cases h with
  | intro _ happlied hcount => exact fun x hx => ⟨happlied c hc a ha x hx, hcount c hc a ha x hx⟩

/-- Trees of the same names are the same, if no two of their datatypes share a name. -/
theorem eq_of_names {t u : TypeTree Datatype V} (h : t.named = u.named)
    (hdistinct : ∀ x ∈ t.applications, ∀ y ∈ u.applications, x.1.name = y.1.name → x.1 = y.1) :
    t = u := by
  induction t using ind generalizing u with
  | leaf v | boolean | given s =>
    clear hdistinct
    cases u <;> simp_all [named, mapData]
  | power a ih =>
    cases u with
    | power b =>
      simp only [named, mapData, power.injEq] at h
      exact congrArg power (ih h hdistinct)
    | _ => simp [named, mapData] at h
  | product a c iha ihc =>
    cases u with
    | product b d =>
      simp only [named, mapData, product.injEq] at h
      simp only [applications, List.mem_append] at hdistinct
      rw [iha h.1 fun x hx y hy => hdistinct x (.inl hx) y (.inl hy),
        ihc h.2 fun x hx y hy => hdistinct x (.inr hx) y (.inr hy)]
    | _ => simp [named, mapData] at h
  | data d as ih =>
    cases u with
    | data e bs =>
      simp only [named, mapData, mapDataAll_eq, data.injEq] at h
      simp only [applications, applicationsAll_eq, List.forall_mem_cons, List.mem_flatMap] at hdistinct
      obtain rfl := hdistinct.1.1 h.1
      have hargs : as = bs := by
        refine List.ext_getElem (by simpa using congrArg List.length h.2) fun i hi hi' => ?_
        have hnamed : (as[i]).named = (bs[i]).named := by
          have hget := congrArg (·[i]?) h.2
          simpa [named, List.getElem?_eq_getElem hi, List.getElem?_eq_getElem hi'] using hget
        have ha := List.getElem_mem hi
        have hb := List.getElem_mem hi'
        exact ih _ ha hnamed fun x hx y hy => (hdistinct.2 x ⟨_, ha, hx⟩).2 y ⟨_, hb, hy⟩
      rw [hargs]
    | _ => simp [named, mapData] at h

theorem eq_of_named_eq (hdistinct : ∀ d ∈ datatypes, ∀ d' ∈ datatypes, d.name = d'.name → d = d')
    {t u : TypeTree Datatype V} (ht : t.Supported datatypes) (hu : u.Supported datatypes)
    (h : t.named = u.named) : t = u :=
  eq_of_names h fun x hx y hy => hdistinct _ (ht x hx).1.mem _ (hu y hy).1.mem

/-- A tree without datatypes is known by its named form. -/
theorem Plain.eq_of_named_eq {t u : TypeTree Datatype V} (ht : t.Plain) (h : t.named = u.named) :
    t = u := by
  refine eq_of_names h fun x hx => ?_
  rw [ht] at hx
  cases hx

end TypeTree

/-- What holds of products of types for which it holds. -/
theorem Ty.of_productOf? {P : Ty → Prop} (hP : ∀ a b, P a → P b → P (.product a b)) {ts : List Ty} {domain : Ty}
    (h : Ty.productOf? ts = some domain) (hts : ∀ t ∈ ts, P t) : P domain := by
  cases ts with
  | nil => cases h
  | cons t ts =>
    cases h
    rw [List.forall_mem_cons] at hts
    obtain ⟨ht, hts⟩ := hts
    induction ts generalizing t with
    | nil => exact ht
    | cons u ts ih =>
      rw [List.forall_mem_cons] at hts
      exact ih (.product t u) (hP t u ht hts.1) hts.2

theorem Ty.plain_productOf? {ts : List Ty} {domain : Ty} (h : Ty.productOf? ts = some domain)
    (hts : ∀ t ∈ ts, t.Plain) : domain.Plain :=
  Ty.of_productOf? (fun _ _ ha hb => List.append_eq_nil_iff.2 ⟨ha, hb⟩) h hts

/-! The rank of a type bounds how deep the creation of instances goes: the instances that an instance
needs have a lower rank than the instance. -/

namespace TypeTree

variable {V W : Type}

mutual

/-- The number of datatypes on the longest path, where each counts with its size. -/
noncomputable def rank : TypeTree Datatype V → Nat
  | leaf _ => 0
  | boolean => 0
  | given _ => 0
  | power a => rank a
  | product a b => max (rank a) (rank b)
  | data d as => sizeOf d + 1 + rankAll as

noncomputable def rankAll : List (TypeTree Datatype V) → Nat
  | [] => 0
  | a :: as => max (rank a) (rankAll as)

end

theorem rank_le_rankAll {a : TypeTree Datatype V} {as : List (TypeTree Datatype V)} (h : a ∈ as) :
    a.rank ≤ rankAll as := by
  induction as with
  | nil => cases h
  | cons b as ih =>
    rcases List.mem_cons.1 h with rfl | h
    · exact Nat.le_max_left _ _
    · exact Nat.le_trans (ih h) (Nat.le_max_right _ _)

theorem rankAll_le {as : List (TypeTree Datatype V)} {n : Nat} (h : ∀ a ∈ as, a.rank ≤ n) :
    rankAll as ≤ n := by
  induction as with
  | nil => exact Nat.zero_le n
  | cons a as ih => exact Nat.max_le.2 ⟨h a (by simp), ih fun b hb => h b (by simp [hb])⟩

theorem rank_arg_lt {d : Datatype} {a : TypeTree Datatype V} {as : List (TypeTree Datatype V)}
    (h : a ∈ as) : a.rank < (data d as).rank := by
  have := rank_le_rankAll h
  simp only [rank]
  omega

/-- Replacing leaves by trees of bounded rank adds at most this bound. -/
theorem rank_subst_le {f : V → TypeTree Datatype W} {t : TypeTree Datatype V} {n : Nat}
    (h : ∀ v ∈ t.leaves, (f v).rank ≤ n) : (t.subst f).rank ≤ t.rank + n := by
  induction t using ind with
  | leaf v => exact Nat.le_trans (h v (by simp [leaves])) (Nat.le_add_left _ _)
  | boolean => exact Nat.zero_le _
  | given s => exact Nat.zero_le _
  | power a ih => exact ih h
  | product a b iha ihb =>
    simp only [leaves, List.mem_append] at h
    have ha := iha fun v hv => h v (.inl hv)
    have hb := ihb fun v hv => h v (.inr hv)
    simp only [subst, rank]
    omega
  | data d as ih =>
    have hall : rankAll (as.map (subst f)) ≤ rankAll as + n := by
      apply rankAll_le
      intro b hb
      obtain ⟨a, ha, rfl⟩ := List.mem_map.1 hb
      have hle := ih a ha fun v hv => h v (by simpa [leaves] using ⟨a, ha, hv⟩)
      have := rank_le_rankAll ha
      omega
    simp only [subst, rank, substAll_eq]
    omega

theorem rank_le_sizeOf (t : ArgTy) : t.rank ≤ sizeOf t := by
  induction t using ind with
  | leaf v => exact Nat.zero_le _
  | boolean => exact Nat.zero_le _
  | given s => exact Nat.zero_le _
  | power a ih =>
    simp only [rank, power.sizeOf_spec]
    omega
  | product a b iha ihb =>
    simp only [rank, product.sizeOf_spec]
    omega
  | data d as ih =>
    have hall : rankAll as ≤ sizeOf as := by
      apply rankAll_le
      intro a ha
      have := ih a ha
      have := List.sizeOf_lt_of_mem ha
      omega
    simp only [rank, data.sizeOf_spec]
    omega

theorem sizeOf_argument_lt {d : Datatype} {c : Constructor} {a : Argument} (hc : c ∈ d.constructors)
    (ha : a ∈ c.arguments) : sizeOf a.type < sizeOf d := by
  have hcs := List.sizeOf_lt_of_mem hc
  have has := List.sizeOf_lt_of_mem ha
  obtain ⟨name, params, cs⟩ := d
  obtain ⟨symbol, as⟩ := c
  obtain ⟨destructor, t⟩ := a
  simp only [Datatype.mk.sizeOf_spec, ConstructorOf.mk.sizeOf_spec, ArgumentOf.mk.sizeOf_spec] at *
  omega

end TypeTree
end SetLang
