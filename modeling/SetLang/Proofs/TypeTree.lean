import Mathlib.Tactic.Common
import SetLang.Ty

/-! The algebra of type trees. Replacing leaves composes, depends on the leaves alone, and two
replacements that agree on a tree agree on its leaves. Datatypes are known by their names, and
`named` keeps of a tree just that much: two trees are the same for `==` when their named forms are
equal. -/

namespace SetLang

theorem Datatype.beq_iff_name (d e : Datatype) : (d == e) = true ↔ d.name = e.name := by
  change (d.name == e.name) = true ↔ _
  exact beq_iff_eq

namespace TypeTree

variable {D E V W X : Type}

/-- Induction that gives the hypothesis for every argument of a datatype. -/
@[elab_as_elim]
theorem ind {motive : TypeTree D V → Prop} (leaf : ∀ v, motive (leaf v)) (boolean : motive boolean)
    (given : ∀ s, motive (given s)) (power : ∀ a, motive a → motive (power a))
    (product : ∀ a b, motive a → motive b → motive (product a b))
    (data : ∀ d as, (∀ a ∈ as, motive a) → motive (data d as)) (t : TypeTree D V) : motive t :=
  @TypeTree.rec D V motive (fun as => ∀ a ∈ as, motive a) leaf boolean given power product data
    (by simp) (fun a as ha has => by simpa using ⟨ha, has⟩) t

@[simp] theorem substAll_eq (f : V → TypeTree D W) (as : List (TypeTree D V)) :
    substAll f as = as.map (subst f) := by
  induction as with
  | nil => rfl
  | cons a as ih => simp [substAll, ih]

@[simp] theorem leavesAll_eq (as : List (TypeTree D V)) : leavesAll as = as.flatMap leaves := by
  induction as with
  | nil => rfl
  | cons a as ih => simp [leavesAll, ih]

@[simp] theorem givensAll_eq (as : List (TypeTree D V)) : givensAll as = as.flatMap givens := by
  induction as with
  | nil => rfl
  | cons a as ih => simp [givensAll, ih]

theorem subst_subst (f : V → TypeTree D W) (g : W → TypeTree D X) (t : TypeTree D V) :
    (t.subst f).subst g = t.subst fun v => (f v).subst g := by
  induction t using ind with
  | leaf v => rfl
  | boolean => rfl
  | given s => rfl
  | power a ih => simp only [subst, ih]
  | product a b iha ihb => simp only [subst, iha, ihb]
  | data d as ih => simpa [subst] using ih

theorem subst_leaf (t : TypeTree D V) : t.subst leaf = t := by
  induction t using ind with
  | leaf v => rfl
  | boolean => rfl
  | given s => rfl
  | power a ih => simp only [subst, ih]
  | product a b iha ihb => simp only [subst, iha, ihb]
  | data d as ih =>
    have h : as.map (subst leaf) = as.map id := List.map_congr_left ih
    simpa [subst] using h

/-- Two replacements agree on a tree exactly if they agree on its leaves. -/
theorem subst_eq_iff {f g : V → TypeTree D W} {t : TypeTree D V} :
    t.subst f = t.subst g ↔ ∀ v ∈ t.leaves, f v = g v := by
  induction t using ind with
  | leaf v => simp [subst, leaves]
  | boolean => simp [subst, leaves]
  | given s => simp [subst, leaves]
  | power a ih => simp [subst, leaves, ih]
  | product a b iha ihb =>
    simp only [subst, leaves, product.injEq, iha, ihb, List.mem_append]
    exact ⟨fun h v hv => hv.elim (h.1 v) (h.2 v),
      fun h => ⟨fun v hv => h v (.inl hv), fun v hv => h v (.inr hv)⟩⟩
  | data d as ih =>
    simp only [subst, leaves, substAll_eq, leavesAll_eq, data.injEq, true_and, List.map_inj_left,
      List.mem_flatMap]
    exact ⟨fun h v ⟨a, ha, hv⟩ => (ih a ha).1 (h a ha) v hv,
      fun h a ha => (ih a ha).2 fun v hv => h v ⟨a, ha, hv⟩⟩

theorem subst_congr {f g : V → TypeTree D W} {t : TypeTree D V} (h : ∀ v ∈ t.leaves, f v = g v) :
    t.subst f = t.subst g := subst_eq_iff.2 h

theorem leaves_subst (f : V → TypeTree D W) (t : TypeTree D V) :
    (t.subst f).leaves = t.leaves.flatMap fun v => (f v).leaves := by
  induction t using ind with
  | leaf v => simp [subst, leaves]
  | boolean => rfl
  | given s => rfl
  | power a ih => simpa [subst, leaves] using ih
  | product a b iha ihb => simp [subst, leaves, iha, ihb, List.flatMap_append]
  | data d as ih =>
    simp only [subst, leaves, substAll_eq, leavesAll_eq, List.flatMap_map, List.flatMap_assoc]
    rw [List.flatMap_def, List.flatMap_def, List.map_congr_left ih]

@[simp] theorem substAll?_cons (f : V → Option (TypeTree D W)) (a : TypeTree D V)
    (as : List (TypeTree D V)) :
    substAll? f (a :: as) = (subst? f a).bind fun b => (substAll? f as).map (b :: ·) := by
  rw [substAll?]
  cases subst? f a <;> cases substAll? f as <;> rfl

theorem substAll?_eq (f : V → Option (TypeTree D W)) (as : List (TypeTree D V)) :
    substAll? f as = as.mapM (subst? f) := by
  induction as with
  | nil => rfl
  | cons a as ih =>
    rw [substAll?_cons, ih, List.mapM_cons]
    cases subst? f a <;> cases as.mapM (subst? f) <;> rfl

theorem subst?_product (f : V → Option (TypeTree D W)) (a b : TypeTree D V) :
    subst? f (product a b) = (subst? f a).bind fun c => (subst? f b).map (product c ·) := by
  rw [subst?]
  cases subst? f a <;> cases subst? f b <;> rfl

/-- A tree with a tree for each of its leaves. -/
theorem subst?_eq_some {f : V → Option (TypeTree D W)} {g : V → TypeTree D W} {t : TypeTree D V}
    (h : ∀ v ∈ t.leaves, f v = some (g v)) : t.subst? f = some (t.subst g) := by
  induction t using ind with
  | leaf v => exact h v (by simp [leaves])
  | boolean => rfl
  | given s => rfl
  | power a ih => simp [subst?, subst, ih h]
  | product a b iha ihb =>
    simp only [leaves, List.mem_append] at h
    simp [subst?_product, subst, iha fun v hv => h v (.inl hv), ihb fun v hv => h v (.inr hv)]
  | data d as ih =>
    have hall : ∀ bs ⊆ as, substAll? f bs = some (substAll g bs) := by
      intro bs
      induction bs with
      | nil => intro _; rfl
      | cons b bs ihb =>
        intro hb
        simp only [List.cons_subset] at hb
        have hv : ∀ v ∈ b.leaves, f v = some (g v) := fun v hv =>
          h v (by simpa [leaves] using ⟨b, hb.1, hv⟩)
        simp [ih b hb.1 hv, ihb hb.2]
    simp [subst?, subst, hall as (List.Subset.refl as)]

/-- A tree without a tree for one of its leaves. -/
theorem subst?_eq_none {f : V → Option (TypeTree D W)} {t : TypeTree D V} {v : V}
    (hv : v ∈ t.leaves) (h : f v = none) : t.subst? f = none := by
  induction t using ind with
  | leaf w =>
    obtain rfl : v = w := by simpa [leaves] using hv
    exact h
  | boolean => simp [leaves] at hv
  | given s => simp [leaves] at hv
  | power a ih => simp [subst?, ih hv]
  | product a b iha ihb =>
    simp only [leaves, List.mem_append] at hv
    rcases hv with hv | hv
    · simp [subst?_product, iha hv]
    · simp [subst?_product, ihb hv]
  | data d as ih =>
    simp only [leaves, leavesAll_eq, List.mem_flatMap] at hv
    obtain ⟨a, ha, hv⟩ := hv
    have hall : ∀ bs, a ∈ bs → substAll? f bs = none := by
      intro bs hb
      induction bs with
      | nil => simp at hb
      | cons b bs ihb =>
        rcases List.mem_cons.1 hb with rfl | hb
        · simp [ih a ha hv]
        · simp [ihb hb]
    simp [subst?, hall as ha]

/-- What replacing leaves by optional trees gives. -/
theorem subst?_eq_some_iff {f : V → Option (TypeTree D W)}
    {t : TypeTree D V} {u : TypeTree D W} : t.subst? f = some u ↔
      (∀ v ∈ t.leaves, (f v).isSome) ∧ t.subst (fun v => (f v).getD default) = u := by
  constructor
  · intro h
    have hall : ∀ v ∈ t.leaves, (f v).isSome := by
      intro v hv
      by_contra hn
      rw [Option.not_isSome_iff_eq_none] at hn
      simp [subst?_eq_none hv hn] at h
    refine ⟨hall, Option.some.inj ?_⟩
    rw [← h, subst?_eq_some (g := fun v => (f v).getD default)]
    intro v hv
    obtain ⟨a, ha⟩ := Option.isSome_iff_exists.1 (hall v hv)
    simp [ha]
  · rintro ⟨hall, rfl⟩
    apply subst?_eq_some
    intro v hv
    obtain ⟨a, ha⟩ := Option.isSome_iff_exists.1 (hall v hv)
    simp [ha]

mutual

def mapData (f : D → E) : TypeTree D V → TypeTree E V
  | leaf v => leaf v
  | boolean => boolean
  | given s => given s
  | power a => power (mapData f a)
  | product a b => product (mapData f a) (mapData f b)
  | data d as => data (f d) (mapDataAll f as)

def mapDataAll (f : D → E) : List (TypeTree D V) → List (TypeTree E V)
  | [] => []
  | a :: as => mapData f a :: mapDataAll f as

end

@[simp] theorem mapDataAll_eq (f : D → E) (as : List (TypeTree D V)) :
    mapDataAll f as = as.map (mapData f) := by
  induction as with
  | nil => rfl
  | cons a as ih => simp [mapDataAll, ih]

theorem mapData_subst (f : D → E) (g : V → TypeTree D W) (t : TypeTree D V) :
    (t.subst g).mapData f = (t.mapData f).subst fun v => (g v).mapData f := by
  induction t using ind with
  | leaf v => rfl
  | boolean => rfl
  | given s => rfl
  | power a ih => simp only [subst, mapData, ih]
  | product a b iha ihb => simp only [subst, mapData, iha, ihb]
  | data d as ih => simpa [subst, mapData] using ih

@[simp] theorem leaves_mapData (f : D → E) (t : TypeTree D V) : (t.mapData f).leaves = t.leaves := by
  induction t using ind with
  | leaf v => rfl
  | boolean => rfl
  | given s => rfl
  | power a ih => simpa [mapData, leaves] using ih
  | product a b iha ihb => simp [mapData, leaves, iha, ihb]
  | data d as ih =>
    simp only [mapData, leaves, mapDataAll_eq, leavesAll_eq, List.flatMap_map]
    rw [List.flatMap_def, List.flatMap_def, List.map_congr_left ih]

@[simp] theorem givens_mapData (f : D → E) (t : TypeTree D V) : (t.mapData f).givens = t.givens := by
  induction t using ind with
  | leaf v => rfl
  | boolean => rfl
  | given s => rfl
  | power a ih => simpa [mapData, givens] using ih
  | product a b iha ihb => simp [mapData, givens, iha, ihb]
  | data d as ih =>
    simp only [mapData, givens, mapDataAll_eq, givensAll_eq, List.flatMap_map]
    rw [List.flatMap_def, List.flatMap_def, List.map_congr_left ih]

/-- The tree with the names of its datatypes. -/
def named (t : TypeTree Datatype V) : TypeTree String V := t.mapData Datatype.name

@[simp] theorem named_boolean : (boolean : TypeTree Datatype V).named = boolean := rfl

@[simp] theorem named_given (s : String) : (given s : TypeTree Datatype V).named = given s := rfl

@[simp] theorem named_power (a : TypeTree Datatype V) : (power a).named = power a.named := rfl

@[simp] theorem named_product (a b : TypeTree Datatype V) :
    (product a b).named = product a.named b.named := rfl

@[simp] theorem named_relation (a b : TypeTree Datatype V) :
    (relation a b).named = relation a.named b.named := rfl

@[simp] theorem named_data (d : Datatype) (as : List (TypeTree Datatype V)) :
    (data d as).named = data d.name (as.map named) := by simp [named, mapData]

theorem beqAll_iff [BEq V] (as bs : List (TypeTree Datatype V))
    (h : ∀ a ∈ as, ∀ b, beq a b ↔ a.named = b.named) :
    beqAll as bs ↔ as.map named = bs.map named := by
  induction as generalizing bs with
  | nil => cases bs <;> simp [beqAll]
  | cons a as ih =>
    cases bs with
    | nil => simp [beqAll]
    | cons b bs =>
      simp [beqAll, h a (by simp) b, ih bs fun c hc => h c (by simp [hc])]

/-- Trees are the same when their constructors, leaves and names are. -/
theorem beq_iff_named [BEq V] [LawfulBEq V] (a b : TypeTree Datatype V) : (a == b) = true ↔ a.named = b.named := by
  change beq a b = true ↔ _
  induction a using ind generalizing b with
  | leaf v => cases b <;> simp [beq, named, mapData]
  | boolean => cases b <;> simp [beq, named, mapData]
  | given s => cases b <;> simp [beq, named, mapData]
  | power a ih =>
    cases b with
    | power b => simpa [beq, named, mapData] using ih b
    | _ => simp [beq, named, mapData]
  | product a c iha ihc =>
    cases b with
    | product b d =>
      have h := and_congr (iha b) (ihc d)
      simpa [beq, named, mapData] using h
    | _ => simp [beq, named, mapData]
  | data d as ih =>
    cases b with
    | data e bs =>
      have h := beqAll_iff as bs ih
      simp only [beq, Bool.and_eq_true, d.beq_iff_name e, h, named, mapData, mapDataAll_eq, data.injEq]
      rfl
    | _ => simp [beq, named, mapData]

theorem depth_pos (t : TypeTree D V) : 0 < t.depth := by
  cases t <;> simp [depth]

theorem depth_le_depthAll {a : TypeTree D V} {as : List (TypeTree D V)} (h : a ∈ as) :
    a.depth ≤ depthAll as := by
  induction as with
  | nil => simp at h
  | cons b as ih =>
    rcases List.mem_cons.1 h with rfl | h
    · exact Nat.le_max_left ..
    · exact Nat.le_trans (ih h) (Nat.le_max_right ..)

theorem depthAll_le {as : List (TypeTree D V)} {n : Nat} (h : ∀ a ∈ as, a.depth ≤ n) :
    depthAll as ≤ n := by
  induction as with
  | nil => exact Nat.zero_le n
  | cons a as ih => exact Nat.max_le.2 ⟨h a (by simp), ih fun b hb => h b (by simp [hb])⟩

@[simp] theorem depth_mapData (f : D → E) (t : TypeTree D V) : (t.mapData f).depth = t.depth := by
  induction t using ind with
  | leaf v => rfl
  | boolean => rfl
  | given s => rfl
  | power a ih => simpa [mapData, depth] using ih
  | product a b iha ihb => simp [mapData, depth, iha, ihb]
  | data d as ih =>
    have h : depthAll (as.map (mapData f)) = depthAll as := by
      induction as with
      | nil => rfl
      | cons a as iha => simp [depthAll, ih a (by simp), iha fun b hb => ih b (by simp [hb])]
    simpa [mapData, depth] using h

/-- Replacing leaves by trees of bounded depth adds at most this bound. -/
theorem depth_subst_le {f : V → TypeTree D W} {t : TypeTree D V} {n : Nat}
    (h : ∀ v ∈ t.leaves, (f v).depth ≤ n) : (t.subst f).depth ≤ t.depth + n := by
  induction t using ind with
  | leaf v => exact Nat.le_trans (h v (by simp [leaves])) (Nat.le_add_left ..)
  | boolean => simp [subst, depth]
  | given s => simp [subst, depth]
  | power a ih =>
    have := ih h
    simp only [subst, depth]
    omega
  | product a b iha ihb =>
    simp only [leaves, List.mem_append] at h
    have ha := iha fun v hv => h v (.inl hv)
    have hb := ihb fun v hv => h v (.inr hv)
    simp only [subst, depth]
    omega
  | data d as ih =>
    have hall : depthAll (as.map (subst f)) ≤ depthAll as + n := by
      apply depthAll_le
      intro b hb
      obtain ⟨a, ha, rfl⟩ := List.mem_map.1 hb
      have hle := ih a ha fun v hv => h v (by simpa [leaves] using ⟨a, ha, hv⟩)
      have := depth_le_depthAll ha
      omega
    simp only [subst, depth, substAll_eq]
    omega

/-- A replaced leaf is no deeper than the whole, and less deep unless it is the whole. -/
theorem depth_le_subst {f : V → TypeTree D W} {t : TypeTree D V} {v : V} (hv : v ∈ t.leaves) :
    t = leaf v ∨ (f v).depth < (t.subst f).depth := by
  induction t using ind with
  | leaf w =>
    left
    simpa [leaves, eq_comm] using hv
  | boolean => simp [leaves] at hv
  | given s => simp [leaves] at hv
  | power a ih =>
    right
    simp only [subst, depth]
    rcases ih hv with rfl | h
    · exact Nat.lt_succ_self _
    · omega
  | product a b iha ihb =>
    right
    simp only [leaves, List.mem_append] at hv
    simp only [subst, depth]
    rcases hv with hv | hv
    · rcases iha hv with rfl | h
      · simp only [subst]
        omega
      · omega
    · rcases ihb hv with rfl | h
      · simp only [subst]
        omega
      · omega
  | data d as ih =>
    right
    simp only [leaves, leavesAll_eq, List.mem_flatMap] at hv
    obtain ⟨a, ha, hv⟩ := hv
    have hle := depth_le_depthAll (List.mem_map_of_mem (f := subst f) ha)
    simp only [subst, depth, substAll_eq]
    rcases ih a ha hv with rfl | h
    · simp only [subst] at hle
      omega
    · omega

end TypeTree
end SetLang
