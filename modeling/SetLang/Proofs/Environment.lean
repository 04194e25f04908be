import Mathlib.Data.String.Basic
import Mathlib.Tactic.Common
import SetLang.Environment

/-! What is known after adding names and types: name sets and environments behave as sets and as
partial functions, whatever the order of the additions. -/

namespace SetLang

namespace Names

theorem mem_insert {x y : String} {ns : Names} : x ∈ insert y ns ↔ x = y ∨ x ∈ ns := by
  induction ns with
  | nil => simp [insert]
  | cons z ns ih =>
    unfold insert
    split_ifs with h1 h2
    · simp
    · subst h2
      simp
    · simp only [List.mem_cons, ih]
      tauto

theorem mem_insertAll {x : String} {new : List String} {ns : Names} :
    x ∈ insertAll new ns ↔ x ∈ ns ∨ x ∈ new := by
  unfold insertAll
  induction new generalizing ns with
  | nil => simp
  | cons y new ih =>
    rw [List.foldl_cons, ih, mem_insert, List.mem_cons]
    tauto

end Names

section lookup
variable {K V : Type} [DecidableEq K] {x y : K} {v : V} {entries : List (K × V)}

theorem lookup_cons_if :
    List.lookup y ((x, v) :: entries) = if y = x then some v else entries.lookup y := by
  rw [List.lookup_cons]
  by_cases h : y = x
  · simp [h]
  · rw [beq_eq_false_iff_ne.2 h, if_neg h]

theorem isSome_lookup_iff : (entries.lookup x).isSome ↔ x ∈ entries.map Prod.fst := by
  induction entries with
  | nil => simp
  | cons e entries ih =>
    rw [lookup_cons_if, List.map_cons, List.mem_cons, ← ih]
    split_ifs with h <;> simp [h]

theorem lookup_eq_none_iff_not_mem : entries.lookup x = none ↔ x ∉ entries.map Prod.fst := by
  rw [← isSome_lookup_iff, Option.not_isSome_iff_eq_none]

/-- With distinct keys every entry is found. -/
theorem lookup_eq_some_iff_mem (h : (entries.map Prod.fst).Nodup) :
    entries.lookup x = some v ↔ (x, v) ∈ entries := by
  induction entries with
  | nil => simp
  | cons e entries ih =>
    obtain ⟨y, w⟩ := e
    rw [List.map_cons, List.nodup_cons] at h
    rw [lookup_cons_if, List.mem_cons, ← ih h.2]
    by_cases hx : x = y
    · subst hx
      simp [lookup_eq_none_iff_not_mem.2 h.1, eq_comm]
    · simp [hx]

end lookup

namespace Environment

variable {env : Environment} {name x : String} {t : Ty}

@[simp] theorem get?_empty (x : String) : empty.get? x = none := rfl

theorem lookup_place (entries : List (String × Ty)) :
    (place name t entries).lookup x = if x = name then some t else entries.lookup x := by
  induction entries with
  | nil => rw [place, lookup_cons_if]
  | cons e entries ih =>
    obtain ⟨y, u⟩ := e
    unfold place
    split_ifs with hlt heq hx hx
    all_goals simp_all [lookup_cons_if]

theorem get?_insert : (env.insert name t).get? x = if x = name then some t else env.get? x :=
  lookup_place env.entries

theorem get?_insertGiven :
    (env.insertGiven name).get? x = if x = name then some (Ty.givenSet name) else env.get? x :=
  get?_insert

theorem get?_insertGiven_of_none (h : env.get? name = none) :
    (env.insertGiven name).get? x = (env.get? x).or (if x = name then some (Ty.givenSet name) else none) := by
  rw [get?_insertGiven]
  by_cases hx : x = name <;> simp [hx, h]

/-- Entries with distinct names all take effect. -/
theorem get?_insertAll {entries : List (String × Ty)} (h : (entries.map Prod.fst).Nodup) :
    (env.insertAll entries).get? x = (entries.lookup x).or (env.get? x) := by
  unfold insertAll
  induction entries generalizing env with
  | nil => rfl
  | cons e entries ih =>
    obtain ⟨y, u⟩ := e
    rw [List.map_cons, List.nodup_cons] at h
    rw [List.foldl_cons, ih h.2, get?_insert, lookup_cons_if]
    by_cases hx : x = y
    · subst hx
      simp [lookup_eq_none_iff_not_mem.2 h.1]
    · simp [hx]

/-- Entries that give a name the same type, whatever their order. -/
theorem get?_insertAll_of_forall {entries : List (String × Ty)} (h : ∀ u, (x, u) ∈ entries → u = t) :
    (env.insertAll entries).get? x = if x ∈ entries.map Prod.fst then some t else env.get? x := by
  unfold insertAll
  induction entries generalizing env with
  | nil => rfl
  | cons e entries ih =>
    obtain ⟨y, u⟩ := e
    rw [List.foldl_cons, ih fun u hu => h u (List.mem_cons_of_mem _ hu), get?_insert, List.map_cons]
    by_cases hx : x = y
    · subst hx
      rw [if_pos List.mem_cons_self, if_pos rfl, h u List.mem_cons_self, ite_self]
    · simp only [List.mem_cons, hx, false_or, if_false]

theorem mem_names_insert : x ∈ (env.insert name t).names ↔ x = name ∨ x ∈ env.names := by
  rw [names, names, ← isSome_lookup_iff, ← isSome_lookup_iff]
  change ((env.insert name t).get? x).isSome ↔ x = name ∨ (env.get? x).isSome
  rw [get?_insert]
  split_ifs with hx <;> simp [hx]

def Sorted (env : Environment) : Prop := env.entries.Pairwise fun e e' => e.1 < e'.1

theorem sorted_empty : empty.Sorted := .nil

theorem mem_place {e : String × Ty} {entries : List (String × Ty)} (h : e ∈ place name t entries) :
    e.1 = name ∨ e ∈ entries := by
  induction entries with
  | nil => exact .inl (by rw [List.mem_singleton.1 h])
  | cons e' entries ih =>
    obtain ⟨y, u⟩ := e'
    unfold place at h
    split_ifs at h with hlt heq
    · rcases List.mem_cons.1 h with rfl | h
      exacts [.inl rfl, .inr h]
    · rcases List.mem_cons.1 h with rfl | h
      exacts [.inl rfl, .inr (List.mem_cons_of_mem _ h)]
    · rcases List.mem_cons.1 h with rfl | h
      exacts [.inr List.mem_cons_self, (ih h).imp_right (List.mem_cons_of_mem _)]

theorem Sorted.insert (h : env.Sorted) : (env.insert name t).Sorted := by
  obtain ⟨entries⟩ := env
  change (place name t entries).Pairwise _
  unfold Sorted at h
  induction entries with
  | nil => exact List.pairwise_singleton _ _
  | cons e entries ih =>
    obtain ⟨y, u⟩ := e
    rw [List.pairwise_cons] at h
    unfold place
    split_ifs with hlt heq
    · refine List.pairwise_cons.2 ⟨List.forall_mem_cons.2 ⟨hlt, fun e he => ?_⟩, List.pairwise_cons.2 h⟩
      exact lt_trans hlt (h.1 e he)
    · subst heq
      exact List.pairwise_cons.2 h
    · refine List.pairwise_cons.2 ⟨fun e he => ?_, ih h.2⟩
      rcases mem_place he with hname | he
      · rw [hname]
        exact lt_of_le_of_ne (le_of_not_gt hlt) (Ne.symm heq)
      · exact h.1 e he

theorem Sorted.insertAll {entries : List (String × Ty)} (h : env.Sorted) :
    (env.insertAll entries).Sorted := by
  unfold Environment.insertAll
  induction entries generalizing env with
  | nil => exact h
  | cons e entries ih => exact ih h.insert

theorem Sorted.distinct (h : env.Sorted) : (env.entries.map Prod.fst).Nodup := by
  rw [List.Nodup, List.pairwise_map]
  exact h.imp fun hlt => ne_of_lt hlt

/-- The types of the new environment win. -/
theorem get?_extend {new : Environment} (h : new.Sorted) :
    (env.extend new).get? x = (new.get? x).or (env.get? x) :=
  get?_insertAll h.distinct

theorem Sorted.mem_entries (h : env.Sorted) : (x, t) ∈ env.entries ↔ env.get? x = some t :=
  (lookup_eq_some_iff_mem h.distinct).symm

/-- Environments in order that say the same of every name have the same entries. -/
theorem Sorted.map_entries_eq {V : Type} {f : Ty → V} {env' : Environment} (h : env.Sorted)
    (h' : env'.Sorted) (hget : ∀ x, (env.get? x).map f = (env'.get? x).map f) :
    env.entries.map (Prod.map id f) = env'.entries.map (Prod.map id f) := by
  have hpairwise : ∀ {env : Environment}, env.Sorted →
      (env.entries.map (Prod.map id f)).Pairwise fun e e' => e.1 < e'.1 := fun h =>
    List.pairwise_map.2 h
  have hmem : ∀ {env : Environment}, env.Sorted → ∀ e : String × V,
      e ∈ env.entries.map (Prod.map id f) ↔ (env.get? e.1).map f = some e.2 := by
    rintro env h ⟨x, v⟩
    simp [h.mem_entries]
  have hperm : (env.entries.map (Prod.map id f)).Perm (env'.entries.map (Prod.map id f)) := by
    have hnodup : ∀ {env : Environment}, env.Sorted → (env.entries.map (Prod.map id f)).Nodup :=
      fun h => (hpairwise h).imp fun hlt => fun heq => lt_irrefl _ (heq ▸ hlt)
    exact (List.perm_ext_iff_of_nodup (hnodup h) (hnodup h')).2 fun e => by rw [hmem h, hmem h', hget]
  exact hperm.eq_of_pairwise (fun _ _ _ _ hlt hgt => absurd hgt (lt_asymm hlt)) (hpairwise h)
    (hpairwise h')

theorem eq_empty_of_get? (h : ∀ x, env.get? x = none) : env = empty := by
  obtain ⟨entries⟩ := env
  cases entries with
  | nil => rfl
  | cons e entries =>
    have hfirst := h e.1
    rw [get?, lookup_cons_if, if_pos rfl] at hfirst
    cases hfirst

end Environment
end SetLang
