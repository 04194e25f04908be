import SetLang.Proofs.Environment
import SetLang.Typing.Check

/-! What a store keeps. A slot holds what was put into it last, and filling different empty slots is
never refused. -/

namespace SetLang

namespace Store

variable {s : Store} {slot x : Nat} {t : Ty}

theorem type?_put (h : slot < s.types.size) :
    (s.put slot t).type? x = if x = slot then some t else s.type? x := by
  unfold type? put
  by_cases hx : x = slot
  · subst hx
    simp [h]
  · simp [hx, Ne.symm hx]

@[simp] theorem size_put : (s.put slot t).types.size = s.types.size := by simp [put]

@[simp] theorem isMarked_put : (s.put slot t).isMarked x = s.isMarked x := rfl

@[simp] theorem type?_mark : (s.mark slot).type? x = s.type? x := rfl

@[simp] theorem size_mark : (s.mark slot).marks.size = s.marks.size := by simp [mark]

theorem isMarked_mark (h : slot < s.marks.size) :
    (s.mark slot).isMarked x = (decide (x = slot) || s.isMarked x) := by
  unfold isMarked mark
  by_cases hx : x = slot
  · subst hx
    simp [h]
  · simp [hx, Ne.symm hx]

def fill (s : Store) (types : List (Nat × Ty)) : Store := types.foldl (fun s e => s.put e.1 e.2) s

theorem type?_fill {types : List (Nat × Ty)} (hroom : ∀ e ∈ types, e.1 < s.types.size)
    (hdistinct : (types.map Prod.fst).Nodup) :
    (s.fill types).type? x = (types.lookup x).or (s.type? x) := by
  unfold fill
  induction types generalizing s with
  | nil => rfl
  | cons e types ih =>
    obtain ⟨slot, t⟩ := e
    rw [List.forall_mem_cons] at hroom
    rw [List.map_cons, List.nodup_cons] at hdistinct
    rw [List.foldl_cons, ih (by simpa using hroom.2) hdistinct.2, type?_put hroom.1, lookup_cons_if]
    by_cases hx : x = slot
    · subst hx
      simp [lookup_eq_none_iff_not_mem.2 hdistinct.1]
    · simp [hx]

@[simp] theorem isMarked_fill {types : List (Nat × Ty)} :
    (s.fill types).isMarked x = s.isMarked x := by
  unfold fill
  induction types generalizing s with
  | nil => rfl
  | cons e types ih => rw [List.foldl_cons, ih, isMarked_put]

theorem marks_fill {types : List (Nat × Ty)} : (s.fill types).marks = s.marks := by
  unfold fill
  induction types generalizing s with
  | nil => rfl
  | cons e types ih =>
    rw [List.foldl_cons, ih]
    rfl

/-- Empty slots do not refuse a type. -/
theorem foldlM_resolve {types : List (Nat × Ty)} (hroom : ∀ e ∈ types, e.1 < s.types.size)
    (hdistinct : (types.map Prod.fst).Nodup) (hempty : ∀ e ∈ types, s.type? e.1 = none) :
    types.foldlM (fun s (slot, t) => s.resolve slot t) s = .ok (s.fill types) := by
  induction types generalizing s with
  | nil => rfl
  | cons e types ih =>
    obtain ⟨slot, t⟩ := e
    rw [List.forall_mem_cons] at hroom hempty
    rw [List.map_cons, List.nodup_cons] at hdistinct
    have hput : s.resolve slot t = .ok (s.put slot t) := by
      unfold resolve
      rw [hempty.1]
    simp only [List.foldlM_cons, hput]
    refine ih (by simpa using hroom.2) hdistinct.2 fun e' he' => ?_
    rw [type?_put hroom.1, if_neg, hempty.2 e' he']
    intro heq
    exact hdistinct.1 (heq ▸ List.mem_map_of_mem he')

theorem type?_foldl_mark (marks : List Nat) : (marks.foldl mark s).type? x = s.type? x := by
  induction marks generalizing s with
  | nil => rfl
  | cons m marks ih => rw [List.foldl_cons, ih, type?_mark]

theorem isMarked_foldl_mark {marks : List Nat} (h : ∀ m ∈ marks, m < s.marks.size) :
    (marks.foldl mark s).isMarked x = (decide (x ∈ marks) || s.isMarked x) := by
  induction marks generalizing s with
  | nil => simp
  | cons m marks ih =>
    rw [List.forall_mem_cons] at h
    rw [List.foldl_cons, ih (by simpa using h.2), isMarked_mark h.1]
    by_cases hx : x = m <;> simp [hx]

end Store

/-- A check publishes the types and the marks that it found. -/
theorem CheckResult.publish_eq {r : CheckResult} {s : Store}
    (hroom : ∀ e ∈ r.types, e.1 < s.types.size) (hdistinct : (r.types.map Prod.fst).Nodup)
    (hempty : ∀ e ∈ r.types, s.type? e.1 = none) :
    r.publish s = .ok (r.marks.foldl Store.mark (s.fill r.types)) := by
  unfold publish
  rw [Store.foldlM_resolve hroom hdistinct hempty]
  rfl

namespace Store

variable {s s' : Store}

structure SameSize (s s' : Store) : Prop where
  types : s'.types.size = s.types.size
  marks : s'.marks.size = s.marks.size
  factories : s'.factories = s.factories

theorem SameSize.refl (s : Store) : s.SameSize s := ⟨rfl, rfl, rfl⟩

theorem SameSize.trans {s'' : Store} (h : s.SameSize s') (k : s'.SameSize s'') : s.SameSize s'' :=
  ⟨k.types.trans h.types, k.marks.trans h.marks, k.factories.trans h.factories⟩

theorem sizes_foldl_mark (marks : List Nat) : s.SameSize (marks.foldl mark s) := by
  induction marks generalizing s with
  | nil => exact .refl s
  | cons m marks ih =>
    have hmark : s.SameSize (s.mark m) := ⟨rfl, size_mark, rfl⟩
    exact hmark.trans ih

theorem sizes_resolve {slot : Nat} {t : Ty} (h : s.resolve slot t = .ok s') : s.SameSize s' := by
  unfold resolve at h
  split at h
  · cases h
    exact ⟨size_put, rfl, rfl⟩
  · split_ifs at h
    cases h
    exact ⟨rfl, rfl, rfl⟩

theorem sizes_foldlM_resolve {types : List (Nat × Ty)}
    (h : types.foldlM (fun s (slot, t) => s.resolve slot t) s = .ok s') : s.SameSize s' := by
  induction types generalizing s with
  | nil =>
    cases h
    exact ⟨rfl, rfl, rfl⟩
  | cons e types ih =>
    obtain ⟨slot, t⟩ := e
    simp only [List.foldlM_cons] at h
    cases hr : s.resolve slot t with
    | error m =>
      rw [hr] at h
      cases h
    | ok s₁ =>
      rw [hr] at h
      exact (sizes_resolve hr).trans (ih h)

end Store

/-- A check makes no slots. -/
theorem CheckResult.sizes_publish {r : CheckResult} {s s' : Store} (h : r.publish s = .ok s') :
    s.SameSize s' := by
  unfold publish at h
  cases hr : r.types.foldlM (fun s (slot, t) => s.resolve slot t) s with
  | error m =>
    rw [hr] at h
    cases h
  | ok s₁ =>
    rw [hr] at h
    cases h
    exact (Store.sizes_foldlM_resolve hr).trans (Store.sizes_foldl_mark r.marks)

/-- A check that succeeds publishes its answer. -/
theorem Store.publish_of_check {α : Type} {s s' : Store} {env inferred : Environment}
    {collect : CheckContext → Check α} (h : s.check env collect = .ok (inferred, s')) :
    ∃ r, Check.answer env s collect = .ok r ∧ r.publish s = .ok s' ∧ r.inferred = inferred := by
  unfold check at h
  cases ha : Check.answer env s collect with
  | error e =>
    rw [ha] at h
    cases h
  | ok r =>
    cases hp : r.publish s with
    | error m =>
      simp only [ha, hp, bind, Except.bind] at h
      cases h
    | ok s₁ =>
      simp only [ha, hp, bind, Except.bind] at h
      cases h
      exact ⟨r, rfl, hp, rfl⟩

theorem Store.sizes_check {α : Type} {s s' : Store} {env inferred : Environment}
    {collect : CheckContext → Check α} (h : s.check env collect = .ok (inferred, s')) :
    s.SameSize s' := by
  obtain ⟨r, -, hp, -⟩ := publish_of_check h
  exact CheckResult.sizes_publish hp

end SetLang
