import Mathlib.Data.List.Forall2
import Mathlib.Data.Set.Basic
import SetLang.Misuse

/-! Runs of computations that keep their state when they fail. `Succeeds` says that a run ends with
a value and what holds of it, `Yields` what holds of the value if there is one, `Faults` what holds
of the error otherwise, `Guards` both in all states with a property that the run keeps, `Twice` that
two runs end with values that go together, and `Preserves` that what is held fits the state before and
after. All follow the sequence of steps, so that each operation needs only its own statements. -/

namespace SetLang

/-- The fault is an error that the operation reports, not a misuse. -/
def Fault.Reported {ε : Type} (e : Fault ε) : Prop := ∃ reason, e = .error reason

/-- Related lists are related at each place. -/
theorem forall₂_getElem? {α β : Type*} {R : α → β → Prop} {xs : List α} {ys : List β}
    (h : List.Forall₂ R xs ys) {i : Nat} {x : α} {y : β} (hx : xs[i]? = some x)
    (hy : ys[i]? = some y) : R x y := by
  obtain ⟨hi, rfl⟩ := List.getElem?_eq_some_iff.1 hx
  obtain ⟨hj, rfl⟩ := List.getElem?_eq_some_iff.1 hy
  exact h.get hi hj

/-- Every member of a list is related to some member of the other. -/
theorem forall₂_exists_right {α β : Type*} {R : α → β → Prop} {xs : List α} {ys : List β}
    (h : List.Forall₂ R xs ys) {x : α} (hx : x ∈ xs) : ∃ y ∈ ys, R x y := by
  induction h with
  | nil => cases hx
  | cons hhead _ ih =>
    rcases List.mem_cons.1 hx with rfl | hx
    · exact ⟨_, List.mem_cons_self, hhead⟩
    · obtain ⟨y, hy, hxy⟩ := ih hx
      exact ⟨y, List.mem_cons_of_mem _ hy, hxy⟩

/-- Lists that are related to one list are related to each other. -/
theorem forall₂_join {α β γ : Type*} {R : α → β → Prop} {Q : α → γ → Prop} {P : β → γ → Prop}
    {xs : List α} {ys : List β} {zs : List γ} (h : List.Forall₂ R xs ys) (k : List.Forall₂ Q xs zs)
    (hP : ∀ x ∈ xs, ∀ y z, R x y → Q x z → P y z) : List.Forall₂ P ys zs := by
  induction h generalizing zs with
  | nil =>
    cases k
    exact .nil
  | cons hxy _ ih =>
    obtain ⟨z, zs, hxz, hrest, rfl⟩ := List.forall₂_cons_left_iff.1 k
    rw [List.forall_mem_cons] at hP
    exact .cons (hP.1 _ _ hxy hxz) (ih hrest hP.2)

theorem ne_nil_of_forall₂ {α β : Type*} {R : α → β → Prop} {xs : List α} {ys : List β}
    (h : List.Forall₂ R xs ys) (hne : xs ≠ []) : ys ≠ [] := by
  rintro rfl
  exact hne (List.forall₂_nil_right_iff.1 h)

/-- What stands at a place of a list is related to what stands there in the other. -/
theorem forall₂_exists_getElem? {α β : Type*} {R : α → β → Prop} {xs : List α} {ys : List β}
    (h : List.Forall₂ R xs ys) {i : Nat} {x : α} (hx : xs[i]? = some x) :
    ∃ y, ys[i]? = some y ∧ R x y := by
  have hi : i < ys.length := h.length_eq ▸ (List.getElem?_eq_some_iff.1 hx).1
  exact ⟨ys[i], List.getElem?_eq_getElem hi, forall₂_getElem? h hx (List.getElem?_eq_getElem hi)⟩

variable {ε σ α β : Type}

/-- The run ends with a value for which `Q` holds. -/
def Succeeds (x : ExceptT ε (StateM σ) α) (s : σ) (Q : α → σ → Prop) : Prop :=
  ∃ a s', x.run s = (.ok a, s') ∧ Q a s'

def Yields (x : ExceptT ε (StateM σ) α) (s : σ) (Q : α → σ → Prop) : Prop :=
  ∀ a s', x.run s = (.ok a, s') → Q a s'

def Faults (x : ExceptT ε (StateM σ) α) (s : σ) (P : ε → Prop) : Prop :=
  ∀ e, (x.run s).1 = .error e → P e

variable {x : ExceptT ε (StateM σ) α} {f : α → ExceptT ε (StateM σ) β} {s s' : σ}
  {Q Q' : α → σ → Prop} {R : β → σ → Prop}

theorem run_bind (x : ExceptT ε (StateM σ) α) (f : α → ExceptT ε (StateM σ) β) (s : σ) :
    (x >>= f).run s = match x.run s with
      | (.ok a, s') => (f a).run s'
      | (.error e, s') => (.error e, s') := by
  simp only [bind, ExceptT.bind, ExceptT.mk, ExceptT.run, StateT.bind, ExceptT.bindCont]
  rcases x s with ⟨r, s'⟩
  cases r <;> rfl

@[simp] theorem run_pure (a : α) (s : σ) : (pure a : ExceptT ε (StateM σ) α).run s = (.ok a, s) := rfl

@[simp] theorem run_get (s : σ) : (get : ExceptT ε (StateM σ) σ).run s = (.ok s, s) := rfl

@[simp] theorem run_modify (g : σ → σ) (s : σ) :
    (modify g : ExceptT ε (StateM σ) Unit).run s = (.ok (), g s) := rfl

@[simp] theorem run_modifyGet (g : σ → α × σ) (s : σ) :
    (modifyGet g : ExceptT ε (StateM σ) α).run s = (.ok (g s).1, (g s).2) := rfl

theorem run_bind_ok {a : α} (h : x.run s = (.ok a, s')) : (x >>= f).run s = (f a).run s' := by
  rw [run_bind, h]

/-- What a run ends in does not depend on what is made of its value. -/
theorem snd_run_bind_pure (x : ExceptT ε (StateM σ) α) (g : α → β) (s : σ) :
    ((x >>= fun a => pure (g a)).run s).2 = (x.run s).2 := by
  rw [run_bind]
  rcases x.run s with ⟨_ | _, _⟩ <;> rfl

theorem run_map (g : α → β) (x : ExceptT ε (StateM σ) α) (s : σ) :
    (g <$> x).run s = match x.run s with
      | (.ok a, s') => (.ok (g a), s')
      | (.error e, s') => (.error e, s') := by
  rw [map_eq_pure_bind, run_bind]
  rfl

namespace Succeeds

theorem pure {a : α} (h : Q a s) : Succeeds (pure a : ExceptT ε (StateM σ) α) s Q := ⟨a, s, rfl, h⟩

theorem bind (h : Succeeds x s Q) (k : ∀ a s', Q a s' → Succeeds (f a) s' R) :
    Succeeds (x >>= f) s R := by
  obtain ⟨a, s', hx, hQ⟩ := h
  obtain ⟨b, s'', hf, hR⟩ := k a s' hQ
  exact ⟨b, s'', (run_bind_ok hx).trans hf, hR⟩

theorem bind_run {a : α} (h : x.run s = (.ok a, s')) (k : Succeeds (f a) s' R) :
    Succeeds (x >>= f) s R := by
  obtain ⟨b, s'', hf, hR⟩ := k
  exact ⟨b, s'', (run_bind_ok h).trans hf, hR⟩

theorem map {g : α → β} (h : Succeeds x s fun a s' => R (g a) s') : Succeeds (g <$> x) s R := by
  obtain ⟨a, s', hx, hR⟩ := h
  exact ⟨g a, s', by rw [run_map, hx], hR⟩

theorem mono (h : Succeeds x s Q) (k : ∀ a s', Q a s' → Q' a s') : Succeeds x s Q' := by
  obtain ⟨a, s', hx, hQ⟩ := h
  exact ⟨a, s', hx, k a s' hQ⟩

/-- Steps one after the other, of which each leads on from the state before it. -/
theorem chain {le : σ → σ → Prop} (htrans : ∀ {a b c}, le a b → le b c → le a c)
    (h : Succeeds x s fun a s' => le s s' ∧ Q a s')
    (k : ∀ a s', le s s' → Q a s' → Succeeds (f a) s' fun b s'' => le s' s'' ∧ R b s'') :
    Succeeds (x >>= f) s fun b s' => le s s' ∧ R b s' :=
  h.bind fun a s' ha => (k a s' ha.1 ha.2).mono fun _ _ hb => ⟨htrans ha.1 hb.1, hb.2⟩

theorem and_yields (h : Succeeds x s Q) (k : Yields x s Q') :
    Succeeds x s fun a s' => Q a s' ∧ Q' a s' := by
  obtain ⟨a, s', hx, hQ⟩ := h
  exact ⟨a, s', hx, hQ, k a s' hx⟩

theorem yields (h : Succeeds x s Q) : Yields x s Q := by
  obtain ⟨b, s', hx, hQ⟩ := h
  intro a s'' hx'
  cases hx.symm.trans hx'
  exact hQ

/-- A loop, where each step keeps what the steps before it have made. -/
theorem mapM {le : σ → σ → Prop} [Std.Refl le] [IsTrans σ le] {xs : List α} {g : α → ExceptT ε (StateM σ) β}
    {P : α → β → σ → Prop} (hP : ∀ a b t u, le t u → P a b t → P a b u)
    (h : ∀ a ∈ xs, ∀ t, le s t → Succeeds (g a) t fun b u => le t u ∧ P a b u) :
    Succeeds (xs.mapM g) s fun bs t => le s t ∧ List.Forall₂ (fun a b => P a b t) xs bs := by
  induction xs generalizing s with
  | nil => exact pure ⟨Std.Refl.refl s, .nil⟩
  | cons a xs ih =>
    rw [List.forall_mem_cons] at h
    rw [List.mapM_cons]
    refine (h.1 s (Std.Refl.refl s)).bind fun b s₁ h₁ => ?_
    refine (ih fun a ha t k => h.2 a ha t (IsTrans.trans _ _ _ h₁.1 k)).bind fun bs s₂ h₂ => pure ?_
    exact ⟨IsTrans.trans _ _ _ h₁.1 h₂.1, .cons (hP a b _ _ h₂.1 h₁.2) h₂.2⟩

end Succeeds

namespace Yields

theorem pure {a : α} (h : Q a s) : Yields (pure a : ExceptT ε (StateM σ) α) s Q := by
  rintro b s' hb
  cases hb
  exact h

theorem throw {e : ε} : Yields (throw e : ExceptT ε (StateM σ) α) s Q := by
  rintro b s' hb
  cases hb

theorem bind (h : Yields x s Q) (k : ∀ a s', Q a s' → Yields (f a) s' R) :
    Yields (x >>= f) s R := by
  intro b s'' hb
  rw [run_bind] at hb
  rcases hx : x.run s with ⟨r, s'⟩
  rw [hx] at hb
  cases r with
  | ok a => exact k a s' (h a s' hx) b s'' hb
  | error e => cases hb

theorem bind_any (k : ∀ a s', Yields (f a) s' R) : Yields (x >>= f) s R :=
  bind (fun _ _ _ => trivial) fun a s' (_ : True) => k a s'

theorem map {g : α → β} (h : Yields x s fun a s' => R (g a) s') : Yields (g <$> x) s R := by
  rw [map_eq_pure_bind]
  exact h.bind fun a s' hR => Yields.pure hR

theorem mono (h : Yields x s Q) (k : ∀ a s', Q a s' → Q' a s') : Yields x s Q' :=
  fun a s' hx => k a s' (h a s' hx)

theorem and (h : Yields x s Q) (k : Yields x s Q') : Yields x s fun a s' => Q a s' ∧ Q' a s' :=
  fun a s' hx => ⟨h a s' hx, k a s' hx⟩

/-- What holds of the values of a loop, whatever the states are. -/
theorem mapM {xs : List α} {f : α → ExceptT ε (StateM σ) β} {P : α → β → Prop}
    (h : ∀ a ∈ xs, ∀ s, Yields (f a) s fun b _ => P a b) :
    Yields (xs.mapM f) s fun bs _ => List.Forall₂ P xs bs := by
  induction xs generalizing s with
  | nil => exact Yields.pure .nil
  | cons a xs ih =>
    rw [List.mapM_cons]
    refine (h a List.mem_cons_self s).bind fun b s₁ hb => ?_
    refine (ih fun a ha => h a (List.mem_cons_of_mem _ ha)).bind fun bs s₂ hbs => ?_
    exact Yields.pure (.cons hb hbs)

end Yields

namespace Faults

variable {E : ε → Prop}

theorem pure {a : α} : Faults (pure a : ExceptT ε (StateM σ) α) s E := fun _ h => by cases h

theorem bind (h : Faults x s E) (k : ∀ a s', x.run s = (.ok a, s') → Faults (f a) s' E) :
    Faults (x >>= f) s E := by
  intro e he
  rw [run_bind] at he
  rcases hx : x.run s with ⟨r, s'⟩
  rw [hx] at he
  cases r with
  | ok a => exact k a s' hx e he
  | error e' =>
    cases he
    exact h e (by rw [hx])

end Faults

/-- In states where `I` holds the run keeps `I`, its value is as `K` says and its error as `E` says. -/
structure Guards (I : σ → Prop) (E : ε → Prop) (x : ExceptT ε (StateM σ) α) (K : α → Prop) : Prop where
  yields : ∀ s, I s → Yields x s fun a s' => I s' ∧ K a
  faults : ∀ s, I s → Faults x s E

namespace Guards

variable {γ : Type} {I : σ → Prop} {E : ε → Prop} {K K' : α → Prop} {L : β → Prop}

theorem pure {a : α} (h : K a) : Guards I E (pure a : ExceptT ε (StateM σ) α) K :=
  ⟨fun _ hI => Yields.pure ⟨hI, h⟩, fun _ _ => Faults.pure⟩

theorem throw {e : ε} (h : E e) : Guards I E (throw e : ExceptT ε (StateM σ) α) K :=
  ⟨fun _ _ => Yields.throw, fun _ _ e' he => by cases he; exact h⟩

theorem modify {g : σ → σ} (h : ∀ s, I s → I (g s)) :
    Guards I E (modify g : ExceptT ε (StateM σ) Unit) fun _ => True :=
  ⟨fun s hI _ _ hrun => by cases hrun; exact ⟨h s hI, trivial⟩, fun _ _ _ he => by cases he⟩

theorem bind (h : Guards I E x K) (k : ∀ a, K a → Guards I E (f a) L) : Guards I E (x >>= f) L :=
  ⟨fun s hI => (h.yields s hI).bind fun a s' ⟨hI', ha⟩ => (k a ha).yields s' hI',
    fun s hI => (h.faults s hI).bind fun a s' hrun =>
      (k a (h.yields s hI a s' hrun).2).faults s' (h.yields s hI a s' hrun).1⟩

theorem get_bind {f : σ → ExceptT ε (StateM σ) β} (h : ∀ s, I s → Guards I E (f s) L) :
    Guards I E (get >>= f) L :=
  ⟨fun s hI => (h s hI).yields s hI, fun s hI => (h s hI).faults s hI⟩

theorem forM {xs : List γ} {f : γ → ExceptT ε (StateM σ) PUnit}
    (h : ∀ x ∈ xs, Guards I E (f x) fun _ => True) : Guards I E (xs.forM f) fun _ => True := by
  induction xs with
  | nil => exact pure trivial
  | cons x xs ih =>
    rw [List.forall_mem_cons] at h
    exact h.1.bind fun _ _ => ih h.2

theorem foldlM {xs : List γ} {f : α → γ → ExceptT ε (StateM σ) α} {a : α} (ha : K a)
    (h : ∀ a, K a → ∀ x ∈ xs, Guards I E (f a x) K) : Guards I E (xs.foldlM f a) K := by
  induction xs generalizing a with
  | nil => exact pure ha
  | cons x xs ih =>
    rw [List.foldlM_cons]
    exact (h a ha x List.mem_cons_self).bind fun b hb =>
      ih hb fun a ha x hx => h a ha x (List.mem_cons_of_mem _ hx)

theorem mapM {xs : List γ} {f : γ → ExceptT ε (StateM σ) α}
    (h : ∀ x ∈ xs, Guards I E (f x) fun _ => True) : Guards I E (xs.mapM f) fun _ => True := by
  induction xs with
  | nil => exact pure trivial
  | cons x xs ih =>
    rw [List.forall_mem_cons] at h
    rw [List.mapM_cons]
    exact h.1.bind fun _ _ => (ih h.2).bind fun _ _ => pure trivial

end Guards

section
variable {γ δ : Type} {le : σ → σ → Prop} {y : ExceptT ε (StateM σ) β} {P : α → β → σ → σ → Prop}
  {L : γ → δ → σ → σ → Prop}

/-- Two runs, each of which ends with a value in a state that follows its first one, with values as stated. -/
def Twice (le : σ → σ → Prop) (x : ExceptT ε (StateM σ) α) (y : ExceptT ε (StateM σ) β) (s s' : σ)
    (P : α → β → σ → σ → Prop) : Prop :=
  Succeeds x s fun a t => Succeeds y s' fun b t' => le s t ∧ le s' t' ∧ P a b t t'

namespace Twice

theorem pure [Std.Refl le] {a : α} {b : β} (h : P a b s s') :
    Twice le (pure a : ExceptT ε (StateM σ) α) (pure b) s s' P :=
  ⟨a, s, rfl, b, s', rfl, Std.Refl.refl s, Std.Refl.refl s', h⟩

theorem bind [IsTrans σ le] {f : α → ExceptT ε (StateM σ) γ} {g : β → ExceptT ε (StateM σ) δ}
    (h : Twice le x y s s' P)
    (k : ∀ a b t t', le s t → le s' t' → P a b t t' → Twice le (f a) (g b) t t' L) :
    Twice le (x >>= f) (y >>= g) s s' L := by
  obtain ⟨a, t, hx, b, t', hy, hle, hle', hP⟩ := h
  obtain ⟨c, u, hf, d, u', hg, hle₁, hle₁', hL⟩ := k a b t t' hle hle' hP
  exact ⟨c, u, (run_bind_ok hx).trans hf, d, u', (run_bind_ok hy).trans hg,
    IsTrans.trans _ _ _ hle hle₁, IsTrans.trans _ _ _ hle' hle₁', hL⟩

/-- Computations that run like others. -/
theorem of_run {x' : ExceptT ε (StateM σ) α} {y' : ExceptT ε (StateM σ) β} (hx : x.run s = x'.run s)
    (hy : y.run s' = y'.run s') (h : Twice le x' y' s s' P) : Twice le x y s s' P := by
  obtain ⟨a, t, hx', b, t', hy', h⟩ := h
  exact ⟨a, t, hx.trans hx', b, t', hy.trans hy', h⟩

/-- First steps that only read the state. -/
theorem bind_run {f : α → ExceptT ε (StateM σ) γ} {g : β → ExceptT ε (StateM σ) δ} {a : α} {b : β}
    (hx : x.run s = (.ok a, s)) (hy : y.run s' = (.ok b, s')) (k : Twice le (f a) (g b) s s' L) :
    Twice le (x >>= f) (y >>= g) s s' L := of_run (run_bind_ok hx) (run_bind_ok hy) k

theorem mono {P' : α → β → σ → σ → Prop} (h : Twice le x y s s' P)
    (k : ∀ a b t t', le s t → le s' t' → P a b t t' → P' a b t t') : Twice le x y s s' P' :=
  Succeeds.mono h fun a t h => h.mono fun b t' h => ⟨h.1, h.2.1, k a b t t' h.1 h.2.1 h.2.2⟩

/-- Two runs of which each is known to succeed. -/
theorem both {Q : α → σ → Prop} {Q' : β → σ → Prop} (hx : Succeeds x s fun a t => le s t ∧ Q a t)
    (hy : Succeeds y s' fun b t' => le s' t' ∧ Q' b t') :
    Twice le x y s s' fun a b t t' => Q a t ∧ Q' b t' :=
  hx.mono fun _ _ h => hy.mono fun _ _ h' => ⟨h.1, h'.1, h.2, h'.2⟩

/-- Two runs of which each is known to succeed, with values that agree. -/
theorem of_succeeds {Q : α → σ → Prop} {Q' : β → σ → Prop} {R : α → β → Prop}
    (hx : Succeeds x s fun a t => le s t ∧ Q a t) (hy : Succeeds y s' fun b t' => le s' t' ∧ Q' b t')
    (h : Yields x s fun a _ => Yields y s' fun b _ => R a b) :
    Twice le x y s s' fun a b t t' => Q a t ∧ Q' b t' ∧ R a b :=
  (hx.and_yields h).mono fun _ _ h => (hy.and_yields h.2).mono fun _ _ h' =>
    ⟨h.1.1, h'.1.1, h.1.2, h'.1.2, h'.2⟩

/-- A run of which two runs are known. -/
theorem self {P : α → α → σ → σ → Prop} (h : Twice le x x s s P) : Succeeds x s fun a t => le s t ∧ P a a t t := by
  obtain ⟨a, t, hx, b, t', hx', hle, -, hP⟩ := h
  cases hx.symm.trans hx'
  exact ⟨a, t, hx, hle, hP⟩

theorem with_runs (h : Twice le x y s s' P) : Twice le x y s s' fun a b t t' =>
    (x.run s = (.ok a, t) ∧ y.run s' = (.ok b, t')) ∧ P a b t t' := by
  obtain ⟨a, t, hx, b, t', hy, hle, hle', hP⟩ := h
  exact ⟨a, t, hx, b, t', hy, hle, hle', ⟨hx, hy⟩, hP⟩

end Twice

/-- Two loops over one list, where each step keeps what the steps before it have made. -/
theorem Twice.mapM [Std.Refl le] [IsTrans σ le] {xs : List γ} {f : γ → ExceptT ε (StateM σ) α}
    {g : γ → ExceptT ε (StateM σ) β} {P : γ → α → β → σ → σ → Prop}
    (hP : ∀ x a b t t' u u', le t u → le t' u' → P x a b t t' → P x a b u u')
    (h : ∀ x ∈ xs, ∀ t t', le s t → le s' t' → Twice le (f x) (g x) t t' (P x)) :
    Twice le (xs.mapM f) (xs.mapM g) s s' fun as bs t t' =>
      ∃ abs : List (α × β), as = abs.map Prod.fst ∧ bs = abs.map Prod.snd ∧
        List.Forall₂ (fun x ab => P x ab.1 ab.2 t t') xs abs := by
  induction xs generalizing s s' with
  | nil => exact Twice.pure ⟨[], rfl, rfl, .nil⟩
  | cons x xs ih =>
    rw [List.forall_mem_cons] at h
    rw [List.mapM_cons, List.mapM_cons]
    refine (h.1 s s' (Std.Refl.refl s) (Std.Refl.refl s')).bind fun a b t t' hle hle' hab => ?_
    refine (ih fun x hx u u' k k' => h.2 x hx u u' (IsTrans.trans _ _ _ hle k)
      (IsTrans.trans _ _ _ hle' k')).bind fun as bs u u' k k' hrest => ?_
    obtain ⟨abs, rfl, rfl, habs⟩ := hrest
    exact Twice.pure ⟨(a, b) :: abs, rfl, rfl, .cons (hP x a b _ _ _ _ k k' hab) habs⟩

end

/-- What computations keep: how what is held fits the state, and in what order states come. -/
structure Invariant (σ γ : Type) where
  Fits : σ → Set γ → Prop
  Later : σ → σ → Prop
  refl : ∀ s, Later s s
  trans : ∀ {s s' s''}, Later s s' → Later s' s'' → Later s s''

section
variable {γ : Type} {I : Invariant σ γ} {held : Set γ} {K K' : α → σ → Set γ → Prop}
  {L : β → σ → Set γ → Prop}

/-- If what is held fits the state before the run, then the state after it is a later one that more
may fit, and the value of the run is as stated. -/
def Preserves (I : Invariant σ γ) (x : ExceptT ε (StateM σ) α) (s : σ) (held : Set γ)
    (K : α → σ → Set γ → Prop) : Prop :=
  I.Fits s held → ∃ held', held ⊆ held' ∧ I.Later s (x.run s).2 ∧ I.Fits (x.run s).2 held' ∧
    ∀ a, (x.run s).1 = .ok a → K a (x.run s).2 held'

namespace Preserves

theorem pure {a : α} (h : I.Fits s held → K a s held) :
    Preserves I (pure a : ExceptT ε (StateM σ) α) s held K :=
  fun hI => ⟨held, Set.Subset.rfl, I.refl s, hI, fun b hb => by cases hb; exact h hI⟩

theorem throw {e : ε} : Preserves I (throw e : ExceptT ε (StateM σ) α) s held K :=
  fun hI => ⟨held, Set.Subset.rfl, I.refl s, hI, fun b hb => by cases hb⟩

theorem bind (h : Preserves I x s held K)
    (k : ∀ a s' held', held ⊆ held' → I.Later s s' → K a s' held' →
      Preserves I (f a) s' held' L) :
    Preserves I (x >>= f) s held L := by
  intro hI
  obtain ⟨held', hsub, hlater, hI', hK⟩ := h hI
  rw [run_bind]
  rcases hx : x.run s with ⟨r, s'⟩
  rw [hx] at hlater hI' hK
  cases r with
  | ok a =>
    obtain ⟨held'', hsub', hlater', hI'', hL⟩ := k a s' held' hsub hlater (hK a rfl) hI'
    exact ⟨held'', hsub.trans hsub', I.trans hlater hlater', hI'', hL⟩
  | error e => exact ⟨held', hsub, hlater, hI', fun b hb => by cases hb⟩

/-- A step that only reads the state. -/
theorem bind_run {a : α} (h : x.run s = (.ok a, s)) (k : Preserves I (f a) s held L) :
    Preserves I (x >>= f) s held L := by
  intro hI
  obtain ⟨held', hsub, hlater, hI', hL⟩ := k hI
  rw [run_bind_ok h]
  exact ⟨held', hsub, hlater, hI', hL⟩

theorem mono (h : Preserves I x s held K)
    (k : ∀ a s' held', held ⊆ held' → I.Later s s' → K a s' held' → K' a s' held') :
    Preserves I x s held K' := by
  intro hI
  obtain ⟨held', hsub, hlater, hI', hK⟩ := h hI
  exact ⟨held', hsub, hlater, hI', fun a ha => k a _ held' hsub hlater (hK a ha)⟩

theorem and_yields (h : Preserves I x s held K) (k : Yields x s Q) :
    Preserves I x s held fun a s' held' => K a s' held' ∧ Q a s' := by
  intro hI
  obtain ⟨held', hsub, hlater, hI', hK⟩ := h hI
  exact ⟨held', hsub, hlater, hI', fun a ha => ⟨hK a ha, k a _ (Prod.ext ha rfl)⟩⟩

theorem map {g : α → β} (h : Preserves I x s held fun a s' held' => L (g a) s' held') :
    Preserves I (g <$> x) s held L := by
  rw [map_eq_pure_bind]
  exact h.bind fun a s' held' _ _ hL => Preserves.pure fun _ => hL

/-- A loop, where each step has all that the steps before it have made. -/
theorem mapM {xs : List β} {f : β → ExceptT ε (StateM σ) α} {D : β → σ → Set γ → Prop}
    (hD : ∀ b s s' held held', I.Later s s' → held ⊆ held' → D b s held → D b s' held')
    (hK : ∀ a s s' held held', I.Later s s' → held ⊆ held' → K a s held → K a s' held')
    (h : ∀ b ∈ xs, ∀ s held, D b s held → Preserves I (f b) s held K)
    (hxs : ∀ b ∈ xs, D b s held) :
    Preserves I (xs.mapM f) s held fun as s' held' => ∀ a ∈ as, K a s' held' := by
  induction xs generalizing s held with
  | nil => exact Preserves.pure fun _ => by simp
  | cons b xs ih =>
    rw [List.mapM_cons]
    refine (h b (by simp) s held (hxs b (by simp))).bind fun a s₁ held₁ hsub hlater ha => ?_
    refine (ih (fun b hb => h b (by simp [hb])) fun b hb =>
      hD b _ _ _ _ hlater hsub (hxs b (by simp [hb]))).bind fun as s₂ held₂ hsub' hlater' has => ?_
    exact Preserves.pure fun _ => List.forall_mem_cons.2 ⟨hK a _ _ _ _ hlater' hsub' ha, has⟩

/-- A loop over what does not depend on the state. -/
theorem each {xs : List β} {f : β → ExceptT ε (StateM σ) α} {P : α → Set γ → Prop}
    (hP : ∀ a held held', held ⊆ held' → P a held → P a held')
    (h : ∀ b ∈ xs, ∀ s held', held ⊆ held' → Preserves I (f b) s held' fun a _ held'' => P a held'') :
    Preserves I (xs.mapM f) s held fun as _ held' => ∀ a ∈ as, P a held' :=
  mapM (D := fun _ _ held' => held ⊆ held') (fun _ _ _ _ _ _ hsub h => h.trans hsub)
    (fun a _ _ _ _ _ hsub ha => hP a _ _ hsub ha) h fun _ _ => Set.Subset.rfl

/-- What a loop makes is all held in the end. -/
theorem loop {xs : List β} {f : β → ExceptT ε (StateM σ) α} (item : α → γ)
    (h : ∀ b ∈ xs, ∀ s held', held ⊆ held' →
      Preserves I (f b) s held' fun a _ held'' => item a ∈ held'') :
    Preserves I (xs.mapM f) s held fun as _ held' => ∀ a ∈ as, item a ∈ held' :=
  each (fun _ _ _ hsub ha => hsub ha) h

/-- What fits may be used for what is kept. -/
theorem of_fits (h : I.Fits s held → Preserves I x s held K) : Preserves I x s held K :=
  fun hI => h hI hI

end Preserves
end
end SetLang
