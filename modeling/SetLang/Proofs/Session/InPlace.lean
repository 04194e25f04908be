import SetLang.Proofs.Typing.Principal

/-! Checks in place. A check fills the slots one after another, so that a slot that refuses its type would leave
those before it filled. None ever does: a check that fails leaves the store as it was. -/

namespace SetLang

namespace Store

variable {s s' : Store} {env inferred : Environment}

/-- Fills slots one after another, up to the first one that refuses; those before it stay filled. -/
def fillSlots : List (Nat × Ty) → Store → Except Misuse Unit × Store
  | [], s => (.ok (), s)
  | (slot, t) :: rest, s =>
    match s.resolve slot t with
    | .ok s => fillSlots rest s
    | .error m => (.error m, s)

/-- A check in place: its answer, and the store that it leaves when it succeeds and when it fails. -/
def checkInPlace {α : Type} (s : Store) (env : Environment) (collect : CheckContext → Check α) :
    Except (Fault CheckError) Environment × Store :=
  match Check.answer env s collect with
  | .error e => (.error e, s)
  | .ok r =>
    match fillSlots r.types s with
    | (.ok _, s) => (.ok r.inferred, r.marks.foldl mark s)
    | (.error m, s) => (.error (.misuse m), s)

theorem fillSlots_of_foldlM {types : List (Nat × Ty)}
    (h : types.foldlM (fun s (slot, t) => s.resolve slot t) s = .ok s') :
    fillSlots types s = (.ok (), s') := by
  induction types generalizing s with
  | nil =>
    cases h
    rfl
  | cons e types ih =>
    obtain ⟨slot, t⟩ := e
    simp only [List.foldlM_cons] at h
    unfold fillSlots
    cases hr : s.resolve slot t with
    | error m =>
      rw [hr] at h
      cases h
    | ok s₁ =>
      rw [hr] at h
      exact ih h

section
variable {α : Type} {collect : CheckContext → Check α}

theorem checkInPlace_of_ok (h : s.check env collect = .ok (inferred, s')) :
    s.checkInPlace env collect = (.ok inferred, s') := by
  obtain ⟨r, ha, hp, rfl⟩ := publish_of_check h
  unfold checkInPlace
  rw [ha]
  dsimp only
  unfold CheckResult.publish at hp
  cases hf : r.types.foldlM (fun s (slot, t) => s.resolve slot t) s with
  | error m =>
    rw [hf] at hp
    cases hp
  | ok s₁ =>
    rw [hf] at hp
    cases hp
    rw [fillSlots_of_foldlM hf]

theorem checkInPlace_of_error {e : CheckError} (h : s.check env collect = .error (.error e)) :
    s.checkInPlace env collect = (.error (.error e), s) := by
  unfold check at h
  unfold checkInPlace
  cases ha : Check.answer env s collect with
  | error e' =>
    rw [ha] at h
    cases h
    rfl
  | ok r =>
    simp only [ha, bind, Except.bind] at h
    cases hp : r.publish s with
    | error m =>
      rw [hp] at h
      cases h
    | ok s₁ =>
      rw [hp] at h
      cases h

end
end Store

namespace Formula

variable {s s' : Store} {env : Environment} {f : Formula}

def checkInPlace? (s : Store) (env : Environment) :
    Formula → Option (Except (Fault CheckError) Environment × Store)
  | expr e => some (s.checkInPlace env (e.check · .root))
  | pred p => some (s.checkInPlace env (p.check · .root))
  | assignment a => some (s.checkInPlace env a.check)
  | decl _ => none

/-- A check in place leaves the store of a successful check, and otherwise the store as it was. -/
theorem checkInPlace?_spec (hfits : f.Fits s) {r : Except (Fault CheckError) Environment}
    (hr : f.checkInPlace? s env = some (r, s')) :
    (∃ inferred, r = .ok inferred ∧ f.check? s env = some (.ok (inferred, s'))) ∨
      ∃ e, r = .error (.error e) ∧ f.check? s env = some (.error (.error e)) ∧ s' = s := by
  have hanswer : ∀ {a}, f.check? s env = some a →
      (∃ inferred s', a = .ok (inferred, s')) ∨ ∃ e, a = .error (.error e) := fun ha =>
    (check_spec hfits ha).imp (fun ⟨_, inferred, s', hok, _⟩ => ⟨inferred, s', hok⟩) And.right
  cases f with
  | decl d => cases hr
  | expr e | pred p | assignment a =>
    obtain ⟨inferred, s₁, hok⟩ | ⟨e, herror⟩ := hanswer rfl
    · cases (Store.checkInPlace_of_ok hok).symm.trans (Option.some.inj hr)
      exact .inl ⟨inferred, rfl, congrArg some hok⟩
    · cases (Store.checkInPlace_of_error herror).symm.trans (Option.some.inj hr)
      exact .inr ⟨e, rfl, congrArg some herror, rfl⟩

theorem checkInPlace?_of_ok {inferred : Environment}
    (h : f.check? s env = some (.ok (inferred, s'))) :
    f.checkInPlace? s env = some (.ok inferred, s') := by
  cases f with
  | decl d => cases h
  | expr e | pred p | assignment a =>
    exact congrArg some (Store.checkInPlace_of_ok (Option.some.inj h))

end Formula
end SetLang
