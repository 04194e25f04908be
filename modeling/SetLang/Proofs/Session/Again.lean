import SetLang.Proofs.Session.Sound

/-! Checking again. A check that has succeeded succeeds once more and changes nothing, and in the
environment with the names that it has inferred nothing is left to infer. The typing that was published
types the formula in the new store too, and it is the only one that can. -/

namespace SetLang

def Environment.named (env : Environment) : List (String × GroundTy) :=
  env.entries.map (Prod.map id TypeTree.named)

variable {s s' : Store} {env inferred : Environment} {f : Formula} {τ τ' : Typing}

/-! What is inferred comes in the order of the names. -/

theorem Collected.sorted_inferGivens {names : Names} {r : Environment} (h : inferred.Sorted)
    (hr : inferGivens env names inferred = .ok r) : r.Sorted := by
  induction names generalizing inferred with
  | nil =>
    cases hr
    exact h
  | cons x names ih =>
    unfold inferGivens at hr
    split at hr
    · split_ifs at hr
      exact ih h hr
    · exact ih h.insert hr

theorem Collected.sorted_finish {c : Collected} {r : CheckResult} (hr : c.finish env = .ok r) :
    r.inferred.Sorted := by
  cases htypes : c.solveAll c.pendingSlots with
  | error e =>
    rw [finish, htypes] at hr
    cases hr
  | ok types =>
    cases hfree : c.solveAll c.free with
    | error e =>
      rw [finish, htypes, hfree] at hr
      cases hr
    | ok free =>
      rw [finish_eq htypes hfree] at hr
      cases hinf : inferGivens env (c.givensWith types free) (Environment.empty.insertAll free) with
      | error e =>
        rw [hinf] at hr
        cases hr
      | ok inferred =>
        rw [hinf] at hr
        cases hr
        exact sorted_inferGivens Environment.sorted_empty.insertAll hinf

theorem Store.sorted_check {α : Type} {collect : CheckContext → Check α}
    (h : s.check env collect = .ok (inferred, s')) : inferred.Sorted := by
  obtain ⟨r, ha, -, rfl⟩ := publish_of_check h
  unfold Check.answer at ha
  split at ha
  · exact Collected.sorted_finish ha
  · cases ha

theorem Formula.sorted_check? (hr : f.check? s env = some (.ok (inferred, s'))) : inferred.Sorted := by
  cases f with
  | expr e => exact Store.sorted_check (Option.some.inj hr)
  | pred p => exact Store.sorted_check (Option.some.inj hr)
  | assignment a => exact Store.sorted_check (Option.some.inj hr)
  | decl d => cases hr

theorem Store.eq_of_slots (h : s.SameSize s') (htypes : ∀ x, s'.type? x = s.type? x)
    (hmarks : ∀ x, s'.isMarked x = s.isMarked x) : s' = s := by
  obtain ⟨types, marks, factories⟩ := s
  obtain ⟨types', marks', factories'⟩ := s'
  obtain rfl : factories' = factories := h.factories
  obtain rfl : types' = types := by
    refine Array.ext h.types fun i hi hi' => ?_
    simpa [type?, hi, hi'] using htypes i
  obtain rfl : marks' = marks := by
    refine Array.ext h.marks fun i hi hi' => ?_
    simpa [isMarked, hi, hi'] using hmarks i
  rfl

namespace Typing

theorem Types.earlier (h : τ.Types s' env f) (k : s.Later s') : τ.Types s env f :=
  ⟨fun slot t ht => h.resolved slot t (k.type? slot t ht), h.node⟩

namespace Published

theorem resolved (h : τ.Published s s' env inferred f) (hτ : τ.Types s env f) {slot : Nat} {t : Ty}
    (ht : s'.type? slot = some t) : τ.slot slot = t.named := by
  by_cases hslot : slot ∈ f.typeSlots
  · have htype := h.types slot hslot
    rw [ht] at htype
    exact (Option.some.inj htype).symm
  · rw [h.kept slot (.inl hslot)] at ht
    exact hτ.resolved slot t ht

/-- Every typing in the new store says of the slots what was published. -/
theorem slot_eq {env' : Environment} (h : τ.Published s s' env inferred f)
    (hτ' : τ'.Types s' env' f) {slot : Nat} (hslot : slot ∈ f.typeSlots) :
    τ'.slot slot = τ.slot slot := by
  obtain ⟨t, ht, heq⟩ := Option.map_eq_some_iff.1 (h.types slot hslot)
  rw [hτ'.resolved slot t ht, heq]

/-- Where everything was published, publishing again changes nothing. -/
theorem eq_of_published {s'' : Store} {env' inferred' : Environment}
    (h : τ.Published s s' env inferred f) (h' : τ.Published s' s'' env' inferred' f)
    (hsize : s'.SameSize s'') : s'' = s' := by
  refine Store.eq_of_slots hsize (fun x => h'.kept x ?_) fun x => ?_
  · by_cases hx : x ∈ f.typeSlots
    · refine .inr fun hnone => ?_
      have htype := h.types x hx
      rw [hnone] at htype
      cases htype
    · exact .inl hx
  · rw [Bool.eq_iff_iff, h'.marks]
    exact ⟨fun hx => hx.elim id fun hin => (h.marks x).2 (.inr hin), .inl⟩

theorem env_get?_eq_none (h : τ.Published s s' env inferred f) {x : String} {t : Ty}
    (ht : inferred.get? x = some t) : env.get? x = none :=
  ((h.inferred x t.named).1 (by rw [ht]; rfl)).1

/-- With the inferred names the environment knows every free identifier. -/
theorem get?_extend (h : τ.Published s s' env inferred f) (hsorted : inferred.Sorted) {x : String}
    (hx : x ∈ f.freeNames) : ((env.extend inferred).get? x).map TypeTree.named =
      some (((env.get? x).map TypeTree.named).getD (τ.free x)) := by
  rw [Environment.get?_extend hsorted]
  cases henv : env.get? x with
  | some t =>
    cases hinf : inferred.get? x with
    | some u => simp [h.env_get?_eq_none hinf] at henv
    | none => rfl
  | none =>
    rw [Option.or_none]
    exact (h.inferred x (τ.free x)).2 ⟨henv, .inl ⟨hx, rfl⟩⟩

theorem extend_get?_ne_none (h : τ.Published s s' env inferred f) (hsorted : inferred.Sorted)
    {x : String} (hx : x ∈ f.freeNames) : (env.extend inferred).get? x ≠ none := by
  intro hnone
  have hget := h.get?_extend hsorted hx
  rw [hnone] at hget
  cases hget

/-- The published typing types the formula where the inferred names are known. -/
theorem types_extend (h : τ.Published s s' env inferred f) (hsorted : inferred.Sorted)
    (hτ : τ.Types s env f) : τ.Types s' (env.extend inferred) f := by
  refine ⟨fun slot t => h.resolved hτ, fun o ho => ⟨(hτ.node o ho).1, ?_⟩⟩
  have hidentifier := (hτ.node o ho).2
  obtain ⟨scope, n⟩ := o
  cases n with
  | pred p => trivial
  | assignment a => trivial
  | decl d => trivial
  | expr e =>
    cases e with
    | free n x t =>
      have hx : x ∈ f.freeNames := List.mem_filterMap.2 ⟨_, ho, rfl⟩
      change τ.slot n.slot = (((env.extend inferred).get? x).map TypeTree.named).getD (τ.free x)
      rw [h.get?_extend hsorted hx]
      exact hidentifier
    | bound => exact hidentifier
    | binary | unary | assoc | atom | set | bool | quantified | extended => trivial

/-- A given type that is mentioned where the inferred names are known was mentioned before. -/
theorem mentions_of_extend (h : τ.Published s s' env inferred f) (hsorted : inferred.Sorted)
    (hτ' : τ'.Types s' (env.extend inferred) f) {name : String}
    (hname : τ'.Mentions (env.extend inferred) f name) : τ.Mentions env f name := by
  rcases hname with ⟨slot, hslot, hin⟩ | ⟨x, hx, hnone, -⟩
  · exact .inl ⟨slot, hslot, h.slot_eq hτ' hslot ▸ hin⟩
  · exact absurd hnone (h.extend_get?_ne_none hsorted hx)

theorem wellTyped_extend (h : τ.Published s s' env inferred f) (hsorted : inferred.Sorted)
    (hw : f.WellTyped s env) (hτ : τ.Types s env f) : f.WellTyped s' (env.extend inferred) := by
  refine ⟨⟨τ, h.types_extend hsorted hτ⟩, fun τ₁ τ₂ h₁ h₂ => ⟨fun slot hslot => ?_, fun x hx hnone => ?_⟩,
    fun τ' hτ' name hname => ⟨fun t ht => ?_, fun hnone hfree => ?_⟩⟩
  · rw [h.slot_eq h₁ hslot, h.slot_eq h₂ hslot]
  · exact absurd hnone (h.extend_get?_ne_none hsorted hx)
  · have hdeclared := hw.declared τ hτ name (h.mentions_of_extend hsorted hτ' hname)
    rw [Environment.get?_extend hsorted] at ht
    cases hinf : inferred.get? name with
    | none =>
      rw [hinf, Option.none_or] at ht
      exact hdeclared.1 t ht
    | some u =>
      rw [hinf, Option.some_or] at ht
      cases ht
      obtain ⟨henv, ⟨hfree, heq⟩ | ⟨-, heq⟩⟩ := (h.inferred name t.named).1 (by rw [hinf]; rfl)
      · exact heq.trans (hdeclared.2 henv hfree)
      · exact heq
  · exact absurd hnone (h.extend_get?_ne_none hsorted hfree)

theorem inferred_extend {s'' : Store} {inferred' : Environment}
    (h : τ.Published s s' env inferred f) (hsorted : inferred.Sorted) (hτ : τ.Types s env f)
    (h' : τ.Published s' s'' (env.extend inferred) inferred' f) : inferred' = .empty := by
  refine Environment.eq_empty_of_get? fun x => Option.eq_none_iff_forall_ne_some.2 fun t ht => ?_
  obtain ⟨hnone, ⟨hfree, -⟩ | ⟨hmentions, -⟩⟩ := (h'.inferred x t.named).1 (by rw [ht]; rfl)
  · exact h.extend_get?_ne_none hsorted hfree hnone
  · have hmentions := h.mentions_of_extend hsorted (h.types_extend hsorted hτ) hmentions
    rw [Environment.get?_extend hsorted, Option.or_eq_none_iff] at hnone
    have hget := (h.inferred x (.power (.given x))).2 ⟨hnone.2, .inr ⟨hmentions, rfl⟩⟩
    rw [hnone.1] at hget
    cases hget

end Published

end Typing

namespace Formula

theorem WellTyped.later (h : f.WellTyped s env) (hτ : τ.Types s env f)
    (hpub : τ.Published s s' env inferred f) (k : s.Later s') : f.WellTyped s' env :=
  ⟨⟨τ, fun _ _ => hpub.resolved hτ, hτ.node⟩,
    fun τ₁ τ₂ h₁ h₂ => h.unique τ₁ τ₂ (h₁.earlier k) (h₂.earlier k),
    fun τ' hτ' => h.declared τ' (hτ'.earlier k)⟩

theorem exists_check? {r : Except (Fault CheckError) (Environment × Store)}
    (hr : f.check? s env = some r) (s' : Store) (env' : Environment) :
    ∃ r', f.check? s' env' = some r' := by
  cases f with
  | decl d => cases hr
  | expr e | pred p | assignment a => exact ⟨_, rfl⟩

/-- A check that has succeeded infers names that the environment lacks. Checking again gives the same
answer, and with the inferred names there is nothing left to infer; neither changes the store. -/
theorem check_again (hfits : f.Fits s) (hr : f.check? s env = some (.ok (inferred, s'))) :
    (∀ x, inferred.contains x → ¬ env.contains x) ∧
    (∃ again, f.check? s' env = some (.ok (again, s')) ∧ again.named = inferred.named) ∧
    f.check? s' (env.extend inferred) = some (.ok (.empty, s')) := by
  obtain ⟨hw, _, _, heq, hpub⟩ | ⟨-, e, heq⟩ := check_spec hfits hr
  swap
  · cases heq
  cases heq
  obtain ⟨τ, hτ⟩ := hw.typed
  have hpub := hpub τ hτ
  have hlater := Store.Sound.later_of_published (sizes_check? hr) hpub
  have hfits' : f.Fits s' := fun o ho => (hfits o ho).mono hlater
  have hsorted := sorted_check? hr
  -- a check of a formula that is well typed in the new store publishes the same typing, which is there
  have hagain : ∀ {env'}, f.WellTyped s' env' → τ.Types s' env' f → ∃ again,
      f.check? s' env' = some (.ok (again, s')) ∧ τ.Published s' s' env' again f := by
    intro env' hw' hτ'
    obtain ⟨r', hr'⟩ := exists_check? hr s' env'
    obtain ⟨-, again, s'', rfl, hpub'⟩ | ⟨hnot, -⟩ := check_spec hfits' hr'
    · obtain rfl := hpub.eq_of_published (hpub' τ hτ') (sizes_check? hr')
      exact ⟨again, hr', hpub' τ hτ'⟩
    · exact absurd hw' hnot
  refine ⟨fun x hx henv => ?_, ?_, ?_⟩
  · obtain ⟨t, ht⟩ := Option.isSome_iff_exists.1 hx
    rw [Environment.contains, hpub.env_get?_eq_none ht] at henv
    cases henv
  · obtain ⟨again, hok, hpub'⟩ := hagain (hw.later hτ hpub hlater) ⟨fun _ _ => hpub.resolved hτ, hτ.node⟩
    refine ⟨again, hok, (sorted_check? hok).map_entries_eq hsorted fun x => Option.ext fun g => ?_⟩
    rw [hpub'.inferred, hpub.inferred]
  · obtain ⟨again, hok, hpub'⟩ := hagain (hpub.wellTyped_extend hsorted hw hτ)
      (hpub.types_extend hsorted hτ)
    rw [hok, hpub.inferred_extend hsorted hτ hpub']

theorem check_again_truthEquation : ∃ inferred s',
    (pred truthEquation).check? truthStore .empty = some (.ok (inferred, s')) ∧
      inferred.contains "x" ∧
      (pred truthEquation).check? s' (Environment.empty.extend inferred) = some (.ok (.empty, s')) := by
  have hfits : (pred truthEquation).Fits truthStore := by
    simp [Fits, occurrences, truthEquation, Pred.occurrences, Expr.occurrences, NodeFits, truthStore,
      Expr.node, Pred.node, Expr.Fitting, Pred.Fitting]
  have hcheck : (pred truthEquation).check? truthStore .empty =
      some (.ok (⟨[("x", .boolean)]⟩, ⟨#[some .boolean, some .boolean], #[true], 1⟩)) := rfl
  obtain ⟨-, -, hextended⟩ := check_again hfits hcheck
  exact ⟨_, _, hcheck, rfl, hextended⟩

end Formula
end SetLang
