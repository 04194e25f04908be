import Mathlib.Data.List.Nodup
import Mathlib.Data.List.Perm.Subperm
import Mathlib.Data.Nat.Find
import SetLang.Encoding.Formulas

/-! Names in the course of an encoding. A name that is given out is the first for its base that is not taken,
and the search for it ends. What happens to names is a sequence of events: a name is given out, or those of
the free identifiers of a predicate are taken. -/

namespace SetLang

theorem toString_injective : Function.Injective (toString : Nat → String) := by
  intro i j h
  have hdigits := congrArg (fun s => Nat.ofDigitChars 10 s.toList 0) h
  simpa [Nat.toString_eq_ofList_toDigits] using hdigits

/-- The names that are tried for a base, in order: the base, and the base with a number after it. -/
def candidate (base : String) : Nat → String
  | 0 => base
  | k + 1 => base ++ toString k

theorem candidate_injective (base : String) : Function.Injective (candidate base) := by
  intro i j h
  cases i with
  | zero =>
    cases j with
    | zero => rfl
    | succ j => exact absurd h.symm (by simp [candidate])
  | succ i =>
    cases j with
    | zero => exact absurd h (by simp [candidate])
    | succ j => rw [toString_injective ((String.append_right_inj base).1 h)]

def FirstFree (taken : List String) (base : String) (k : Nat) : Prop :=
  candidate base k ∉ taken ∧ ∀ j < k, candidate base j ∈ taken

/-- There are more candidates than names that are taken. -/
theorem exists_candidate_notMem (taken : List String) (base : String) :
    ∃ k ≤ taken.length, candidate base k ∉ taken := by
  by_contra hall
  push Not at hall
  have hnodup : ((List.range (taken.length + 1)).map (candidate base)).Nodup :=
    List.nodup_range.map (candidate_injective base)
  have hsub : (List.range (taken.length + 1)).map (candidate base) ⊆ taken := by
    intro x hx
    obtain ⟨k, hk, rfl⟩ := List.mem_map.1 hx
    exact hall k (Nat.le_of_lt_succ (List.mem_range.1 hk))
  have hle := (List.subperm_of_subset hnodup hsub).length_le
  rw [List.length_map, List.length_range] at hle
  exact Nat.not_succ_le_self _ hle

theorem exists_firstFree (taken : List String) (base : String) :
    ∃ k ≤ taken.length, FirstFree taken base k := by
  have hfree := exists_candidate_notMem taken base
  have hexists : ∃ k, candidate base k ∉ taken := hfree.imp fun _ h => h.2
  obtain ⟨k, hk, hnot⟩ := hfree
  refine ⟨Nat.find hexists, Nat.le_trans (Nat.find_min' hexists hnot) hk, Nat.find_spec hexists, fun j hj => ?_⟩
  exact not_not.1 (Nat.find_min hexists hj)

/-- The name that is given out is the first free candidate. -/
theorem freshName_eq {taken : List String} {base : String} {k : Nat} (h : FirstFree taken base k) :
    freshName taken base = candidate base k := by
  obtain ⟨k', hk', hfirst⟩ := exists_firstFree taken base
  obtain rfl : k' = k := by
    rcases Nat.lt_trichotomy k' k with hlt | heq | hlt
    · exact absurd (h.2 k' hlt) hfirst.1
    · exact heq
    · exact absurd (hfirst.2 k hlt) h.1
  have hcandidates : base :: (List.range taken.length).map (fun i => base ++ toString i) =
      (List.range (taken.length + 1)).map (candidate base) := by
    rw [List.range_succ_eq_map]
    simp [candidate, Function.comp_def]
  have hfound : (List.range (taken.length + 1)).find? (fun i => !taken.contains (candidate base i)) =
      some k' := by
    rw [List.find?_range_eq_some]
    refine ⟨by simpa using h.1, List.mem_range.2 (Nat.lt_succ_of_le hk'), fun j hj => ?_⟩
    simpa using h.2 j hj
  change ((base :: (List.range taken.length).map fun i => base ++ toString i).find? _).getD base = _
  rw [hcandidates, List.find?_map, Function.comp_def, hfound]
  rfl

theorem exists_freshName_eq (taken : List String) (base : String) :
    ∃ k ≤ taken.length, FirstFree taken base k ∧ freshName taken base = candidate base k := by
  obtain ⟨k, hk, hfirst⟩ := exists_firstFree taken base
  exact ⟨k, hk, hfirst, freshName_eq hfirst⟩

theorem freshName_notMem (taken : List String) (base : String) : freshName taken base ∉ taken := by
  obtain ⟨k, -, hfirst, heq⟩ := exists_freshName_eq taken base
  exact heq ▸ hfirst.1

/-- What happens to names: one is given out for a base, or those of the free identifiers of a predicate are
taken. -/
inductive NameEvent where
  | gave (base name : String)
  | took (p : Pred)

namespace NameEvent

def names : NameEvent → List String
  | gave _ name => [name]
  | took p => p.freeIdentifiers.filterMap Expr.freeName?

def given? : NameEvent → Option String
  | gave _ name => some name
  | took _ => none

end NameEvent

variable {S S' S'' : EncodingState} {es es' : List NameEvent}

/-- From one state to the other, just these events happen to names, one after the other. -/
inductive EncodingState.Names : EncodingState → List NameEvent → EncodingState → Prop
  | still {S S' : EncodingState} : S'.encoding.used = S.encoding.used →
    S'.encoding.allocated = S.encoding.allocated → Names S [] S'
  | gave {S S' : EncodingState} {base name : String} {type : String → Ty} :
    (Encode.allocate base type).run S = (.ok name, S') → Names S [.gave base name] S'
  | took {S S' : EncodingState} {p : Pred} :
    (Encode.reserve (p.freeIdentifiers.filterMap Expr.freeName?)).run S = (.ok (), S') → Names S [.took p] S'
  | trans {S S' S'' : EncodingState} {es es' : List NameEvent} : Names S es S' → Names S' es' S'' →
    Names S (es ++ es') S''

namespace EncodingState

def Goes (S S' : EncodingState) : Prop := ∃ es, S.Names es S'

theorem Goes.still (hused : S'.encoding.used = S.encoding.used)
    (hallocated : S'.encoding.allocated = S.encoding.allocated) : S.Goes S' := ⟨[], .still hused hallocated⟩

theorem Goes.trans (h : S.Goes S') (k : S'.Goes S'') : S.Goes S'' := by
  obtain ⟨es, h⟩ := h
  obtain ⟨es', k⟩ := k
  exact ⟨es ++ es', h.trans k⟩

/-- Names that are taken remain so. -/
theorem Goes.used_subset (h : S.Goes S') : S.encoding.used ⊆ S'.encoding.used := by
  obtain ⟨es, h⟩ := h
  induction h with
  | still hused _ => rw [hused]; exact List.Subset.refl _
  | gave hrun =>
    cases hrun
    exact List.subset_cons_self _ _
  | took hrun =>
    cases hrun
    exact List.subset_append_right _ _
  | trans _ _ ih ih' => exact List.Subset.trans ih ih'

end EncodingState
end SetLang
