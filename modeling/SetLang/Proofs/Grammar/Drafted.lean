import Mathlib.Order.Defs.Unbundled
import SetLang.Grammar.Configuration
import SetLang.Proofs.Grammar.Exact
import SetLang.Proofs.Grammar.Rounds

/-! What declarations guarantee. Priorities are between declared operators, so that the operators of a frozen
grammar are strictly ordered by the chains of what was declared, and the lower one of two is the parent
whichever comes first. A draft cannot be frozen only because of a chain from an operator to itself. -/

namespace SetLang

namespace GrammarDraft

variable {draft draft' : GrammarDraft} {g : Grammar} {id l r : String} {shape : OperatorShape}
  {d : GrammarConfiguration.Declaration} {e : GrammarError}

/-- Drafts that are made by declarations, without operators or with the core operators at first. A
declaration that is refused leaves the draft as it is. -/
inductive Drafted : GrammarDraft → Prop
  | empty : Drafted .empty
  | core : Drafted .core
  | declare {draft : GrammarDraft} (id : String) (shape : OperatorShape) :
    Drafted draft → Drafted (draft.declare id shape)
  | add {draft draft' : GrammarDraft} {d : GrammarConfiguration.Declaration} :
    Drafted draft → draft.add d = .ok draft' → Drafted draft'

/-- What a declaration changes beside compatibilities: it adds a priority between operators that are
declared, or lets an operator flatten that takes more than two children. -/
structure Adds (draft draft' : GrammarDraft) : Prop where
  shapes : draft'.shapes = draft.shapes
  priorities : ∀ l r, (l, r) ∈ draft'.priorities →
    (l, r) ∈ draft.priorities ∨ (draft.shape? l).isSome ∧ (draft.shape? r).isSome
  flattening : ∀ id ∈ draft'.flattening, id ∈ draft.flattening ∨ draft.shape? id = some .associative

theorem require_of_bind {α : Type} {f : OperatorShape → Except GrammarError α} {a : α}
    (h : draft.require id >>= f = .ok a) : ∃ shape, draft.shape? id = some shape ∧ f shape = .ok a := by
  unfold require at h
  cases hid : draft.shape? id with
  | none =>
    rw [hid] at h
    cases h
  | some shape =>
    rw [hid] at h
    exact ⟨shape, rfl, h⟩

theorem adds_of_addPriority (h : draft.addPriority l r = .ok draft') : draft.Adds draft' := by
  obtain ⟨_, hl, h⟩ := require_of_bind h
  obtain ⟨_, hr, h⟩ := require_of_bind h
  split_ifs at h
  · cases h
  · cases h
    refine ⟨rfl, fun l' r' h => ?_, fun _ h => .inl h⟩
    rcases List.mem_insert_iff.1 h with heq | h
    · cases heq
      exact .inr ⟨by rw [hl]; rfl, by rw [hr]; rfl⟩
    · exact .inl h

theorem adds_of_addCompatibility (h : draft.addCompatibility l r = .ok draft') : draft.Adds draft' := by
  obtain ⟨_, -, h⟩ := require_of_bind h
  obtain ⟨_, -, h⟩ := require_of_bind h
  cases h
  exact ⟨rfl, fun _ _ h => .inl h, fun _ h => .inl h⟩

theorem adds_of_addFlattening (h : draft.addFlattening id = .ok draft') : draft.Adds draft' := by
  obtain ⟨shape, hid, h⟩ := require_of_bind h
  cases shape with
  | binary => cases h
  | associative =>
    cases h
    refine ⟨rfl, fun _ _ h => .inl h, fun id' h => ?_⟩
    rcases List.mem_insert_iff.1 h with rfl | h
    · exact .inr hid
    · exact .inl h

theorem adds_of_add (h : draft.add d = .ok draft') : draft.Adds draft' := by
  cases d with
  | priority lower higher => exact adds_of_addPriority h
  | compatibility left right => exact adds_of_addCompatibility h
  | flattening id => exact adds_of_addFlattening h

theorem Adds.shape? (h : draft.Adds draft') : draft'.shape? id = draft.shape? id := by
  rw [GrammarDraft.shape?, h.shapes]
  rfl

theorem shape?_declare {id' : String} :
    (draft.declare id shape).shape? id' = if id' = id then some shape else draft.shape? id' :=
  lookup_cons_if

def Known (draft : GrammarDraft) : Prop :=
  ∀ l r, (l, r) ∈ draft.priorities → (draft.shape? l).isSome ∧ (draft.shape? r).isSome

theorem known_core : Known .core := by
  have hall : ∀ p ∈ core.priorities, (core.shape? p.1).isSome ∧ (core.shape? p.2).isSome := by
    decide +kernel
  exact fun l r hlr => hall (l, r) hlr

theorem Known.declare (h : draft.Known) : (draft.declare id shape).Known := by
  have hmono : ∀ id', (draft.shape? id').isSome → ((draft.declare id shape).shape? id').isSome := by
    intro id' hid
    rw [shape?_declare]
    split_ifs
    · rfl
    · exact hid
  exact fun l r hlr => (h l r hlr).imp (hmono l) (hmono r)

theorem Known.of_adds (h : draft.Known) (hadds : draft.Adds draft') : draft'.Known := by
  intro l r hlr
  rw [hadds.shape?, hadds.shape?]
  exact (hadds.priorities l r hlr).elim (h l r) id

theorem Drafted.known (h : draft.Drafted) : draft.Known := by
  induction h with
  | empty => exact fun _ _ h => by cases h
  | core => exact known_core
  | declare id shape _ ih => exact ih.declare
  | add _ hadd ih => exact ih.of_adds (adds_of_add hadd)

def Chain (draft : GrammarDraft) : String → String → Prop :=
  Relation.TransGen fun l r => (l, r) ∈ draft.priorities

/-- A chain starts and ends with operators that are declared. -/
theorem Known.chain (h : draft.Known) (hchain : draft.Chain l r) :
    (draft.shape? l).isSome ∧ (draft.shape? r).isSome := by
  induction hchain with
  | single hlr => exact h l _ hlr
  | tail _ hlr ih => exact ⟨ih.1, (h _ _ hlr).2⟩

/-- A draft is refused for an operator that is lower than itself by a chain. -/
theorem chain_of_build_error (h : draft.build = .error e) :
    ∃ op, e = .invalidConfiguration s!"cyclic priorities through operator {op}" ∧ draft.Chain op op := by
  unfold build at h
  dsimp only at h
  split at h
  case h_1 op hop =>
    cases h
    have hbelow := ((Priorities.grouped_ofPairs _).foldl _).below_of_firstCyclic? hop
    exact ⟨op, rfl, Priorities.below_closure_ofPairs.1 hbelow⟩
  case h_2 => cases h

theorem not_chain_of_build (h : draft.build = .ok g) (op : String) : ¬ draft.Chain op op := by
  rw [Chain, ← hasPriority_iff_of_build h, acyclic_of_build h op]
  exact Bool.false_ne_true

theorem isStrictOrder_of_build (h : draft.build = .ok g) :
    IsStrictOrder String fun l r => g.hasPriority l r where
  irrefl op := by
    rw [acyclic_of_build h op]
    exact Bool.false_ne_true
  trans l m r hlm hmr := by
    rw [hasPriority_iff_of_build h] at hlm hmr ⊢
    exact hlm.trans hmr

/-- The lower one of two ordered operators is the parent, whichever comes first. -/
theorem Known.juxtapose_of_build (h : draft.Known) (hg : draft.build = .ok g) (hlr : g.hasPriority l r) :
    g.juxtapose l r = .ok .leftParent ∧ g.juxtapose r l = .ok .rightParent := by
  have hchain := (hasPriority_iff_of_build hg).1 hlr
  obtain ⟨hl, hr⟩ : g.isDeclared l ∧ g.isDeclared r := by
    rw [eq_of_build hg]
    exact h.chain hchain
  have hnot : g.hasPriority r l = false := by
    rw [Bool.eq_false_iff, Ne, hasPriority_iff_of_build hg]
    exact fun hrl => not_chain_of_build hg l (hchain.trans hrl)
  exact ⟨Grammar.juxtapose_of_hasPriority hl hr hlr, by simp [Grammar.juxtapose, hl, hr, hnot, hlr]⟩

/-- Priorities are closed exactly. Adding what is missing comes to an end with the chains of the declared
priorities. Only a chain from an operator to itself, which the error names, keeps a draft from being frozen;
otherwise the chains are the priorities of the grammar, a strict order that decides which operator is the
parent. -/
theorem build_exact (h : draft.Drafted) :
    (∃ n, Priorities.missing (Priorities.round^[n] draft.priorities) = [] ∧
      ∀ l r, (l, r) ∈ Priorities.round^[n] draft.priorities ↔ draft.Chain l r) ∧
    ((∃ g, draft.build = .ok g) ↔ ∀ op, ¬ draft.Chain op op) ∧
    (∀ g, draft.build = .ok g → (∀ l r, g.hasPriority l r ↔ draft.Chain l r) ∧
      (IsStrictOrder String fun l r => g.hasPriority l r) ∧
      ∀ l r, g.hasPriority l r →
        g.juxtapose l r = .ok .leftParent ∧ g.juxtapose r l = .ok .rightParent) ∧
    (∀ e, draft.build = .error e → ∃ op,
      e = .invalidConfiguration s!"cyclic priorities through operator {op}" ∧ draft.Chain op op) := by
  obtain ⟨n, hnil, hclosed⟩ := Priorities.exists_rounds_eq_closure draft.priorities
  refine ⟨⟨n, hnil, fun l r => (hclosed l r).trans Priorities.below_closure_ofPairs⟩, ⟨?_, ?_⟩, ?_,
    fun _ => chain_of_build_error⟩
  · rintro ⟨g, hg⟩
    exact not_chain_of_build hg
  · intro hacyclic
    cases hb : draft.build with
    | ok g => exact ⟨g, rfl⟩
    | error e =>
      obtain ⟨op, -, hchain⟩ := chain_of_build_error hb
      exact absurd hchain (hacyclic op)
  · intro g hg
    exact ⟨fun l r => hasPriority_iff_of_build hg, isStrictOrder_of_build hg,
      fun l r => h.known.juxtapose_of_build hg⟩

def circleDraft : GrammarDraft where
  shapes := [("c", .binary), ("b", .binary), ("a", .binary)]
  priorities := [("c", "a"), ("b", "c"), ("a", "b")]
  compatibilities := []
  flattening := []

theorem drafted_circle : circleDraft.Drafted :=
  .add (d := .priority "c" "a") (.add (d := .priority "b" "c") (.add (d := .priority "a" "b")
    (.declare "c" .binary (.declare "b" .binary (.declare "a" .binary .empty))) rfl) rfl) rfl

theorem build_core_and_circle :
    (Drafted .core ∧ (∀ op, ¬ core.Chain op op) ∧
      Grammar.coreGrammar.juxtapose "union" "mapsto" = .ok .rightParent) ∧
    circleDraft.Drafted ∧ ∃ e, circleDraft.build = .error e ∧
      ∃ op, e = .invalidConfiguration s!"cyclic priorities through operator {op}" ∧
        circleDraft.Chain op op := by
  obtain ⟨-, hiff, hok, -⟩ := build_exact .core
  obtain ⟨-, -, hjuxtapose⟩ := hok _ Grammar.build_core
  obtain ⟨-, -, -, herror⟩ := build_exact drafted_circle
  refine ⟨⟨.core, hiff.1 ⟨_, Grammar.build_core⟩, (hjuxtapose "mapsto" "union" ?_).2⟩, drafted_circle,
    _, rfl, herror _ rfl⟩
  decide +kernel

end GrammarDraft
end SetLang
