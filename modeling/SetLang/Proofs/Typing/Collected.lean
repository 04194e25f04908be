import SetLang.Proofs.Typing.Constraint
import SetLang.Proofs.Typing.Judgement
import SetLang.Typing.Check

/-! What a check has collected, read as a set of typings: those that agree with all pending terms for
some solution of the solver. `Checks` says of a part of the walk over which nodes it goes: afterwards
exactly the typings are left that type these nodes too, and the slots, names, marks and given types
of these nodes are collected. -/

namespace SetLang

open Solve Unifier

variable {s : Store} {env : Environment} {c c' : Collected} {τ : Typing} {θ : Solution}

namespace Collected

/-- The typing says of everything pending what the solution says. -/
structure Models (c : Collected) (s : Store) (τ : Typing) (θ : Solution) : Prop where
  solved : c.unifier.SolvedBy θ
  resolved : ∀ slot t, s.type? slot = some t → τ.slot slot = t.named
  pending : ∀ slot p, c.pending? slot = some p → TyTerm.under θ p.term = τ.slot slot
  free : ∀ x p, c.free.lookup x = some p → TyTerm.under θ p.term = τ.free x

def Admits (c : Collected) (s : Store) (τ : Typing) : Prop := ∃ θ, c.Models s τ θ

/-- What is collected makes sense: pending terms are known to the solver, and belong to empty slots or
to names that the environment does not have. -/
structure Sound (c : Collected) (s : Store) (env : Environment) : Prop where
  wellFormed : c.unifier.WellFormed
  room : c.pending.size = s.types.size
  pending : ∀ slot p, c.pending? slot = some p → c.unifier.Allocated p.term ∧ s.type? slot = none
  slots : ∀ slot, slot ∈ c.slots ↔ (c.pending? slot).isSome
  distinct : c.slots.Nodup
  free : ∀ x p, c.free.lookup x = some p → c.unifier.Allocated p.term ∧ env.get? x = none
  names : (c.free.map Prod.fst).Nodup

structure Later (c c' : Collected) : Prop where
  unifier : Extends c.unifier c'.unifier
  pending : ∀ slot p, c.pending? slot = some p → c'.pending? slot = some p
  free : ∀ x p, c.free.lookup x = some p → c'.free.lookup x = some p

theorem Later.refl (c : Collected) : Later c c := ⟨.refl _, fun _ _ h => h, fun _ _ h => h⟩

theorem Later.trans {c'' : Collected} (h : Later c c') (k : Later c' c'') : Later c c'' :=
  ⟨h.unifier.trans k.unifier, fun _ _ hp => k.pending _ _ (h.pending _ _ hp),
    fun _ _ hp => k.free _ _ (h.free _ _ hp)⟩

theorem Models.of_later (h : c'.Models s τ θ) (k : Later c c') : c.Models s τ θ :=
  ⟨h.solved.of_extends k.unifier, h.resolved, fun _ _ hp => h.pending _ _ (k.pending _ _ hp),
    fun _ _ hp => h.free _ _ (k.free _ _ hp)⟩

theorem Admits.of_later (h : c'.Admits s τ) (k : Later c c') : c.Admits s τ :=
  h.imp fun _ hθ => hθ.of_later k

end Collected

open Collected

/-- What nodes contribute to a check: empty slots, names that the environment does not have, marks and
given types. -/
@[ext] structure Footprint where
  slots : Nat → Prop
  names : String → Prop
  marks : Nat → Prop
  givens : String → Prop

namespace Footprint

def none : Footprint := ⟨fun _ => False, fun _ => False, fun _ => False, fun _ => False⟩

/-- The slot of a node: itself, if it is empty, or else the given types in its type. -/
def ofSlot (s : Store) (slot : Nat) : Footprint :=
  { none with
    slots := fun x => s.type? slot = Option.none ∧ x = slot
    givens := fun name => ∃ t, s.type? slot = some t ∧ name ∈ t.givens }

def ofGivens (names : List String) : Footprint := { none with givens := (· ∈ names) }

def ofMark (s : Store) (m : Nat) : Footprint :=
  { none with marks := fun x => s.isMarked m = false ∧ x = m }

def union (F G : Footprint) : Footprint where
  slots x := F.slots x ∨ G.slots x
  names x := F.names x ∨ G.names x
  marks x := F.marks x ∨ G.marks x
  givens x := F.givens x ∨ G.givens x

@[simp] theorem union_none (F : Footprint) : F.union none = F := by simp [union, none]

@[simp] theorem none_union (F : Footprint) : none.union F = F := by simp [union, none]

def ofNode (s : Store) (env : Environment) : Formula → Footprint
  | .expr e => (ofGivens ((e.explicit?.map TypeTree.givens).getD [])).union <|
    (ofSlot s e.node.slot).union
      { none with names := fun x => env.get? x = Option.none ∧ e.freeName? = some x }
  | .decl d => ofSlot s d.slot
  | .pred p => ofMark s p.node.slot
  | .assignment a => ofMark s a.node.slot

def ofNodes (s : Store) (env : Environment) (os : List Occurrence) : Footprint where
  slots x := ∃ o ∈ os, (ofNode s env o.node).slots x
  names x := ∃ o ∈ os, (ofNode s env o.node).names x
  marks x := ∃ o ∈ os, (ofNode s env o.node).marks x
  givens x := ∃ o ∈ os, (ofNode s env o.node).givens x

theorem ofNodes_nil : ofNodes s env [] = none := by simp [ofNodes, none]

theorem ofNodes_append (os os' : List Occurrence) :
    ofNodes s env (os ++ os') = (ofNodes s env os).union (ofNodes s env os') := by
  simp [ofNodes, union, or_and_right, exists_or]

theorem ofNodes_one (o : Occurrence) : ofNodes s env [o] = ofNode s env o.node := by
  simp [ofNodes]

theorem ofNodes_congr {os os' : List Occurrence} (h : ∀ o, o ∈ os ↔ o ∈ os') :
    ofNodes s env os = ofNodes s env os' := by
  simp only [ofNodes, h]

end Footprint

/-- From `c` to `c'` the footprint was added, and nothing else. -/
structure Adds (s : Store) (env : Environment) (F : Footprint) (c c' : Collected) : Prop where
  sound : c'.Sound s env
  later : Later c c'
  slots : ∀ x, x ∈ c'.slots ↔ x ∈ c.slots ∨ F.slots x
  names : ∀ x, (c'.free.lookup x).isSome ↔ (c.free.lookup x).isSome ∨ F.names x
  marks : ∀ x, x ∈ c'.marks ↔ x ∈ c.marks ∨ F.marks x
  givens : ∀ x, x ∈ c'.givens ↔ x ∈ c.givens ∨ F.givens x

theorem Adds.nothing (h : c.Sound s env) : Adds s env .none c c := by
  refine ⟨h, .refl c, ?_, ?_, ?_, ?_⟩ <;> simp [Footprint.none]

theorem Adds.trans {c'' : Collected} {F G : Footprint} (h : Adds s env F c c')
    (k : Adds s env G c' c'') : Adds s env (F.union G) c c'' where
  sound := k.sound
  later := h.later.trans k.later
  slots x := by rw [k.slots, h.slots, or_assoc]; rfl
  names x := by rw [k.names, h.names, or_assoc]; rfl
  marks x := by rw [k.marks, h.marks, or_assoc]; rfl
  givens x := by rw [k.givens, h.givens, or_assoc]; rfl

/-- From `c` to `c'` the nodes were collected, and the typings that are still possible type them. -/
structure Gathers (s : Store) (env : Environment) (os : List Occurrence) (c c' : Collected) :
    Prop where
  adds : Adds s env (.ofNodes s env os) c c'
  typed : ∀ τ, c'.Admits s τ → ∀ o ∈ os, τ.TypesNode env o

theorem Gathers.trans {c'' : Collected} {os os' : List Occurrence} (h : Gathers s env os c c')
    (k : Gathers s env os' c' c'') : Gathers s env (os ++ os') c c'' where
  adds := by
    rw [Footprint.ofNodes_append]
    exact h.adds.trans k.adds
  typed τ hτ o ho :=
    (List.mem_append.1 ho).elim (h.typed τ (hτ.of_later k.adds.later) o) (k.typed τ hτ o)

/-- The order of the nodes does not matter. -/
theorem Gathers.congr {os os' : List Occurrence} (h : Gathers s env os c c')
    (k : ∀ o, o ∈ os ↔ o ∈ os') : Gathers s env os' c c' where
  adds := Footprint.ofNodes_congr k ▸ h.adds
  typed τ hτ o ho := h.typed τ hτ o ((k o).2 ho)

theorem Gathers.nil (h : c.Sound s env) : Gathers s env [] c c where
  adds := by
    rw [Footprint.ofNodes_nil]
    exact .nothing h
  typed := by simp

variable {α β : Type}

/-- The part `x` of a check goes over the nodes `os`: it gathers them, and it does not fail as long as
a typing is possible that types them. -/
structure Checks (s : Store) (env : Environment) (os : List Occurrence) (c : Collected) (x : Check α)
    (R : α → Collected → Prop) : Prop where
  sound : Yields x c fun a c' => Gathers s env os c c' ∧ R a c'
  complete : ∀ τ, c.Admits s τ → (∀ o ∈ os, τ.TypesNode env o) →
    Succeeds x c fun _ c' => c'.Admits s τ
  fault : Faults x c Fault.Reported

namespace Checks

variable {os os' : List Occurrence} {x : Check α} {R R' : α → Collected → Prop}
  {Q : β → Collected → Prop}

theorem congr (h : Checks s env os c x R) (k : ∀ o, o ∈ os ↔ o ∈ os') : Checks s env os' c x R :=
  ⟨h.sound.mono fun _ _ ⟨hg, hR⟩ => ⟨hg.congr k, hR⟩,
    fun τ hc ho => h.complete τ hc fun o hm => ho o ((k o).1 hm), h.fault⟩

theorem mono (h : Checks s env os c x R) (k : ∀ a c', Gathers s env os c c' → R a c' → R' a c') :
    Checks s env os c x R' :=
  ⟨h.sound.mono fun a c' ⟨hg, hR⟩ => ⟨hg, k a c' hg hR⟩, h.complete, h.fault⟩

theorem pure {a : α} (hc : c.Sound s env) (h : R a c) :
    Checks s env [] c (pure a : Check α) R :=
  ⟨Yields.pure ⟨.nil hc, h⟩, fun _ hτ _ => Succeeds.pure hτ, Faults.pure⟩

theorem bind {f : α → Check β} (h : Checks s env os c x R)
    (k : ∀ a c', Gathers s env os c c' → R a c' → Checks s env os' c' (f a) Q) :
    Checks s env (os ++ os') c (x >>= f) Q := by
  refine ⟨?_, fun τ hτ ho => ?_, h.fault.bind fun a c' hrun => ?_⟩
  · refine h.sound.bind fun a c' ⟨hg, hR⟩ => ?_
    exact (k a c' hg hR).sound.mono fun b c'' ⟨hg', hQ⟩ => ⟨hg.trans hg', hQ⟩
  · have hx := h.complete τ hτ fun o hm => ho o (List.mem_append_left _ hm)
    refine Succeeds.bind (hx.and_yields h.sound) fun a c' ⟨hτ', hg, hR⟩ => ?_
    exact (k a c' hg hR).complete τ hτ' fun o hm => ho o (List.mem_append_right _ hm)
  · obtain ⟨hg, hR⟩ := h.sound a c' hrun
    exact (k a c' hg hR).fault

/-- A node after its children. -/
theorem last {f : α → Check β} {o : Occurrence} (h : Checks s env os c x R)
    (k : ∀ a c', Gathers s env os c c' → R a c' → Checks s env [o] c' (f a) Q) :
    Checks s env (o :: os) c (x >>= f) Q :=
  (h.bind k).congr fun o' => by rw [List.mem_append, List.mem_singleton, List.mem_cons, or_comm]

theorem map {g : α → β} (h : Checks s env os c x fun a c' => Q (g a) c') :
    Checks s env os c (g <$> x) Q := by
  rw [map_eq_pure_bind]
  have := h.bind fun a c' hg hQ => Checks.pure (a := g a) hg.adds.sound hQ
  simpa using this

end Checks
end SetLang
