import Mathlib.Data.List.Forall2
import Mathlib.SetTheory.ZFC.Basic

/-! Relations as sets of pairs, with the operations of the core language on them. Each operation is
known by its members. -/

namespace SetLang.Relation

universe u

open ZFSet (pair prod)

variable {r f a b s w x y z : ZFSet.{u}}

noncomputable section

def field (r : ZFSet.{u}) : ZFSet.{u} := (r.sUnion).sUnion

def dom (r : ZFSet.{u}) : ZFSet.{u} := (field r).sep fun x => ∃ y, pair x y ∈ r

def ran (r : ZFSet.{u}) : ZFSet.{u} := (field r).sep fun y => ∃ x, pair x y ∈ r

def converse (r : ZFSet.{u}) : ZFSet.{u} :=
  ((ran r).prod (dom r)).sep fun p => ∃ x y, p = pair y x ∧ pair x y ∈ r

def restrict (s r : ZFSet.{u}) : ZFSet.{u} := r.sep fun p => ∃ x y, p = pair x y ∧ x ∈ s

/-- The pairs of a relation that start outside a set. -/
def subtract (s r : ZFSet.{u}) : ZFSet.{u} := r.sep fun p => ∃ x y, p = pair x y ∧ x ∉ s

def override (r s : ZFSet.{u}) : ZFSet.{u} := subtract (dom s) r ∪ s

def image (r s : ZFSet.{u}) : ZFSet.{u} := ran (restrict s r)

/-- The value of a function; empty where there is none. -/
def apply (f x : ZFSet.{u}) : ZFSet.{u} := (image f {x}).sUnion

/-- Pairs each `x` with the pairs of what two relations have for it. -/
def direct (r s : ZFSet.{u}) : ZFSet.{u} :=
  ((dom r).prod ((ran r).prod (ran s))).sep fun p =>
    ∃ x y z, p = pair x (pair y z) ∧ pair x y ∈ r ∧ pair x z ∈ s

theorem pair_mem_field (h : pair x y ∈ r) : x ∈ field r ∧ y ∈ field r := by
  refine ⟨ZFSet.mem_sUnion.2 ⟨{x}, ?_, ?_⟩, ZFSet.mem_sUnion.2 ⟨{x, y}, ?_, ?_⟩⟩
  · exact ZFSet.mem_sUnion.2 ⟨_, h, by simp [pair]⟩
  · simp
  · exact ZFSet.mem_sUnion.2 ⟨_, h, by simp [pair]⟩
  · simp

theorem mem_dom : x ∈ dom r ↔ ∃ y, pair x y ∈ r := by
  rw [dom, ZFSet.mem_sep, and_iff_right_iff_imp]
  rintro ⟨y, h⟩
  exact (pair_mem_field h).1

theorem mem_ran : y ∈ ran r ↔ ∃ x, pair x y ∈ r := by
  rw [ran, ZFSet.mem_sep, and_iff_right_iff_imp]
  rintro ⟨x, h⟩
  exact (pair_mem_field h).2

theorem mem_converse : z ∈ converse r ↔ ∃ x y, z = pair y x ∧ pair x y ∈ r := by
  rw [converse, ZFSet.mem_sep, and_iff_right_iff_imp]
  rintro ⟨x, y, rfl, h⟩
  exact ZFSet.pair_mem_prod.2 ⟨mem_ran.2 ⟨x, h⟩, mem_dom.2 ⟨y, h⟩⟩

theorem pair_mem_converse : pair y x ∈ converse r ↔ pair x y ∈ r := by
  rw [mem_converse]
  constructor
  · rintro ⟨x', y', heq, h⟩
    obtain ⟨rfl, rfl⟩ := ZFSet.pair_inj.1 heq
    exact h
  · exact fun h => ⟨x, y, rfl, h⟩

theorem pair_mem_restrict : pair x y ∈ restrict s r ↔ x ∈ s ∧ pair x y ∈ r := by
  rw [restrict, ZFSet.mem_sep]
  constructor
  · rintro ⟨h, x', y', heq, hx⟩
    obtain ⟨rfl, rfl⟩ := ZFSet.pair_inj.1 heq
    exact ⟨hx, h⟩
  · rintro ⟨hx, h⟩
    exact ⟨h, x, y, rfl, hx⟩

theorem mem_image : y ∈ image r s ↔ ∃ x ∈ s, pair x y ∈ r := by
  simp only [image, mem_ran, pair_mem_restrict]

theorem image_empty (r : ZFSet.{u}) : image r ∅ = ∅ := by
  refine (ZFSet.eq_empty _).2 fun y hy => ?_
  obtain ⟨x, hx, -⟩ := mem_image.1 hy
  exact ZFSet.notMem_empty x hx

theorem pair_mem_direct : pair x w ∈ direct r s ↔
    ∃ y z, w = pair y z ∧ pair x y ∈ r ∧ pair x z ∈ s := by
  rw [direct, ZFSet.mem_sep]
  constructor
  · rintro ⟨-, x', y, z, heq, hr, hs⟩
    obtain ⟨rfl, rfl⟩ := ZFSet.pair_inj.1 heq
    exact ⟨y, z, rfl, hr, hs⟩
  · rintro ⟨y, z, rfl, hr, hs⟩
    refine ⟨?_, x, y, z, rfl, hr, hs⟩
    rw [ZFSet.pair_mem_prod, ZFSet.pair_mem_prod]
    exact ⟨mem_dom.2 ⟨y, hr⟩, mem_ran.2 ⟨x, hr⟩, mem_ran.2 ⟨x, hs⟩⟩

end

/-- Every member of the set is related to something. -/
def Total (a r : ZFSet.{u}) : Prop := ∀ x ∈ a, ∃ y, pair x y ∈ r

/-- Something is related to every member of the set. -/
def Onto (b r : ZFSet.{u}) : Prop := ∀ y ∈ b, ∃ x, pair x y ∈ r

def Functional (r : ZFSet.{u}) : Prop := ∀ x y z, pair x y ∈ r → pair x z ∈ r → y = z

def Injective (r : ZFSet.{u}) : Prop := ∀ x y z, pair x z ∈ r → pair y z ∈ r → x = y

structure IsFunction (a b f : ZFSet.{u}) : Prop where
  between : f ⊆ a.prod b
  total : Total a f
  functional : Functional f

theorem Functional.apply_eq (h : Functional f) (hxy : pair x y ∈ f) : apply f x = y := by
  have himage : image f {x} = {y} := by
    ext z
    rw [mem_image, ZFSet.mem_singleton]
    constructor
    · rintro ⟨x', hx', hz⟩
      obtain rfl := ZFSet.mem_singleton.1 hx'
      exact h _ _ _ hz hxy
    · rintro rfl
      exact ⟨x, ZFSet.mem_singleton.2 rfl, hxy⟩
  rw [apply, himage, ZFSet.sUnion_singleton]

namespace IsFunction

theorem pair_apply_mem (h : IsFunction a b f) (hx : x ∈ a) : pair x (apply f x) ∈ f := by
  obtain ⟨y, hy⟩ := h.total x hx
  rwa [h.functional.apply_eq hy]

/-- What a function reaches are its values. -/
theorem mem_ran (h : IsFunction a b f) : y ∈ ran f ↔ ∃ x ∈ a, apply f x = y := by
  rw [Relation.mem_ran]
  constructor
  · rintro ⟨x, hxy⟩
    exact ⟨x, (ZFSet.pair_mem_prod.1 (h.between hxy)).1, h.functional.apply_eq hxy⟩
  · rintro ⟨x, hx, rfl⟩
    exact ⟨x, h.pair_apply_mem hx⟩

end IsFunction

/-- Elements of sets and a list of sets, paired from the left, are what their product has. -/
theorem mem_foldl_prod {as : List ZFSet.{u}} : z ∈ as.foldl prod a ↔
    ∃ x xs, x ∈ a ∧ List.Forall₂ (· ∈ ·) xs as ∧ z = xs.foldl pair x := by
  induction as generalizing a with
  | nil => simp [List.forall₂_nil_right_iff]
  | cons b as ih =>
    rw [List.foldl_cons, ih]
    constructor
    · rintro ⟨w, xs, hw, hxs, rfl⟩
      obtain ⟨x, hx, y, hy, rfl⟩ := ZFSet.mem_prod.1 hw
      exact ⟨x, y :: xs, hx, .cons hy hxs, rfl⟩
    · rintro ⟨x, ys, hx, hys, rfl⟩
      cases hys with
      | cons hy hxs => exact ⟨_, _, ZFSet.pair_mem_prod.2 ⟨hx, hy⟩, hxs, rfl⟩

/-- Tuples of the same length are equal only component by component. -/
theorem foldl_pair_inj {xs ys : List ZFSet.{u}} (hlen : xs.length = ys.length)
    (h : xs.foldl pair x = ys.foldl pair y) : x = y ∧ xs = ys := by
  induction xs generalizing x y ys with
  | nil =>
    obtain rfl := List.length_eq_zero_iff.1 hlen.symm
    exact ⟨h, rfl⟩
  | cons x' xs ih =>
    cases ys with
    | nil => cases hlen
    | cons y' ys =>
      obtain ⟨hpair, rfl⟩ := ih (Nat.succ.inj hlen) h
      obtain ⟨rfl, rfl⟩ := ZFSet.pair_inj.1 hpair
      exact ⟨rfl, rfl⟩

/-- What the direct product of relations has for a member are the tuples of what they have for it. -/
theorem pair_mem_foldl_direct {rs : List ZFSet.{u}} {xs : List ZFSet.{u}}
    (hlen : xs.length = rs.length) : pair w (xs.foldl pair x) ∈ rs.foldl direct r ↔
      pair w x ∈ r ∧ List.Forall₂ (fun x r => pair w x ∈ r) xs rs := by
  induction rs generalizing r x xs with
  | nil =>
    obtain rfl := List.length_eq_zero_iff.1 hlen
    simp
  | cons r' rs ih =>
    cases xs with
    | nil => cases hlen
    | cons x' xs =>
      rw [List.foldl_cons, List.foldl_cons, ih (Nat.succ.inj hlen), pair_mem_direct,
        List.forall₂_cons, ← and_assoc]
      refine and_congr_left fun _ => ⟨?_, fun h => ⟨x, x', rfl, h.1, h.2⟩⟩
      rintro ⟨y, z, heq, hr, hr'⟩
      obtain ⟨rfl, rfl⟩ := ZFSet.pair_inj.1 heq
      exact ⟨hr, hr'⟩

end SetLang.Relation
