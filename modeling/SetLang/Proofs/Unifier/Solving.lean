import SetLang.Proofs.Run
import SetLang.Proofs.Unifier.Resolution

/-! Solving one equation. Whether it fails or not, the solver stays well formed and keeps its values;
where it does not fail, every solution of the new solver solves the equation. Conversely no solution
of the equation is lost: with a bound on the depth that some solution respects, solving does not
fail, and the solution stays one. The resolution after such a run is a solution itself, no deeper
than `reach`, so the bound that `unify` takes is always enough. -/

namespace SetLang
namespace Solve

open Unifier

variable {u u' : Unifier} {a b t : TyTerm} {v : TypeVar} {n : Nat} {W : Type}

theorem run_fresh (u : Unifier) : fresh.run u = (.ok (.leaf u.size), u.addVar) := rfl

theorem run_read {α : Type} {f : Unifier → Option α} {x : α} (h : f u = some x) :
    (read f).run u = (.ok x, u) := by
  unfold read
  rw [run_bind_ok (run_get u), h]
  rfl

theorem run_resolve (w : u.WellFormed) (ht : u.Allocated t) :
    (resolve t).run u = (.ok (t.subst u.resolution), u) := run_read (w.resolve?_eq ht)

theorem run_mismatch (w : u.WellFormed) (ha : u.Allocated a) (hb : u.Allocated b) :
    (mismatch a b).run u =
      (.error (.error (.mismatch (a.subst u.resolution) (b.subst u.resolution))), u) := by
  unfold mismatch
  rw [run_bind_ok (run_resolve w ha), run_bind_ok (run_resolve w hb)]
  rfl

theorem run_bindVar (w : u.WellFormed) (ht : u.Allocated t) :
    (bindVar v t).run u = if v ∈ (t.subst u.resolution).leaves then
      (.error (.error (.infinite v (t.subst u.resolution))), u) else (.ok (), u.bind v t) := by
  unfold bindVar
  rw [run_bind_ok (run_resolve w ht)]
  by_cases h : v ∈ (t.subst u.resolution).leaves
  · have hm : (t.subst u.resolution).mentions v = true := by simpa [TypeTree.mentions] using h
    simp only [hm, h, if_true]
    rfl
  · have hm : (t.subst u.resolution).mentions v = false := by simpa [TypeTree.mentions] using h
    simp only [hm, h, if_false]
    rfl

/-- What solving does to a solver, where terms of the equations are at most `n` deep. -/
structure Step (u : Unifier) (n : Nat) (eqs : List (TyTerm × TyTerm))
    (r : Except (Fault TypeError) Unit × Unifier) : Prop where
  wellFormed : r.2.WellFormed
  later : Extends u r.2
  size : r.2.size = u.size
  deepest : r.2.deepest ≤ max u.deepest n
  fault : ∀ e, r.1 = .error e → ∃ reason, e = .error reason
  entails : r.1 = .ok () → ∀ e ∈ eqs, ∀ {W : Type} (θ : TypeVar → NamedTree W), r.2.SolvedBy θ →
    TyTerm.under θ e.1 = TyTerm.under θ e.2

theorem Step.of_error {eqs : List (TyTerm × TyTerm)} {e : TypeError} (w : u.WellFormed) :
    Step u n eqs (.error (.error e), u) :=
  ⟨w, .refl u, rfl, Nat.le_max_left .., fun _ h => ⟨e, by cases h; rfl⟩, fun h => by cases h⟩

theorem Step.of_ok {eqs : List (TyTerm × TyTerm)} (w : u.WellFormed)
    (h : ∀ e ∈ eqs, ∀ {W : Type} (θ : TypeVar → NamedTree W), u.SolvedBy θ →
      TyTerm.under θ e.1 = TyTerm.under θ e.2) : Step u n eqs (.ok (), u) :=
  ⟨w, .refl u, rfl, Nat.le_max_left .., fun _ hr => (by cases hr), fun _ => h⟩

/-- Equations that follow from those of a step may stand in their place. -/
theorem Step.imp {eqs eqs' : List (TyTerm × TyTerm)} {r : Except (Fault TypeError) Unit × Unifier}
    (h : Step u n eqs r)
    (k : ∀ {W : Type} (θ : TypeVar → NamedTree W), u.SolvedBy θ →
      (∀ e ∈ eqs, TyTerm.under θ e.1 = TyTerm.under θ e.2) →
        ∀ e ∈ eqs', TyTerm.under θ e.1 = TyTerm.under θ e.2) : Step u n eqs' r :=
  ⟨h.wellFormed, h.later, h.size, h.deepest, h.fault, fun hr e he _ θ hθ =>
    k θ (hθ.of_extends h.later) (fun e he => h.entails hr e he θ hθ) e he⟩

theorem Step.bind {x y : Solve Unit} {eqs eqs' : List (TyTerm × TyTerm)} (h : Step u n eqs (x.run u))
    (k : ∀ u', u'.WellFormed → u'.size = u.size → u'.deepest ≤ max u.deepest n →
      Step u' n eqs' (y.run u')) :
    Step u n (eqs ++ eqs') ((x >>= fun _ => y).run u) := by
  rw [run_bind]
  rcases hx : x.run u with ⟨r, u'⟩
  rw [hx] at h
  cases r with
  | error e => exact ⟨h.wellFormed, h.later, h.size, h.deepest, h.fault, fun hr => by cases hr⟩
  | ok _ =>
    have hy := k u' h.wellFormed h.size h.deepest
    have hd := h.deepest
    have hd' := hy.deepest
    refine ⟨hy.wellFormed, h.later.trans hy.later, hy.size.trans h.size, ?_, hy.fault, ?_⟩
    · change (y.run u').2.deepest ≤ _
      change u'.deepest ≤ _ at hd
      omega
    · intro hr e he W θ hθ
      rcases List.mem_append.1 he with he | he
      · exact h.entails rfl e he θ (hθ.of_extends hy.later)
      · exact hy.entails hr e he θ hθ

theorem step_bindVar (w : u.WellFormed) (hv : v < u.size) (hf : u.value? v = none)
    (ht : u.Allocated t) (htn : t.depth ≤ max u.deepest n) :
    Step u n [(.leaf v, t)] ((bindVar v t).run u) := by
  rw [run_bindVar w ht]
  split_ifs with hocc
  · exact .of_error w
  · refine ⟨w.bind hv hf ht hocc, extends_bind hv hf t, by simp, ?_, fun _ h => (by cases h),
      fun _ e he W θ hθ => ?_⟩
    · exact Nat.max_le.2 ⟨Nat.le_max_left .., htn⟩
    · obtain rfl : e = (.leaf v, t) := by simpa using he
      exact hθ v t (by simp [value?_bind hv])

theorem step_join {x y : TypeVar} (w : u.WellFormed) (hx : x < u.size) (hy : y < u.size)
    (hxf : u.value? x = none) (hyf : u.value? y = none) (hn : 0 < n) :
    Step u n [(.leaf x, .leaf y)] (.ok (), u.join x y) := by
  -- binding one representative to another one, whichever way the ranks decide
  have hbind : ∀ {s : Unifier} {a b : TypeVar}, s.WellFormed → Extends u s → s.size = u.size →
      s.deepest = u.deepest → s.value? a = none → s.value? b = none → a < u.size → b < u.size →
      a ≠ b → Step u n [(.leaf a, .leaf b)] (.ok (), s.bind a (.leaf b)) := by
    intro s a b ws hs hsize hdeep ha hb has hbs hab
    have hbound : a < s.size := hsize ▸ has
    have hleaf : s.Allocated (.leaf b) := fun v hv => by
      obtain rfl : v = b := by simpa [TypeTree.leaves] using hv
      exact hsize ▸ hbs
    have hocc : a ∉ (TypeTree.subst s.resolution (.leaf b)).leaves := by
      simpa [TypeTree.subst, ws.resolution_of_free (hsize ▸ hbs) hb, TypeTree.leaves] using hab
    refine ⟨ws.bind hbound ha hleaf hocc, hs.trans (extends_bind hbound ha _),
      by simp [hsize], ?_, fun _ h => (by cases h), fun _ e he W θ hθ => ?_⟩
    · change max s.deepest (TypeTree.depth (.leaf b)) ≤ _
      rw [hdeep]
      simp only [TypeTree.depth]
      omega
    · obtain rfl : e = (.leaf a, .leaf b) := by simpa using he
      exact hθ a (.leaf b) (by simp [value?_bind hbound])
  unfold join
  split_ifs with h h1 h2
  · subst h
    refine .of_ok w fun e he W θ hθ => ?_
    obtain rfl : e = (.leaf x, .leaf x) := by simpa using he
    rfl
  · refine (hbind w (.refl u) rfl rfl hyf hxf hy hx (Ne.symm h)).imp fun θ _ he e hm => ?_
    obtain rfl : e = (.leaf x, .leaf y) := by simpa using hm
    exact (he (.leaf y, .leaf x) (by simp)).symm
  · exact hbind w (.refl u) rfl rfl hxf hyf hx hy h
  · refine hbind (w.raiseRank y) ⟨by simp, fun v t hv => by rwa [value?_raiseRank]⟩ (by simp) rfl ?_ ?_
      hx hy h
    · rwa [value?_raiseRank]
    · rwa [value?_raiseRank]

/-- Equations between pairs of terms, solved one after another. -/
theorem step_forM {k : TyTerm → TyTerm → Solve Unit} (ps : List (TyTerm × TyTerm))
    (w : u.WellFormed)
    (h : ∀ p ∈ ps, ∀ u', u'.WellFormed → u'.size = u.size → u'.deepest ≤ max u.deepest n →
      Step u' n [p] ((k p.1 p.2).run u')) :
    Step u n ps ((ps.forM fun (a, b) => k a b).run u) := by
  induction ps generalizing u with
  | nil => exact .of_ok w (by simp)
  | cons p ps ih =>
    have hp := h p (by simp) u w rfl (Nat.le_max_left ..)
    refine Step.bind (x := k p.1 p.2) hp ?_
    intro u' w' hsize hdeep
    refine ih w' fun q hq u'' w'' hs hd => h q (by simp [hq]) u'' w'' (hs.trans hsize) ?_
    omega

theorem run_head (h : u.head? t = some a) : (head t).run u = (.ok a, u) := run_read h

theorem Step.weaken {eqs : List (TyTerm × TyTerm)} {r : Except (Fault TypeError) Unit × Unifier}
    {m : Nat} (h : Step u m eqs r) (hm : m ≤ max u.deepest n) : Step u n eqs r := by
  refine ⟨h.wellFormed, h.later, h.size, ?_, h.fault, h.entails⟩
  have := h.deepest
  omega

theorem step_mismatch {eqs : List (TyTerm × TyTerm)} (w : u.WellFormed) (ha : u.Allocated a)
    (hb : u.Allocated b) : Step u n eqs ((mismatch a b).run u) := by
  rw [run_mismatch w ha hb]
  exact .of_error w

/-- Argument lists denote the same trees exactly if corresponding arguments do. -/
theorem map_under_eq_iff {θ : TypeVar → NamedTree W} {as bs : List TyTerm}
    (h : as.length = bs.length) : as.map (TyTerm.under θ) = bs.map (TyTerm.under θ) ↔
      ∀ p ∈ as.zip bs, TyTerm.under θ p.1 = TyTerm.under θ p.2 := by
  rw [← List.forall₂_eq_eq_eq, List.forall₂_map_left_iff, List.forall₂_map_right_iff,
    List.forall₂_iff_zip]
  simp [h]

/-- Equations between terms whose parts `solve` can make equal. -/
theorem step_unifyHeads {solve : TyTerm → TyTerm → Solve Unit}
    (h : ∀ a b u, u.WellFormed → u.Allocated a → u.Allocated b →
      Step u (max a.depth b.depth) [(a, b)] ((solve a b).run u))
    (w : u.WellFormed) (ha : u.Allocated a) (hb : u.Allocated b)
    (hfa : ∀ v, a = .leaf v → u.value? v = none) (hfb : ∀ v, b = .leaf v → u.value? v = none) :
    Step u (max a.depth b.depth) [(a, b)] ((unifyHeads solve a b).run u) := by
  fun_cases unifyHeads solve a b with
  | case1 x y =>
    exact step_join w (allocated_leaf.1 ha) (allocated_leaf.1 hb) (hfa x rfl) (hfb y rfl)
      (by simp [TypeTree.depth])
  | case2 x =>
    exact step_bindVar w (allocated_leaf.1 ha) (hfa x rfl) hb (by simp)
  | case3 a y =>
    refine (step_bindVar w (allocated_leaf.1 hb) (hfb y rfl) ha (by simp)).imp
      fun θ _ he e hm => ?_
    obtain rfl : e = (a, .leaf y) := by simpa using hm
    exact (he (.leaf y, a) (by simp)).symm
  | case4 => exact .of_ok w (by simp)
  | case5 s => exact .of_ok w (by simp)
  | case6 s t => exact step_mismatch w ha hb
  | case7 a b =>
    refine ((h a b u w ha hb).weaken ?_).imp fun θ _ he e hm => ?_
    · simp only [TypeTree.depth]
      omega
    · obtain rfl : e = (.power a, .power b) := by simpa using hm
      simpa using he
  | case8 a b c d =>
    rw [allocated_product] at ha hb
    refine (((h a c u w ha.1 hb.1).weaken ?_).bind fun u' w' hs hd =>
      (h b d u' w' (ha.2.mono hs.ge) (hb.2.mono hs.ge)).weaken ?_).imp fun θ _ he e hm => ?_
    · simp only [TypeTree.depth]
      omega
    · simp only [TypeTree.depth]
      omega
    · obtain rfl : e = (.product a b, .product c d) := by simpa using hm
      simpa using he
  | case9 d as e bs hde =>
    rw [allocated_data] at ha hb
    rw [Bool.and_eq_true, d.beq_iff_name e, beq_iff_eq (a := as.length)] at hde
    refine (step_forM (as.zip bs) w fun p hp u' w' hs hd =>
      (h p.1 p.2 u' w' ((ha p.1 (List.of_mem_zip hp).1).mono hs.ge)
        ((hb p.2 (List.of_mem_zip hp).2).mono hs.ge)).weaken ?_).imp fun θ _ he q hm => ?_
    · have hpa := TypeTree.depth_le_depthAll (List.of_mem_zip hp).1
      have hpb := TypeTree.depth_le_depthAll (List.of_mem_zip hp).2
      simp only [TypeTree.depth]
      omega
    · obtain rfl : q = (.data d as, .data e bs) := by simpa using hm
      rw [TyTerm.under_data, TyTerm.under_data, hde.1, (map_under_eq_iff hde.2).2 he]
  | case10 d as e bs hde => exact step_mismatch w ha hb
  | case11 => exact step_mismatch w ha hb

theorem step_unifyWithin (n : Nat) (a b : TyTerm) (u : Unifier) (w : u.WellFormed)
    (ha : u.Allocated a) (hb : u.Allocated b) :
    Step u (max a.depth b.depth) [(a, b)] ((unifyWithin n a b).run u) := by
  induction n generalizing a b u with
  | zero => exact step_mismatch w ha hb
  | succ n ih =>
    obtain ⟨c, hc, hac⟩ := exists_head w ha
    obtain ⟨d, hd, hbd⟩ := exists_head w hb
    rw [unifyWithin, run_bind_ok (run_head hc), run_bind_ok (run_head hd)]
    have hcd := step_unifyHeads ih w hac.allocated hbd.allocated hac.free hbd.free
    refine (hcd.weaken (n := max a.depth b.depth) ?_).imp fun θ hθ he e hm => ?_
    · have hca := hac.depth
      have hdb := hbd.depth
      omega
    · obtain rfl : e = (a, b) := by simpa using hm
      rw [hac.under θ hθ, hbd.under θ hθ]
      exact he (c, d) (by simp)

/-! A solution of the solver that also solves the equation is kept. -/

theorem solvedBy_join {θ : TypeVar → NamedTree W} {x y : TypeVar} (hθ : u.SolvedBy θ)
    (hx : x < u.size) (hy : y < u.size) (heq : θ x = θ y) : (u.join x y).SolvedBy θ := by
  unfold join
  split_ifs
  · exact hθ
  · exact hθ.bind hy heq.symm
  · exact hθ.bind hx heq
  · exact (hθ.raiseRank y).bind (by simpa using hx) heq

/-- A variable that is a proper part of what its value would be denotes no finite tree. -/
theorem not_mem_leaves_resolved {θ : TypeVar → NamedTree W} (w : u.WellFormed) (hθ : u.SolvedBy θ)
    (ht : u.Allocated t) (hleaf : ∀ v, t ≠ .leaf v) (heq : θ v = TyTerm.under θ t) :
    v ∉ (t.subst u.resolution).leaves := by
  intro hv
  have hmem : v ∈ (t.subst u.resolution).named.leaves := by simpa [TypeTree.named] using hv
  rcases TypeTree.depth_le_subst (f := θ) hmem with h | h
  · cases t <;> simp_all [TypeTree.subst, TypeTree.named, TypeTree.mapData]
  · have hres := w.under_subst_resolution hθ ht
    unfold TyTerm.under at hres heq
    rw [hres, ← heq] at h
    exact Nat.lt_irrefl _ h

/-- The run does not fail, and the solution `θ` of the solver stays one. -/
def Keeps (θ : TypeVar → NamedTree W) (x : Solve Unit) (u : Unifier) : Prop :=
  Succeeds x u fun _ u' => u'.WellFormed ∧ u'.size = u.size ∧ u'.SolvedBy θ

section Keeps
variable {θ : TypeVar → NamedTree W}

theorem keeps_pure (w : u.WellFormed) (hθ : u.SolvedBy θ) : Keeps θ (pure ()) u :=
  Succeeds.pure ⟨w, rfl, hθ⟩

theorem Keeps.bind {x y : Solve Unit} (h : Keeps θ x u)
    (k : ∀ u', u'.WellFormed → u'.size = u.size → u'.SolvedBy θ → Keeps θ y u') :
    Keeps θ (x >>= fun _ => y) u :=
  Succeeds.bind h fun _ u' ⟨w', hs, hθ⟩ =>
    (k u' w' hs hθ).mono fun _ _ ⟨w'', hs', hθ'⟩ => ⟨w'', hs'.trans hs, hθ'⟩

theorem keeps_join {x y : TypeVar} (w : u.WellFormed) (hθ : u.SolvedBy θ) (hx : x < u.size)
    (hy : y < u.size) (hxf : u.value? x = none) (hyf : u.value? y = none) (heq : θ x = θ y) :
    Keeps θ (modify (·.join x y)) u := by
  have h := step_join w hx hy hxf hyf Nat.one_pos
  exact ⟨(), _, rfl, h.wellFormed, h.size, solvedBy_join hθ hx hy heq⟩

theorem keeps_bindVar (w : u.WellFormed) (hθ : u.SolvedBy θ) (hv : v < u.size)
    (hf : u.value? v = none) (ht : u.Allocated t) (hleaf : ∀ v, t ≠ .leaf v)
    (heq : θ v = TyTerm.under θ t) : Keeps θ (bindVar v t) u := by
  have hocc := not_mem_leaves_resolved w hθ ht hleaf heq
  have hrun := run_bindVar (v := v) w ht
  rw [if_neg hocc] at hrun
  exact ⟨(), _, hrun, w.bind hv hf ht hocc, by simp, hθ.bind hv heq⟩

theorem keeps_forM {k : TyTerm → TyTerm → Solve Unit} (ps : List (TyTerm × TyTerm))
    (w : u.WellFormed) (hθ : u.SolvedBy θ)
    (h : ∀ p ∈ ps, ∀ u', u'.WellFormed → u'.size = u.size → u'.SolvedBy θ →
      Keeps θ (k p.1 p.2) u') :
    Keeps θ (ps.forM fun (a, b) => k a b) u := by
  induction ps generalizing u with
  | nil => exact keeps_pure w hθ
  | cons p ps ih =>
    refine Keeps.bind (x := k p.1 p.2) (h p (by simp) u w rfl hθ) fun u' w' hs hθ' => ?_
    exact ih w' hθ' fun q hq u'' w'' hs' => h q (by simp [hq]) u'' w'' (hs'.trans hs)

theorem keeps_unifyHeads {solve : TyTerm → TyTerm → Solve Unit}
    (h : ∀ a b u, u.WellFormed → u.Allocated a → u.Allocated b → u.SolvedBy θ →
      TyTerm.under θ a = TyTerm.under θ b → (TyTerm.under θ a).depth ≤ n → Keeps θ (solve a b) u)
    (w : u.WellFormed) (hθ : u.SolvedBy θ) (ha : u.Allocated a) (hb : u.Allocated b)
    (hfa : ∀ v, a = .leaf v → u.value? v = none) (hfb : ∀ v, b = .leaf v → u.value? v = none)
    (heq : TyTerm.under θ a = TyTerm.under θ b) (hn : (TyTerm.under θ a).depth ≤ n + 1) :
    Keeps θ (unifyHeads solve a b) u := by
  fun_cases unifyHeads solve a b with
  | case1 x y =>
    exact keeps_join w hθ (allocated_leaf.1 ha) (allocated_leaf.1 hb) (hfa x rfl) (hfb y rfl) heq
  | case2 x b hleaf =>
    exact keeps_bindVar w hθ (allocated_leaf.1 ha) (hfa x rfl) hb hleaf heq
  | case3 a y hleaf =>
    exact keeps_bindVar w hθ (allocated_leaf.1 hb) (hfb y rfl) ha hleaf heq.symm
  | case4 => exact keeps_pure w hθ
  | case5 s => exact keeps_pure w hθ
  | case6 s t hst => exact absurd (by simpa using heq) hst
  | case7 a b =>
    simp only [TyTerm.under_power, TypeTree.power.injEq, TypeTree.depth] at heq hn
    exact h a b u w ha hb hθ heq (by omega)
  | case8 a b c d =>
    rw [allocated_product] at ha hb
    simp only [TyTerm.under_product, TypeTree.product.injEq, TypeTree.depth] at heq hn
    refine (h a c u w ha.1 hb.1 hθ heq.1 (by omega)).bind fun u' w' hs hθ' => ?_
    exact h b d u' w' (ha.2.mono hs.ge) (hb.2.mono hs.ge) hθ' heq.2 (by omega)
  | case9 d as e bs hde =>
    rw [allocated_data] at ha hb
    rw [Bool.and_eq_true, d.beq_iff_name e, beq_iff_eq (a := as.length)] at hde
    simp only [TyTerm.under_data, TypeTree.data.injEq, TypeTree.depth] at heq hn
    refine keeps_forM (as.zip bs) w hθ fun p hp u' w' hs hθ' => ?_
    have hpa := (List.of_mem_zip hp).1
    have hdepth := TypeTree.depth_le_depthAll (List.mem_map_of_mem (f := TyTerm.under θ) hpa)
    exact h p.1 p.2 u' w' ((ha p.1 hpa).mono hs.ge) ((hb p.2 (List.of_mem_zip hp).2).mono hs.ge)
      hθ' ((map_under_eq_iff hde.2).1 heq.2 p hp) (by omega)
  | case10 d as e bs hde =>
    rw [Bool.and_eq_true, d.beq_iff_name e, beq_iff_eq (a := as.length)] at hde
    simp only [TyTerm.under_data, TypeTree.data.injEq] at heq
    have hlen := congrArg List.length heq.2
    simp only [List.length_map] at hlen
    exact absurd ⟨heq.1, hlen⟩ hde
  | case11 a b _ hxa hxb hbool hgiven hpower hproduct hdata =>
    -- terms with different heads denote different trees
    cases a <;> cases b <;> first
      | exact (hxa _ rfl).elim
      | exact (hxb _ rfl).elim
      | exact (hbool rfl rfl).elim
      | exact (hgiven _ _ rfl rfl).elim
      | exact (hpower _ _ rfl rfl).elim
      | exact (hproduct _ _ _ _ rfl rfl).elim
      | exact (hdata _ _ _ _ rfl rfl).elim
      | exact absurd heq (by simp)

theorem keeps_unifyWithin (n : Nat) (a b : TyTerm) (u : Unifier) (w : u.WellFormed)
    (ha : u.Allocated a) (hb : u.Allocated b) (hθ : u.SolvedBy θ)
    (heq : TyTerm.under θ a = TyTerm.under θ b) (hn : (TyTerm.under θ a).depth ≤ n) :
    Keeps θ (unifyWithin n a b) u := by
  induction n generalizing a b u with
  | zero => exact absurd hn (Nat.not_le_of_lt (TypeTree.depth_pos _))
  | succ n ih =>
    obtain ⟨c, hc, hac⟩ := exists_head w ha
    obtain ⟨d, hd, hbd⟩ := exists_head w hb
    rw [hac.under θ hθ] at heq hn
    rw [hbd.under θ hθ] at heq
    unfold Keeps Succeeds
    rw [unifyWithin, run_bind_ok (run_head hc), run_bind_ok (run_head hd)]
    exact keeps_unifyHeads ih w hθ hac.allocated hbd.allocated hac.free hbd.free heq hn

theorem run_unify (u : Unifier) (a b : TyTerm) :
    (unify a b).run u = (unifyWithin (u.reach a b) a b).run u := run_bind_ok (run_get u)

theorem step_unify (w : u.WellFormed) (ha : u.Allocated a) (hb : u.Allocated b) :
    Step u (max a.depth b.depth) [(a, b)] ((unify a b).run u) := by
  rw [run_unify]
  exact step_unifyWithin _ a b u w ha hb

/-- What a run with any bound found is a solution from before that respects `reach`. -/
theorem resolution_within_reach {u' : Unifier} (w : u.WellFormed) (ha : u.Allocated a)
    (hb : u.Allocated b) (h : (unifyWithin n a b).run u = (.ok (), u')) :
    u.SolvedBy (fun v => (u'.resolution v).named) ∧
      TyTerm.under (fun v => (u'.resolution v).named) a =
        TyTerm.under (fun v => (u'.resolution v).named) b ∧
      (TyTerm.under (fun v => (u'.resolution v).named) a).depth ≤ u.reach a b := by
  have hstep := step_unifyWithin n a b u w ha hb
  rw [h] at hstep
  have hres := hstep.wellFormed.solvedBy_resolution
  refine ⟨hres.of_extends hstep.later, hstep.entails rfl (a, b) (by simp) _ hres, ?_⟩
  have hpos : 0 < max u.deepest (max a.depth b.depth) := by
    have := TypeTree.depth_pos a
    omega
  have hdepth := hstep.wellFormed.depth_resolution_le hpos hstep.deepest
    (ha.mono hstep.later.size) (by omega)
  rw [← TypeTree.depth_mapData Datatype.name, TypeTree.mapData_subst] at hdepth
  rwa [hstep.size] at hdepth

/-- A solution of the solver that solves the equation stays one, whatever its depth: it factors
through a solution that respects the bound. -/
theorem keeps_unify (w : u.WellFormed) (ha : u.Allocated a) (hb : u.Allocated b)
    (hθ : u.SolvedBy θ) (heq : TyTerm.under θ a = TyTerm.under θ b) : Keeps θ (unify a b) u := by
  obtain ⟨_, u₁, h₁, w₁, hs₁, hθ₁⟩ := keeps_unifyWithin _ a b u w ha hb hθ heq (Nat.le_refl _)
  obtain ⟨hρ, hρeq, hρn⟩ := resolution_within_reach w ha hb h₁
  obtain ⟨_, u₂, h₂, w₂, hs₂, hρ₂⟩ := keeps_unifyWithin _ a b u w ha hb hρ hρeq hρn
  have hfactor : ∀ x < u₂.size, ((u₁.resolution x).named).subst θ = θ x := fun x hx =>
    w₁.under_resolution hθ₁ (by rwa [hs₁, ← hs₂])
  refine ⟨(), u₂, by rw [run_unify, h₂], w₂, hs₂, fun v t hv => ?_⟩
  have hvt := congrArg (TypeTree.subst θ) (hρ₂ v t hv)
  rw [hfactor v (lt_size_of_value? hv), TyTerm.under, TypeTree.subst_subst] at hvt
  rw [hvt, TyTerm.under]
  refine TypeTree.subst_congr fun x hx => hfactor x (w₂.allocated v t hv x ?_)
  simpa [TypeTree.named] using hx

end Keeps

end Solve
end SetLang
