import SetLang.Proofs.Encoding.Elimination
import SetLang.Proofs.Identifiers

/-! Fresh names over the whole course of an encoding. Every name that is given out, whatever call asks for it, is the
first candidate for its base that is free by then. So it differs from the names of the environment, from the given
types in it, from all names that were given out before, and from the free names of the typed predicates that were
passed before. -/

namespace SetLang

variable {S S' : EncodingState} {es es' : List NameEvent} {env : Environment} {source : Factory}
  {held held' : Set Formula} {p : Pred} {x : String}

namespace NameEvent

def taken (es : List NameEvent) : List String := es.reverse.flatMap names

def given (es : List NameEvent) : List String := es.filterMap given?

theorem taken_append (es es' : List NameEvent) : taken (es ++ es') = taken es' ++ taken es := by
  simp [taken]

theorem given_append (es es' : List NameEvent) : given (es ++ es') = given es ++ given es' :=
  List.filterMap_append

theorem mem_taken : x ∈ taken es ↔ ∃ e ∈ es, x ∈ e.names := by
  simp [taken]

theorem mem_given : x ∈ given es ↔ ∃ base, .gave base x ∈ es := by
  rw [given, List.mem_filterMap]
  constructor
  · rintro ⟨e, he, hx⟩
    cases e with
    | gave base name =>
      obtain rfl := Option.some_inj.1 hx
      exact ⟨base, he⟩
    | took p => cases hx
  · rintro ⟨base, he⟩
    exact ⟨_, he, rfl⟩

theorem mem_names_took (hx : x ∈ (Formula.pred p).freeNames) : x ∈ (took p).names := by
  obtain ⟨e, he, hname⟩ := Formula.found_of_mem_freeNames (f := .pred p) rfl hx
  exact List.mem_filterMap.2 ⟨e, he, hname⟩

end NameEvent

open NameEvent

namespace EncodingState.Names

theorem used (h : S.Names es S') : S'.encoding.used = taken es ++ S.encoding.used := by
  induction h with
  | still hused _ => exact hused
  | gave hrun =>
    cases hrun
    rfl
  | took hrun =>
    cases hrun
    simp [taken, names]
  | trans _ _ ih ih' => rw [ih', ih, taken_append, List.append_assoc]

/-- The names that are given out are kept with their types, and no other names are. -/
theorem mem_allocated (h : S.Names es S') :
    x ∈ S'.encoding.allocated.names ↔ x ∈ S.encoding.allocated.names ∨ x ∈ given es := by
  induction h with
  | still _ hallocated => simp [hallocated, given]
  | gave hrun =>
    cases hrun
    rw [Environment.mem_names_insert, or_comm]
    simp [given, given?]
  | took hrun =>
    cases hrun
    simp [given, given?]
  | trans _ _ ih ih' => rw [ih', ih, given_append, List.mem_append, or_assoc]

/-- The name that is given out by an event is the fresh one after the events before. -/
theorem eq_freshName (h : S.Names es S') {before after : List NameEvent} {base name : String}
    (hes : es = before ++ .gave base name :: after) :
    name = freshName (taken before ++ S.encoding.used) base := by
  induction h generalizing before after with
  | still _ _ => simp at hes
  | gave hrun =>
    cases hrun
    obtain ⟨rfl, heq⟩ | ⟨-, heq⟩ := List.append_eq_singleton_iff.1 hes.symm
    · cases heq
      rfl
    · cases heq
  | took hrun =>
    obtain ⟨-, heq⟩ | ⟨-, heq⟩ := List.append_eq_singleton_iff.1 hes.symm <;> cases heq
  | @trans S₁ S₂ S₃ es₁ es₂ h k ih ih' =>
    -- the event is one of the later ones, the first of these included, or one of the earlier ones
    obtain ⟨mid, rfl, hlater⟩ | ⟨mid, rfl, hevent⟩ := List.append_eq_append_iff.1 hes
    · rw [ih' hlater, h.used, taken_append, List.append_assoc]
    · cases mid with
      | nil =>
        have hfirst : es₂ = [] ++ .gave base name :: after := hevent.symm
        rw [ih' hfirst, h.used, List.append_nil]
        rfl
      | cons e mid =>
        cases hevent
        exact ih rfl

theorem nodup_given (h : S.Names es S') :
    (given es).Nodup ∧ ∀ x ∈ given es, x ∉ S.encoding.used := by
  induction h with
  | still _ _ => exact ⟨List.nodup_nil, fun _ hx => by cases hx⟩
  | gave hrun =>
    cases hrun
    exact ⟨List.nodup_singleton _, List.forall_mem_singleton.2 (freshName_notMem _ _)⟩
  | took hrun => exact ⟨List.nodup_nil, fun _ hx => by cases hx⟩
  | @trans S₁ S₂ S₃ es₁ es₂ h _ ih ih' =>
    have hearlier : given es₁ ⊆ S₂.encoding.used := fun x hx => by
      obtain ⟨base, he⟩ := mem_given.1 hx
      rw [h.used]
      exact List.mem_append_left _ (mem_taken.2 ⟨_, he, List.mem_singleton_self x⟩)
    rw [given_append]
    refine ⟨List.nodup_append'.2 ⟨ih.1, ih'.1, fun x hx hx' => ih'.2 x hx' (hearlier hx)⟩, ?_⟩
    intro x hx hused
    rcases List.mem_append.1 hx with hx | hx
    · exact ih.2 x hx hused
    · exact ih'.2 x hx (h.used ▸ List.mem_append_right _ hused)

end EncodingState.Names

namespace EncodingState

def passing (p : Pred) : Encode (List Formula) := do
  return [.pred (← Encode.pred p)]

/-- The runs of an encoding of the formulas of a factory over an environment, with all that has happened to names.
When a typed predicate is passed, the names of its free identifiers are taken before anything else. -/
inductive Ran (source : Factory) (env : Environment) :
    EncodingState → Set Formula → List NameEvent → Prop
  | start {s s' : Store} {held : Set Formula} {encoding : Encoding} : source.Assembled →
    Session.Moves .empty ∅ s held → (Build.encoding source env).run s = (.ok encoding, s') →
    Ran source env ⟨s', encoding⟩ held []
  | session {S : EncodingState} {s : Store} {held held' : Set Formula} {es : List NameEvent} :
    Ran source env S held es → Session.Move S.store held s held' → Ran source env ⟨s, S.encoding⟩ held' es
  | pred {S : EncodingState} {held : Set Formula} {es es' : List NameEvent} {p : Pred} :
    Ran source env S held es → .pred p ∈ held → p.isTyped S.store →
    S.Names (.took p :: es') ((passing p).run S).2 →
    Ran source env ((passing p).run S).2
      (held ∪ (Session.results ((passing p).run S).1 ∪ ((passing p).run S).2.encoding.formulas))
      (es ++ .took p :: es')
  | call {S : EncodingState} {held : Set Formula} {es es' : List NameEvent} {x : Encode (List Formula)} :
    Ran source env S held es → Encode.Call held x → (∀ p, .pred p ∈ held → p.isTyped S.store → x ≠ passing p) →
    S.Names es' (x.run S).2 →
    Ran source env (x.run S).2 (held ∪ (Session.results (x.run S).1 ∪ (x.run S).2.encoding.formulas)) (es ++ es')

theorem Ran.reached (h : Ran source env S held es) : Reached source S held := by
  induction h with
  | start hsource hs hrun => exact .start hsource hs hrun
  | session _ hstep ih => exact ih.step (.session hstep)
  | pred _ hp _ _ ih => exact ih.step (.encode (.pred hp))
  | call _ hx _ _ ih => exact ih.step (.encode hx)

/-- The events of a run lead from a state in which just the names of the environment are taken. -/
theorem Ran.names (h : Ran source env S held es) : ∃ S₀ : EncodingState,
    S₀.encoding.used = Encoding.initialNames env ∧ S₀.encoding.allocated = .empty ∧ S₀.Names es S := by
  induction h with
  | start _ _ hrun =>
    cases hrun
    exact ⟨_, rfl, rfl, .still rfl rfl⟩
  | @session S s held held' es _ _ ih =>
    obtain ⟨S₀, hused, hallocated, hnames⟩ := ih
    have hstill : S.Names [] ⟨s, S.encoding⟩ := .still rfl rfl
    exact ⟨S₀, hused, hallocated, by simpa using hnames.trans hstill⟩
  | pred _ _ _ hevents ih =>
    obtain ⟨S₀, hused, hallocated, hnames⟩ := ih
    exact ⟨S₀, hused, hallocated, hnames.trans hevents⟩
  | call _ _ _ hevents ih =>
    obtain ⟨S₀, hused, hallocated, hnames⟩ := ih
    exact ⟨S₀, hused, hallocated, hnames.trans hevents⟩

theorem Sound.names_passing (h : S.Sound held) (hp : .pred p ∈ held) (htyped : p.isTyped S.store) :
    ∃ es, S.Names (.took p :: es) ((passing p).run S).2 := by
  have htook : S.Names [.took p] (S.taking p) := .took rfl
  have hquiet : S.Quiet (S.taking p) := ⟨.refl _, rfl, rfl, rfl, ⟨_, htook⟩, rfl⟩
  obtain ⟨-, -, hlater, -⟩ := Encode.preserves_rebuildPred Encode.imaging_soundness.kept S.encoding.target h.store
    p 0 (S.taking p) held Set.Subset.rfl hp (h.quiet hquiet h.store Set.Subset.rfl)
  obtain ⟨es, hes⟩ := hlater.names
  refine ⟨es, ?_⟩
  rw [passing, snd_run_bind_pure, Encode.run_pred htyped]
  exact htook.trans hes

theorem Ran.step (h : Ran source env S held es) (hstep : Step S held S' held') :
    ∃ es', Ran source env S' held' (es ++ es') := by
  have hsound := h.reached.sound.1
  have hlater := (hstep.preserves Encode.imaging_soundness.kept hsound).1
  cases hstep with
  | session hstep => exact ⟨[], by simpa using h.session hstep⟩
  | @encode _ x hx =>
    by_cases hpassing : ∃ p, .pred p ∈ held ∧ p.isTyped S.store ∧ x = passing p
    · obtain ⟨p, hp, htyped, rfl⟩ := hpassing
      obtain ⟨es', hes'⟩ := hsound.names_passing hp htyped
      exact ⟨.took p :: es', h.pred hp htyped hes'⟩
    · push Not at hpassing
      obtain ⟨es', hes'⟩ := hlater.names
      exact ⟨es', h.call hx hpassing hes'⟩

theorem run_passing_untyped (h : p.isTyped S.store = false) :
    (passing p).run S = (.error (.error (.formula .notTypeChecked)), S) := by
  rw [passing, run_bind, Encode.pred, run_bind_ok (Encode.run_store S), h]
  rfl

/-- Fresh names in every run of an encoding. A run goes on with every step. At any time the search for a name
ends with the first candidate that is free; the names that are taken are those of the environment, of the given
types in it, and of what happened. The names that were given out are all different, and they are those that are
kept with their types. Each was the first free candidate for its base when it was given out, and it is no name of the
environment, no given type in it and no free name of a typed predicate that was passed before. A predicate that is
not typed is refused, and nothing changes. -/
theorem Ran.names_fresh (h : Ran source env S held es) :
    (∀ S' held', Step S held S' held' → ∃ es', Ran source env S' held' (es ++ es')) ∧
    (∀ base type, ∃ k ≤ S.encoding.used.length, FirstFree S.encoding.used base k ∧
      ((Encode.allocate base type).run S).1 = .ok (candidate base k)) ∧
    S.encoding.used = taken es ++ Encoding.initialNames env ∧
    (given es).Nodup ∧ (∀ x, x ∈ S.encoding.allocated.names ↔ x ∈ given es) ∧
    (∀ before base name after, es = before ++ .gave base name :: after →
      (∃ k, FirstFree (taken before ++ Encoding.initialNames env) base k ∧ name = candidate base k) ∧
      name ∉ env.names ∧ (∀ entry ∈ env.entries, name ∉ entry.2.givens) ∧
      ∀ p, .took p ∈ before → name ∉ (Formula.pred p).freeNames) ∧
    ∀ p, p.isTyped S.store = false →
      (passing p).run S = (.error (.error (.formula .notTypeChecked)), S) := by
  obtain ⟨S₀, hused, hallocated, hnames⟩ := h.names
  refine ⟨fun _ _ => h.step, fun base type => ?_, hused ▸ hnames.used, hnames.nodup_given.1, fun x => ?_,
    fun before base name after hes => ?_, fun _ => run_passing_untyped⟩
  · obtain ⟨k, hk, hfirst, heq⟩ := exists_freshName_eq S.encoding.used base
    exact ⟨k, hk, hfirst, congrArg Except.ok heq⟩
  · rw [hnames.mem_allocated, hallocated]
    simp [Environment.names, Environment.empty]
  · have hname := hnames.eq_freshName hes
    rw [hused] at hname
    obtain ⟨k, -, hfirst, heq⟩ := exists_freshName_eq (taken before ++ Encoding.initialNames env) base
    have hfree : name ∉ taken before ++ Encoding.initialNames env := hname ▸ freshName_notMem _ _
    rw [List.mem_append, Encoding.initialNames, List.mem_append, not_or, not_or] at hfree
    obtain ⟨hbefore, henv, hgivens⟩ := hfree
    refine ⟨⟨k, hfirst, hname.trans heq⟩, henv, fun entry hentry hx => ?_, fun p hp hx => ?_⟩
    · exact hgivens (List.mem_flatMap.2 ⟨entry, hentry, hx⟩)
    · exact hbefore (mem_taken.2 ⟨_, hp, mem_names_took hx⟩)

theorem ne_passing {x : Encode (List Formula)} (h : (x.run S).1 = .ok []) : x ≠ passing p := by
  rintro rfl
  rw [passing, run_bind] at h
  rcases hrun : (Encode.pred p).run S with ⟨_ | p', S'⟩ <;> rw [hrun] at h <;> cases h

theorem Ran.freshGiven (h : Ran source env S held es) (base : String) : ∃ held', held ⊆ held' ∧
    Ran source env ((Encode.allocate base Ty.givenSet).run S).2 held'
      (es ++ [.gave base (freshName S.encoding.used base)]) := by
  have hanswer : ((do
    let _ ← Encode.freshGiven base
    return [] : Encode (List Formula)).run S).1 = .ok [] := rfl
  have hrun : (Encode.allocate base Ty.givenSet).run S = (.ok _, _) := rfl
  exact ⟨_, Set.subset_union_left, h.call (.freshGiven base) (fun _ _ _ => ne_passing hanswer) (.gave hrun)⟩

end EncodingState

namespace Session

def truthSelfEquation : Pred :=
  .comparison ⟨bareFactory, 0⟩ .eq (.free ⟨bareFactory, 0⟩ "x" (some .boolean))
    (.free ⟨bareFactory, 1⟩ "x" (some .boolean))

theorem assembled_bareFactory : bareFactory.Assembled :=
  ⟨{ LanguageDraft.core with grammar := .empty }, .grammar .empty (.core .v2), rfl⟩

open EncodingState

/-- Where the environment has a type for `x`, the names for `x` and `x0` are `x0` and `x00`; once the equation was
passed, no later name is free in it. -/
theorem names_fresh_truthSelfEquation : ∃ S held es name, Ran bareFactory ⟨[("x", .boolean)]⟩ S held
      (([.gave "x" "x0", .gave "x0" "x00"] ++ .took truthSelfEquation :: es) ++ [.gave "x" name]) ∧
    name ≠ "x0" ∧ name ≠ "x00" ∧ name ∉ (Formula.pred truthSelfEquation).freeNames := by
  obtain ⟨held₁, -, hx, h₁⟩ := Moves.empty.makeLeaf bareFactory
    (.free ⟨bareFactory, 0⟩ "x" (some .boolean)) _ ⟨#[some .boolean], #[], 0⟩ rfl trivial rfl
  obtain ⟨held₂, hsub, hy, h₂⟩ := h₁.makeLeaf bareFactory
    (.free ⟨bareFactory, 1⟩ "x" (some .boolean)) _ ⟨#[some .boolean, some .boolean], #[], 0⟩
    rfl trivial rfl
  obtain ⟨held₃, -, hp, h₃⟩ := h₂.makePred bareFactory truthSelfEquation truthSelfEquation
    ⟨#[some .boolean, some .boolean], #[true], 0⟩
    (by simpa [truthSelfEquation, Pred.children] using ⟨hsub hx, hy⟩) trivial rfl
  have hstart : Ran bareFactory ⟨[("x", .boolean)]⟩ _ held₃ [] := .start assembled_bareFactory h₃
    (rfl : (Build.encoding bareFactory _).run _ = (.ok _, _))
  obtain ⟨held₄, hsub₄, hasked⟩ := hstart.freshGiven "x"
  obtain ⟨held₅, hsub₅, hagain⟩ := hasked.freshGiven "x0"
  obtain ⟨later, hlater⟩ := hagain.reached.sound.1.names_passing (hsub₅ (hsub₄ hp)) rfl
  obtain ⟨held₆, -, hlast⟩ := (hagain.pred (hsub₅ (hsub₄ hp)) rfl hlater).freshGiven "x"
  obtain ⟨-, -, -, hnodup, -, hfresh, -⟩ := hlast.names_fresh
  obtain ⟨-, -, -, hfree⟩ := hfresh _ "x" _ [] rfl
  simp only [given_append] at hnodup
  have hother := (List.nodup_append'.1 hnodup).2.2
  refine ⟨_, _, later, _, hlast, ?_, ?_, hfree _ (by simp)⟩
  · rintro heq
    exact hother (List.mem_append_left _ List.mem_cons_self) (List.mem_singleton.2 heq.symm)
  · rintro heq
    exact hother (List.mem_append_left _ (List.mem_cons_of_mem _ List.mem_cons_self)) (List.mem_singleton.2 heq.symm)

/-- The names of a predicate that is refused are given out. -/
theorem not_fresh_of_refused : ¬ ∀ (source : Factory) (S S' : EncodingState) (held : Set Formula) (p : Pred)
    (base name : String) (type : String → Ty), EncodingState.Reached source S held → .pred p ∈ held →
    ((Encode.allocate base type).run ((passing p).run S).2) = (.ok name, S') →
    name ∉ (Formula.pred p).freeNames := by
  intro h
  obtain ⟨held, hmoves, hp⟩ := reached_selfEquation
  have hstart : EncodingState.Reached bareFactory _ held := .start assembled_bareFactory hmoves
    (rfl : (Build.encoding bareFactory .empty).run _ = (.ok _, _))
  refine h bareFactory _ _ held selfEquation "x" "x" Ty.givenSet hstart hp rfl ?_
  have hchild : Formula.expr (.free ⟨bareFactory, 0⟩ "x" none) ∈ (Formula.pred selfEquation).components :=
    List.mem_cons_self
  exact Formula.mem_freeNames.2 ⟨_, _, Formula.nodes_closed (Formula.mem_nodes_self _) hchild⟩

end Session
end SetLang
