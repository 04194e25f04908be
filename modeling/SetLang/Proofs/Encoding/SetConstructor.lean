import SetLang.Proofs.Encoding.Elimination
import SetLang.Proofs.Encoding.Freeness
import SetLang.Proofs.Encoding.Typed

/-! What the definition of a set constructor asks for. It quantifies over all sets of parameter values, the
empty ones included, and takes their image under one relation. The image of the empty set is empty, while a
constructor without arguments builds its value whatever the sets are. So no interpretation satisfies the axioms
of an instance with a set constructor and a constructor without arguments. -/

namespace SetLang

universe u

open ZFSet (pair prod powerset)

variable {s : Store} {f : Factory} {α : Type} {S S' : EncodingState} {r : Representation}
  {held : Set Formula}

/-- An instance with type arguments of a datatype that has a constructor without arguments beside one with
arguments, such as the lists over a type. -/
def Instance.Mixed (i : Instance) : Prop :=
  i.args ≠ [] ∧ i.datatype.hasArguments ∧ ∃ c ∈ i.datatype.constructors, c.arguments = []

instance (i : Instance) : Decidable i.Mixed := inferInstanceAs (Decidable (_ ∧ _ ∧ _))

theorem BinaryOp.combined_cprod_empty {as : List ZFSet.{u}} {d : ZFSet.{u}}
    (hd : BinaryOp.cprod.combined? as = some d) (h : ∅ ∈ as) : d = ∅ := by
  refine (ZFSet.eq_empty _).2 fun z hz => ?_
  obtain ⟨xs, hxs, -⟩ := (BinaryOp.mem_combined_cprod hd).1 hz
  obtain ⟨x, -, hx⟩ := forall₂_exists_right hxs.flip h
  exact ZFSet.notMem_empty x hx

namespace Build

theorem yields_image (relation : Expr) (sets : List Expr) : Yields (f.image relation sets) s fun e _ =>
    ∀ (I : Interpretation.{u}) s env d,
      BinaryOp.cprod.combined? (sets.map (Expr.value I s env)) = some d →
        e.value I s env = Relation.image (relation.value I s env) d := by
  have hall : ∀ Q : Ty → Prop, (Expr.Plan.image relation sets).All (fun _ => True) Q :=
    fun Q => Expr.Plan.all_image trivial fun _ _ => trivial
  rw [Expr.Plan.build_image]
  refine (Expr.Plan.yields_value.{u} _ s (hall _)).mono fun e _ he I s env d hd => ?_
  rw [he I s env (hall _)]
  rw [← Expr.Plan.value_combined?] at hd
  obtain ⟨product, hproduct, rfl⟩ := Option.map_eq_some_iff.1 hd
  rw [Expr.Plan.image, hproduct]
  rfl

theorem yields_quantifiedPred {ds : List Declaration} {ts : List Ty} (op : Quantifier) (p : Pred)
    (hds : List.Forall₂ (fun d t => d.type? s = some t) ds ts) :
    Yields (f.quantifiedPred op ds p) s fun q s' => ∀ (I : Interpretation.{u}) s'', s'.Later s'' →
      (q.Holds I s'' [] ↔ op.Holds (ts.map (Ty.values I)) fun xs => p.Holds I s'' xs.reverse) := by
  refine (yields_quantified op p hds).mono ?_
  rintro _ s' ⟨n, ds', rfl, hds'⟩ I s'' hlater
  have hdomains : ds'.map (Declaration.domain I s'') = ts.map (Ty.values I) := by
    rw [← List.forall₂_eq_eq_eq, List.forall₂_map_left_iff, List.forall₂_map_right_iff]
    refine hds'.imp fun d t ht => ?_
    unfold Declaration.domain
    rw [show d.type? s'' = some t from hlater.type? _ _ ht]
  rw [Pred.holds_quantified, hdomains]
  simp only [List.append_nil]

end Build

namespace Encode

theorem yields_bound (n : Node) (i : Nat) (t : Option Ty) :
    Yields (Encode.expr (.bound n i t)) S fun e _ => ∃ n' t', e = .bound n' i t' := by
  refine Yields.bind_any fun f S₁ => Yields.bind_any fun s S₂ => ?_
  rw [Rebuilder.expr]
  refine Yields.bind_any fun t' S₃ => yields_liftM (Q := fun e _ => ∃ n' t', e = Expr.bound n' i t') ?_
  exact (Build.yields_expr f (.bound · i t')).mono fun e _ ⟨n', he⟩ => ⟨n', t', he⟩

end Encode

/-- What the definition of a set constructor is made of, and what it says: whatever sets of values the bound
identifiers stand for, the image of their product is partitioned into what the constructors build of them. -/
structure Representation.SetDefinition (r : Representation) (set : Expr) (sets parts : List Expr)
    (p : Pred) (s : Store) : Prop where
  bound : ∀ e ∈ sets, ∃ n i t, e = .bound n i t
  nonempty : sets ≠ []
  values : List.Forall₂ (fun (x : Constructor × ConstructorImage) part => x.1.arguments = [] →
    ∀ (I : Interpretation.{u}) s env, part.value I s env = {x.2.function.value I s env})
      (r.source.datatype.constructors.zip r.constructors) parts
  holds : ∀ (I : Interpretation.{u}) s', s.Later s' → p.Holds I s' [] → ∀ xs,
    List.Forall₂ (fun x t => x ⊆ Ty.values I t) xs ((r.source.datatype.params.zip r.params).map Prod.snd) →
      ∀ d, BinaryOp.cprod.combined? (sets.map (Expr.value I s' xs.reverse)) = some d →
        Partitions (Relation.image (set.value I s' xs.reverse) d :: parts.map (Expr.value I s' xs.reverse))

namespace Representation

variable {set : Expr} {sets parts : List Expr} {p : Pred} {I : Interpretation.{u}}

theorem yields_imagePartition (hargs : r.source.args ≠ []) :
    Yields (r.imagePartition set) S fun p S' => ∃ sets parts,
      r.SetDefinition.{u} set sets parts p S'.store := by
  unfold imagePartition
  refine Yields.bind_any fun t S₁ => ?_
  refine (Yields.mapM (P := fun _ e => ∃ n i t, e = Expr.bound n i t) fun x _ S' => ?_).bind
    fun subsets S₂ hsubsets => ?_
  · exact Encode.yields_liftM (Q := fun e _ => ∃ n i t, e = Expr.bound n i t)
      ((Build.yields_expr _ _).mono fun e _ ⟨n, he⟩ => ⟨n, _, _, he⟩)
  refine Yields.bind_any fun ext S₃ => Yields.bind_any fun own S₄ => ?_
  refine (Yields.mapM (P := fun _ e => ∃ n i t, e = Expr.bound n i t) fun e he S' => ?_).bind
    fun sets S₅ hsets => ?_
  · obtain ⟨_, _, n, i, t, rfl⟩ := forall₂_exists_right hsubsets.flip he
    exact (Encode.yields_bound n i t).mono fun e _ ⟨n', t', he⟩ => ⟨n', i, t', he⟩
  refine (Encode.yields_liftM (Build.yields_image.{u} set sets)).bind fun whole S₆ hwhole => ?_
  refine (Yields.mapM (P := fun (x : Constructor × ConstructorImage) e => x.1.arguments = [] →
    ∀ (I : Interpretation.{u}) s env, e.value I s env = {x.2.function.value I s env})
      fun x _ S' => ?_).bind fun parts S₇ hparts => ?_
  · obtain ⟨c, image⟩ := x
    dsimp only [builtFrom]
    split_ifs with hc
    · exact (Encode.yields_liftM (Build.yields_singleton.{u} image.function)).mono fun e _ he _ => he
    · exact fun _ _ _ hnone => absurd (by simpa using hnone) hc
  refine (Encode.succeeds_declares _).yields.bind fun decls S₈ hdecls => ?_
  refine (Encode.yields_liftM ((Build.yields_partition.{u} (whole :: parts)).and
    (Build.yields_required (Build.yields_predNode _ _)))).bind fun body S₉ h₉ => ?_
  have htyped : List.Forall₂ (fun d t => d.type? S₉.store = some t) decls
      (((r.source.datatype.params.zip r.params).map Prod.snd).map .power) := by
    refine List.forall₂_map_right_iff.2 (hdecls.2.2.imp fun d t hd => ?_)
    unfold Declaration.type? Store.type?
    rw [h₉.2.2]
    exact hd
  refine (Encode.yields_liftM (Build.yields_quantifiedPred.{u} .all body htyped)).mono
    fun p S' hp => ⟨sets, parts, ?_, ?_, hparts, fun I s' k hholds xs hxs d hd => ?_⟩
  · intro e he
    obtain ⟨_, _, h⟩ := forall₂_exists_right hsets.flip he
    exact h
  · refine ne_nil_of_forall₂ hsets (ne_nil_of_forall₂ hsubsets ?_)
    simpa using hargs
  · have hdomains : List.Forall₂ (· ∈ ·) xs ((((r.source.datatype.params.zip r.params).map Prod.snd).map
        .power).map (Ty.values I)) := by
      rw [List.map_map, List.forall₂_map_right_iff]
      exact hxs.imp fun _ _ h => ZFSet.mem_powerset.2 h
    have hbody := (h₉.1 I s' _).1 ((hp I s' k).1 hholds xs hdomains)
    rw [List.map_cons] at hbody
    rwa [hwhole I s' _ d hd] at hbody

namespace SetDefinition

/-- For empty sets the definition says that no constructor builds anything. -/
theorem values_empty (h : r.SetDefinition.{u} set sets parts p s) {s' : Store} (k : s.Later s')
    (hp : p.Holds I s' []) : ∃ env, ∀ part ∈ parts, part.value I s' env = ∅ := by
  -- all bound identifiers stand for the empty set, so that the image is empty, and its parts with it
  generalize hxs : ((r.source.datatype.params.zip r.params).map Prod.snd).map (fun _ => (∅ : ZFSet.{u})) = xs
  have hempty : ∀ x ∈ xs, x = ∅ := by
    rw [← hxs]
    exact List.forall_mem_map.2 fun _ _ => rfl
  have hsubsets : List.Forall₂ (fun x t => x ⊆ Ty.values I t) xs
      ((r.source.datatype.params.zip r.params).map Prod.snd) := by
    rw [← hxs, List.forall₂_map_left_iff, List.forall₂_same]
    exact fun _ _ => ZFSet.empty_subset _
  have hsets : ∀ y ∈ sets.map (Expr.value I s' xs.reverse), y = ∅ := by
    refine List.forall_mem_map.2 fun e he => ?_
    obtain ⟨n, i, t, rfl⟩ := h.bound e he
    rw [Expr.value, List.getD_eq_getElem?_getD]
    cases hi : xs.reverse[i]? with
    | none => rfl
    | some x => exact hempty x (List.mem_reverse.1 (List.mem_of_getElem? hi))
  obtain ⟨y, ys, hys⟩ := List.exists_cons_of_ne_nil (mt List.map_eq_nil_iff.1 h.nonempty)
  have hproduct : BinaryOp.cprod.combined? (sets.map (Expr.value I s' xs.reverse)) =
      some (ys.foldl prod y) := congrArg _ hys
  have hy : y ∈ sets.map (Expr.value I s' xs.reverse) := hys ▸ List.mem_cons_self
  obtain ⟨hmem, -⟩ := h.holds I s' k hp xs hsubsets _ hproduct
  rw [BinaryOp.combined_cprod_empty hproduct (hsets y hy ▸ hy), Relation.image_empty] at hmem
  refine ⟨xs.reverse, fun part hpart => (ZFSet.eq_empty _).2 fun z hz => ?_⟩
  exact ZFSet.notMem_empty z ((hmem z).2 ⟨_, List.mem_map_of_mem hpart, hz⟩)

/-- But a constructor without arguments builds its value. -/
theorem arguments_ne_nil (h : r.SetDefinition.{u} set sets parts p s) (hr : r.Complete) {s' : Store}
    (k : s.Later s') (hp : p.Holds I s' []) :
    ∀ c ∈ r.source.datatype.constructors, c.arguments ≠ [] := by
  intro c hc hnone
  have hzip : List.Forall₂ (fun c image => (c, image) ∈ r.source.datatype.constructors.zip r.constructors)
      r.source.datatype.constructors r.constructors :=
    List.forall₂_iff_zip.2 ⟨hr.constructors.length_eq, id⟩
  obtain ⟨image, -, hpair⟩ := forall₂_exists_right hzip hc
  obtain ⟨part, hpart, hvalue⟩ := forall₂_exists_right h.values hpair
  obtain ⟨env, hempty⟩ := h.values_empty k hp
  have hmem : image.function.value I s' env ∈ part.value I s' env := by
    rw [hvalue hnone]
    exact ZFSet.mem_singleton.2 rfl
  rw [hempty part hpart] at hmem
  exact ZFSet.notMem_empty _ hmem

end SetDefinition

def Contradicts (s : Store) (axioms : List Pred) : Prop :=
  ∀ (I : Interpretation.{u}) s', s.Later s' → ¬ ∀ p ∈ axioms, p.Holds I s' []

theorem yields_axioms_contradicts (hr : r.Complete) (hmixed : r.source.Mixed) :
    Yields r.axioms S fun ps S' => Contradicts.{u} S'.store ps := by
  obtain ⟨hargs, hd, c, hc, hnone⟩ := hmixed
  obtain ⟨set, hset⟩ : ∃ set, r.setConstructor = some set := by
    refine Option.isSome_iff_exists.1 ?_
    rw [hr.sets, hd]
    simpa using hargs
  rw [axioms_eq]
  refine Yields.bind_any fun f S₁ => Yields.bind_any fun typing S₂ => Yields.bind_any fun values S₃ => ?_
  have hdefinition : Yields r.setConstructorDefinition S₃ fun ps S' => ∃ p ∈ ps, ∃ sets parts,
      r.SetDefinition.{u} set sets parts p S'.store := by
    unfold setConstructorDefinition
    rw [hset]
    exact (yields_imagePartition hargs).bind fun p S₄ hp => Yields.pure ⟨p, List.mem_singleton_self p, hp⟩
  refine hdefinition.bind fun definition S₄ h => Yields.pure fun I s' k hax => ?_
  obtain ⟨p, hp, _, _, h⟩ := h
  exact h.arguments_ne_nil hr k (hax p (List.mem_append_right _ hp)) c hc hnone

end Representation

theorem Encode.preserves_contradicts (hr : r ∈ S.encoding.representations)
    (h : ∀ S', Yields r.axioms S' fun ps S'' => Representation.Contradicts.{u} S''.store ps) :
    Preserves EncodingState.soundness Encode.axioms S held fun ps S' _ =>
      Representation.Contradicts.{u} S'.store ps := by
  have hI := imaging_soundness.kept
  refine Preserves.of_fits fun hS => Preserves.bind_run (run_current S) ?_
  have hkeeps : ∀ r ∈ S.encoding.representations, ∀ held', held ⊆ held' → Keeps r held' :=
    fun r hr _ hsub => ⟨hS.complete r hr, fun e he => hsub (hS.holds r hr e he)⟩
  have hloop : ∀ rs ⊆ S.encoding.representations, ∀ S' held', held ⊆ held' →
      Preserves EncodingState.soundness (rs.mapM (·.axioms)) S' held' fun _ _ _ => True := by
    intro rs hrs S' held' hsub
    refine (Preserves.each (P := fun _ _ => True) (fun _ _ _ _ h => h) fun r hr S₁ held₁ k => ?_).mono
      fun _ _ _ _ _ _ => trivial
    exact (Representation.preserves_axioms hI (hkeeps r (hrs hr) held₁ (hsub.trans k))).mono
      fun _ _ _ _ _ _ => trivial
  -- the axioms of one representation are among those of all, and the store only grows after them
  obtain ⟨before, after, hsplit⟩ := List.append_of_mem hr
  rw [hsplit] at hloop ⊢
  simp only [List.mapM_append, List.mapM_cons, bind_assoc, pure_bind]
  refine (hloop before (List.subset_append_left _ _) S held Set.Subset.rfl).bind
    fun pss S₁ held₁ h₁ _ _ => ?_
  refine ((Representation.preserves_axioms hI (hkeeps r hr held₁ h₁)).and_yields (h S₁)).bind
    fun ps S₂ held₂ h₂ _ hps => ?_
  refine (hloop after (fun r hr => List.mem_append_right _ (List.mem_cons_of_mem _ hr)) S₂ held₂
    (h₁.trans h₂)).bind fun qss S₃ held₃ _ hlater _ => Preserves.pure fun _ I s' k hax => ?_
  refine hps.2 I s' (hlater.store.trans k) fun p hp => hax p (List.mem_flatten_of_mem ?_ hp)
  exact List.mem_append_right _ List.mem_cons_self

/-- In every state of an encoding in which a mixed instance is represented no interpretation satisfies the
axioms. -/
theorem EncodingState.Reached.not_holds_axioms {source : Factory} {axioms : List Pred}
    (h : Reached source S held) (hr : r ∈ S.encoding.representations) (hmixed : r.source.Mixed)
    (hrun : Encode.axioms.run S = (.ok axioms, S')) (I : Interpretation.{u}) :
    ∃ p ∈ axioms, ¬ p.Holds I S'.store [] := by
  have hcomplete := h.sound.1.complete r hr
  obtain ⟨held', -, -, -, hcontradicts⟩ := Encode.preserves_contradicts.{u} hr
    (fun _ => Representation.yields_axioms_contradicts hcomplete hmixed) h.sound.1
  rw [hrun] at hcontradicts
  have hnot := hcontradicts axioms rfl I S'.store (.refl _)
  simpa only [not_forall, exists_prop] using hnot

/-! Lists over a given type are such an instance. -/

namespace FiniteList

def state : EncodingState := asked (start .empty .empty) (lists (.given "S"))

theorem not_holds_axioms : ∃ axioms S', Encode.axioms.run state = (.ok axioms, S') ∧ axioms.length = 7 ∧
    ∀ I : Interpretation.{0}, ∃ p ∈ axioms, ¬ p.Holds I S'.store [] := by
  have hstart := reached_start .empty .empty
  obtain ⟨_, held, -, -, hstep, -⟩ := step_ask hstart (supported (T := .given "S") nofun) nofun
  have hreached : EncodingState.Reached source state held := hstart.step hstep
  have hlen : (Encode.axioms.run state).1.toOption.map List.length = some 7 := by decide +kernel
  rcases hrun : Encode.axioms.run state with ⟨_ | axioms, S'⟩
  · rw [hrun] at hlen
    cases hlen
  · rw [hrun] at hlen
    obtain ⟨r, hr, hmixed⟩ : ∃ r ∈ state.encoding.representations, r.source.Mixed := by decide +kernel
    exact ⟨axioms, S', rfl, Option.some_inj.1 hlen, hreached.not_holds_axioms hr hmixed hrun⟩

end FiniteList
end SetLang
