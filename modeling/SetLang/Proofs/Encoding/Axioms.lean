import SetLang.Proofs.Encoding.Calls
import SetLang.Proofs.Encoding.Plan

/-! Axioms of representations are made of the parts of the representations, so that what an encoding
keeps of its types is kept where axioms are made. -/

namespace SetLang

open Encode

variable {I : Invariant EncodingState Formula} {S : EncodingState} {held : Set Formula}
  {r : Representation} {f : Factory} {s : Store} {c : ConstructorImage} {set : Expr}

theorem Expr.Plan.preserves_build (hf : ∀ e ∈ f.extensions, e.Genuine) (k : Expr.Plan) (s : Store)
    (held : Set Formula) (h : k.All (fun e => .expr e ∈ held) fun _ => True) :
    Preserves Store.soundness (k.build f) s held fun e _ held' => .expr e ∈ held' := by
  induction k generalizing s held with
  | made e => exact Preserves.pure fun _ => h
  | type t => exact Build.preserves_typeExpr hf t s held
  | unary op a ih => exact (ih s held h).bind fun _ _ _ _ _ ha => Build.preserves_unary op ha
  | binary op a b iha ihb =>
    refine (iha s held h.1).bind fun _ s₁ held₁ hsub _ ha => ?_
    refine (ihb s₁ held₁ (h.2.imp (fun _ he => hsub he) fun _ => id)).bind fun _ _ _ hsub _ hb => ?_
    exact Build.preserves_binary op (hsub ha) hb
  | singleton a ih =>
    exact (ih s held h).bind fun _ _ _ _ _ ha => Build.preserves_set none (List.forall_mem_singleton.2 ha)

theorem Pred.Plan.preserves_build (hf : ∀ e ∈ f.extensions, e.Genuine) (k : Pred.Plan) (s : Store)
    (held : Set Formula) (h : k.All (fun e => .expr e ∈ held) fun _ => True) :
    Preserves Store.soundness (k.build f) s held fun p _ held' => .pred p ∈ held' := by
  cases k with
  | comparison op a b =>
    refine (a.preserves_build hf s held h.1).bind fun _ s₁ held₁ hsub _ ha => ?_
    refine (b.preserves_build hf s₁ held₁ (h.2.imp (fun _ he => hsub he) fun _ => id)).bind
      fun _ _ _ hsub _ hb => ?_
    exact Build.preserves_comparison op (hsub ha) hb
  | partition es =>
    refine (Preserves.loop .expr fun e he s₁ held₁ hsub => ?_).bind fun _ _ _ _ _ => Build.preserves_partition
    exact e.preserves_build hf s₁ held₁ ((h e he).imp (fun _ he => hsub he) fun _ => id)

/-- Axioms are held if what they are built of is. -/
theorem Build.preserves_plans {ks : List Pred.Plan} (hf : ∀ e ∈ f.extensions, e.Genuine)
    (h : ∀ k ∈ ks, k.All (fun e => .expr e ∈ held) fun _ => True) :
    Preserves Store.soundness (ks.mapM (·.build f)) s held fun ps _ held' => ∀ p ∈ ps, .pred p ∈ held' := by
  refine Preserves.loop Formula.pred fun k hk s₁ held₁ hsub => Pred.Plan.preserves_build hf k s₁ held₁ ?_
  exact (h k hk).imp (fun _ he => hsub he) fun _ => id

namespace Representation

theorem preserves_builtFrom (hI : Kept I) {source target : Factory} (hf : ∀ e ∈ source.extensions, e.Genuine)
    {subsets : List Expr} {own : Expr} (constructor : Constructor)
    (hsubsets : ∀ e ∈ subsets, .expr e ∈ held) (hown : .expr own ∈ held)
    (hc : .expr c.function ∈ held) :
    Preserves I (builtFrom source target subsets own constructor c) S held
      fun e _ held' => .expr e ∈ held' := by
  unfold builtFrom
  split_ifs
  · exact hI.liftM (Build.preserves_set none (by simpa using hc))
  · refine (Preserves.loop .expr fun a _ S' held' hsub => ?_).bind fun sets _ _ hsub _ hsets => ?_
    · refine (hI.liftM (Build.preserves_setExpr hf a.type _ _
        (fun e he => hsub (hsubsets e he)) (hsub hown))).bind fun e _ _ _ _ he => ?_
      exact preserves_expr hI he
    · exact hI.liftM (Build.preserves_image (hsub hc) hsets)

theorem preserves_imagePartition (hI : Kept I) (hr : Keeps r held) (hset : .expr set ∈ held) :
    Preserves I (r.imagePartition set) S held fun p _ held' =>
      .pred p ∈ held' := by
  refine Preserves.of_fits fun hS => Preserves.bind_run (run_current S) ?_
  refine (Preserves.loop .expr fun x _ _ _ _ => hI.liftM (Build.preserves_bound _ _)).bind
    fun subsets S₁ held₁ h₁ _ hsubsets => ?_
  refine (hI.liftM (Build.preserves_typeConstructor (hI.sound hS).source _)).bind
    fun ext S₂ held₂ h₂ _ hext => ?_
  have hsubsets₂ : ∀ e ∈ subsets, .expr e ∈ held₂ := fun e he => h₂ (hsubsets e he)
  refine (hI.liftM (Build.preserves_extendedExpr hext none hsubsets₂)).bind
    fun own S₃ held₃ h₃ _ hown => ?_
  refine (Preserves.loop .expr fun e he S' held' hsub =>
    preserves_expr hI (hsub (h₃ (hsubsets₂ e he)))).bind fun encoded S₄ held₄ h₄ _ hencoded => ?_
  have hset₄ : Formula.expr set ∈ held₄ := h₄ (h₃ (h₂ (h₁ hset)))
  refine (hI.liftM (Build.preserves_image hset₄ hencoded)).bind
    fun whole S₅ held₅ h₅ _ hwhole => ?_
  refine (Preserves.loop .expr fun x hx S' held' hsub => preserves_builtFrom hI (hI.sound hS).source x.1
    (fun e he => hsub (h₅ (h₄ (h₃ (hsubsets₂ e he))))) (hsub (h₅ (h₄ hown))) ?_).bind
      fun parts S₆ held₆ h₆ _ hparts => ?_
  · refine hsub (h₅ (h₄ (h₃ (h₂ (h₁ (hr.2 _ <| List.mem_cons_of_mem _ <|
      List.mem_append_right _ <| List.mem_flatMap.2 ⟨x.2, ?_, List.mem_cons_self⟩))))))
    exact (List.of_mem_zip hx).2
  refine (Preserves.loop .decl fun x _ _ _ _ =>
    hI.liftM (Build.preserves_declare x.1 (some (.power x.2)))).bind
      fun decls S₇ held₇ h₇ _ hdecls => ?_
  refine (hI.liftM (Build.preserves_partition (List.forall_mem_cons.2
    ⟨h₇ (h₆ hwhole), fun e he => h₇ (hparts e he)⟩))).bind fun body S₈ held₈ h₈ _ hbody => ?_
  refine hI.liftM (Build.preserves_makePred (.quantified ⟨S.encoding.target, 0⟩ .all decls body)
    ?_ trivial)
  exact List.forall_mem_append.2 ⟨List.forall_mem_map.2 fun d hd => h₈ (hdecls d hd),
    List.forall_mem_singleton.2 hbody⟩

theorem preserves_setConstructorDefinition (hI : Kept I) (hr : Keeps r held) :
    Preserves I r.setConstructorDefinition S held fun ps _ held' =>
      ∀ p ∈ ps, .pred p ∈ held' := by
  unfold setConstructorDefinition
  cases hset : r.setConstructor with
  | none => exact Preserves.pure fun _ _ h => by cases h
  | some set =>
    have hmem : Formula.expr set ∈ held := hr.2 set (setConstructor_mem_exprs hset)
    refine (preserves_imagePartition hI hr hmem).bind fun p _ _ _ _ hp => Preserves.pure fun _ => ?_
    exact List.forall_mem_singleton.2 hp

theorem preserves_axioms (hI : Kept I) (hr : Keeps r held) :
    Preserves I r.axioms S held fun ps _ held' =>
      ∀ p ∈ ps, .pred p ∈ held' := by
  rw [axioms_eq]
  refine Preserves.of_fits fun hS => Preserves.bind_run (run_target S) ?_
  have hf := (hI.sound hS).target
  refine (hI.liftM (Build.preserves_plans hf (all_typingPlans (fun _ _ _ _ => trivial) hr.2
    fun _ _ => trivial))).bind fun typing S₁ held₁ h₁ _ htyping => ?_
  refine (hI.liftM (Build.preserves_plans hf (all_valuePlans (fun _ _ _ _ => trivial) (hr.mono h₁).2
    fun _ _ _ _ => trivial))).bind fun values S₂ held₂ h₂ _ hvalues => ?_
  refine (preserves_setConstructorDefinition hI (hr.mono (h₁.trans h₂))).bind
    fun definition S₃ held₃ h₃ _ hdefinition => Preserves.pure fun _ => ?_
  simp only [List.forall_mem_append]
  exact ⟨⟨fun p hp => h₃ (h₂ (htyping p hp)), fun p hp => h₃ (hvalues p hp)⟩, hdefinition⟩

end Representation

namespace Encode

theorem preserves_allAxioms (hI : Kept I) : Preserves I Encode.axioms S held
    fun ps _ held' => ∀ p ∈ ps, .pred p ∈ held' := by
  refine Preserves.of_fits fun hS => Preserves.bind_run (run_current S) ?_
  refine (Preserves.each (P := fun ps held' => ∀ p ∈ ps, .pred p ∈ held')
    (fun _ _ _ hsub h p hp => hsub (h p hp)) fun r hr S' held' hsub => ?_).bind
      fun pss _ _ _ _ hpss => Preserves.pure fun _ => ?_
  · exact Representation.preserves_axioms hI
      ⟨(hI.sound hS).complete r hr, fun e he => hsub ((hI.sound hS).holds r hr e he)⟩
  · intro p hp
    obtain ⟨ps, hps, hp⟩ := List.mem_flatten.1 hp
    exact hpss ps hps p hp

theorem preserves_targetEnvironment (hI : Kept I) :
    Preserves I targetEnvironment S held fun _ _ _ => True := by
  refine Preserves.bind_run (run_current S) ?_
  refine (Preserves.each (P := fun _ _ => True) (fun _ _ _ _ h => h) fun x _ S' held' _ => ?_).bind
    fun _ S' _ _ _ _ => Preserves.bind_run (run_current S') (Preserves.pure fun _ => trivial)
  exact (hI.type x.2 _ _).bind fun _ _ _ _ _ _ => Preserves.pure fun _ => trivial

end Encode
end SetLang
