import SetLang.Proofs.Encoding.Kept

/-! Encodings step by step. A session builds and checks formulas, and an encoding answers calls on what
the session holds. An invariant that the encoding of types keeps is kept by all calls. -/

namespace SetLang

variable {I : Invariant EncodingState Formula} {S : EncodingState} {held : Set Formula} {α : Type}
  {r : Representation} {i : Instance} {f : Factory} {s : Store} {e : Expr} {p : Pred} {es : List Expr}
  {ps : List Pred}

namespace Encode

theorem preserves_fail {K : α → EncodingState → Set Formula → Prop} (e : EncodingError) :
    Preserves I (fail e) S held K := Preserves.throw

theorem preserves_replace (hI : Kept I) (hr : Keeps r held) (source : Expr) (ext : Extension)
    (hes : ∀ e ∈ es, .expr e ∈ held) :
    Preserves I (r.replace source ext es) S held fun e _ held' =>
      .expr e ∈ held' := by
  have htype : Formula.expr r.typeExpr ∈ held := hr.2 _ List.mem_cons_self
  have hset : ∀ e, r.setConstructor = some e → .expr e ∈ held := fun e he =>
    hr.2 e (by simp [Representation.exprs, he])
  have himage : ∀ c ∈ r.constructors, ∀ e ∈ c.function :: c.destructors, .expr e ∈ held :=
    fun c hc e he => hr.2 e <| List.mem_cons_of_mem _ <| List.mem_append_right _ <|
      List.mem_flatMap.2 ⟨c, hc, he⟩
  refine Preserves.bind_run (run_target S) ?_
  cases ext.role? with
  | none => exact preserves_fail _
  | some x =>
    obtain ⟨d, role⟩ := x
    cases role with
    | typeConstructor =>
      dsimp only
      cases hsets : r.setConstructor with
      | none => exact Preserves.pure fun _ => htype
      | some set =>
        refine Preserves.bind_run (run_store S) ?_
        split_ifs
        · exact Preserves.pure fun _ => htype
        · exact hI.liftM (Build.preserves_image (hset set hsets) hes)
    | constructor i =>
      dsimp only
      cases hi : r.constructors[i]? with
      | none => exact Preserves.throw
      | some c =>
        have hc := himage c (List.mem_of_getElem? hi)
        exact hI.liftM (Build.preserves_apply (hc _ List.mem_cons_self) hes)
    | destructor i j =>
      dsimp only
      cases hi : r.constructors[i]?.bind (·.destructors[j]?) with
      | none => exact Preserves.throw
      | some d =>
        obtain ⟨c, hc, hd⟩ := Option.bind_eq_some_iff.1 hi
        have hmem := himage c (List.mem_of_getElem? hc) d
          (List.mem_cons_of_mem _ (List.mem_of_getElem? hd))
        exact hI.liftM (Build.preserves_apply hmem hes)

theorem preserves_extended (hI : Kept I) (n : Node) {ext : Extension} (hext : ext.Genuine) (args : List Expr)
    (conditions : List Pred) (given t : Option Ty) (hes : ∀ e ∈ es, .expr e ∈ held)
    (hps : ∀ p ∈ ps, .pred p ∈ held) :
    Preserves I
      (extended f (.extended n ext args conditions given) ext es ps t) S held fun e _ held' =>
        .expr e ∈ held' := by
  unfold extended
  cases ext.role? with
  | none =>
    refine hI.liftM (Build.preserves_makeExpr (.extended ⟨f, 0⟩ ext es ps t) ?_ hext)
    intro g hg
    rcases List.mem_append.1 hg with hg | hg
    · obtain ⟨e, he, rfl⟩ := List.mem_map.1 hg
      exact hes e he
    · obtain ⟨p, hp, rfl⟩ := List.mem_map.1 hg
      exact hps p hp
  | some x =>
    obtain ⟨d, role⟩ := x
    refine Preserves.bind_run (run_store S) ?_
    cases instanceOf? S.store role _ args with
    | none => exact preserves_fail _
    | some i => exact (hI.representation i _ _).bind fun r _ _ hsub _ h =>
        preserves_replace hI h.2 _ ext fun e he => hsub (hes e he)

theorem preserves_optType (hI : Kept I) (t : Option Ty) :
    Preserves I ((rebuilder f).optType t) S held fun _ _ _ => True := by
  cases t with
  | none => exact Preserves.pure fun _ => trivial
  | some t => exact Preserves.map ((hI.type t _ _).mono fun _ _ _ _ _ _ => trivial)

theorem preserves_decls (hI : Kept I) (ds : List Declaration) :
    Preserves I ((rebuilder f).decls s ds) S held fun ds' _ held' =>
      ∀ d ∈ ds', .decl d ∈ held' := by
  induction ds generalizing S held with
  | nil => exact Preserves.pure fun _ _ h => by cases h
  | cons d ds ih =>
    refine ((preserves_optType hI _).bind fun t _ _ _ _ _ =>
      hI.liftM (Build.preserves_declare d.name t)).bind fun d' _ _ _ _ hd => ?_
    refine ih.bind fun ds' _ _ hsub _ hds => Preserves.pure fun _ => ?_
    exact List.forall_mem_cons.2 ⟨hsub hd, hds⟩

section
variable {base : Set Formula}

mutual

theorem preserves_rebuildExpr (hI : Kept I) (f : Factory) (hs : s.Sound base) : ∀ (e : Expr) (depth : Nat)
    (S : EncodingState) (held : Set Formula), base ⊆ held → .expr e ∈ base →
      Preserves I ((rebuilder f).expr s depth e) S held fun e _ held' =>
        .expr e ∈ held'
  | .binary n op a b, depth, _, _, hbase, he => by
    have ha := hs.closed _ he (.expr a) List.mem_cons_self
    have hb := hs.closed _ he (.expr b) (List.mem_cons_of_mem _ List.mem_cons_self)
    refine (preserves_optType hI _).bind fun _ _ _ h₁ _ _ => ?_
    refine (preserves_rebuildExpr hI f hs a depth _ _ (hbase.trans h₁) ha).bind
      fun a' _ _ h₂ _ ha' => ?_
    refine (preserves_rebuildExpr hI f hs b depth _ _ (hbase.trans (h₁.trans h₂)) hb).bind
      fun b' _ _ h₃ _ hb' => ?_
    exact hI.liftM (Build.preserves_binary op (h₃ ha') hb')
  | .unary n op a, depth, _, _, hbase, he => by
    have ha := hs.closed _ he (.expr a) List.mem_cons_self
    refine (preserves_optType hI _).bind fun _ _ _ h₁ _ _ => ?_
    refine (preserves_rebuildExpr hI f hs a depth _ _ (hbase.trans h₁) ha).bind
      fun a' _ _ _ _ ha' => ?_
    exact hI.liftM (Build.preserves_unary op ha')
  | .assoc n op es, depth, _, _, hbase, he => by
    have hes : ∀ e ∈ es, .expr e ∈ base := fun e h => hs.closed _ he _ (List.mem_map_of_mem h)
    refine (preserves_optType hI _).bind fun _ _ _ h₁ _ _ => ?_
    refine (preserves_rebuildExprs hI f hs es depth _ _ (hbase.trans h₁) hes).bind
      fun es' _ _ _ _ hes' => ?_
    exact hI.liftM (Build.preserves_makeExpr (.assoc ⟨f, 0⟩ op es')
      (List.forall_mem_map.2 hes') trivial)
  | .atom n a t, _, _, _, _, _ =>
    (preserves_optType hI _).bind fun t _ _ _ _ _ => hI.liftM (Build.preserves_atom a t)
  | .set n es t, depth, _, _, hbase, he => by
    have hes : ∀ e ∈ es, .expr e ∈ base := fun e h => hs.closed _ he _ (List.mem_map_of_mem h)
    refine (preserves_optType hI _).bind fun t _ _ h₁ _ _ => ?_
    refine (preserves_rebuildExprs hI f hs es depth _ _ (hbase.trans h₁) hes).bind
      fun es' _ _ _ _ hes' => ?_
    exact hI.liftM (Build.preserves_set t hes')
  | .bool n p, depth, _, _, hbase, he => by
    have hp := hs.closed _ he (.pred p) List.mem_cons_self
    refine (preserves_optType hI _).bind fun _ _ _ h₁ _ _ => ?_
    refine (preserves_rebuildPred hI f hs p depth _ _ (hbase.trans h₁) hp).bind
      fun p' _ _ _ _ hp' => ?_
    exact hI.liftM (Build.preserves_makeExpr (.bool ⟨f, 0⟩ p')
      (List.forall_mem_singleton.2 hp') trivial)
  | .quantified n op ds p e, depth, _, _, hbase, he => by
    have hp := hs.closed _ he (.pred p) (List.mem_append_right _ List.mem_cons_self)
    have hbody := hs.closed _ he (.expr e)
      (List.mem_append_right _ (List.mem_cons_of_mem _ List.mem_cons_self))
    refine (preserves_optType hI _).bind fun _ _ _ h₁ _ _ => ?_
    refine (preserves_decls hI ds).bind fun ds' _ _ h₂ _ hds' => ?_
    refine (preserves_rebuildPred hI f hs p _ _ _ (hbase.trans (h₁.trans h₂)) hp).bind
      fun p' _ _ h₃ _ hp' => ?_
    refine (preserves_rebuildExpr hI f hs e _ _ _ (hbase.trans (h₁.trans (h₂.trans h₃))) hbody).bind
      fun e' _ _ h₄ _ he' => ?_
    refine hI.liftM (Build.preserves_makeExpr (.quantified ⟨f, 0⟩ op ds' p' e') ?_ trivial)
    refine List.forall_mem_append.2 ⟨List.forall_mem_map.2 fun d hd => h₄ (h₃ (hds' d hd)), ?_⟩
    exact List.forall_mem_cons.2 ⟨h₄ hp', List.forall_mem_singleton.2 he'⟩
  | .bound n i t, _, _, _, _, _ =>
    (preserves_optType hI _).bind fun t _ _ _ _ _ => hI.liftM (Build.preserves_bound i t)
  | .free n x t, _, _, _, _, _ =>
    (preserves_optType hI _).bind fun t _ _ _ _ _ => hI.liftM (Build.preserves_free x t)
  | .extended n ext es ps t, depth, _, _, hbase, he => by
    have hes : ∀ e ∈ es, .expr e ∈ base := fun e h =>
      hs.closed _ he _ (List.mem_append_left _ (List.mem_map_of_mem h))
    have hps : ∀ p ∈ ps, .pred p ∈ base := fun p h =>
      hs.closed _ he _ (List.mem_append_right _ (List.mem_map_of_mem h))
    refine (preserves_optType hI _).bind fun t' _ _ h₁ _ _ => ?_
    refine (preserves_rebuildExprs hI f hs es depth _ _ (hbase.trans h₁) hes).bind
      fun es' _ _ h₂ _ hes' => ?_
    refine (preserves_rebuildPreds hI f hs ps depth _ _ (hbase.trans (h₁.trans h₂)) hps).bind
      fun ps' _ _ h₃ _ hps' => ?_
    exact preserves_extended hI n (hs.fits _ he).2.1 es ps t t' (fun e h => h₃ (hes' e h)) hps'

theorem preserves_rebuildExprs (hI : Kept I) (f : Factory) (hs : s.Sound base) : ∀ (es : List Expr)
    (depth : Nat) (S : EncodingState) (held : Set Formula), base ⊆ held →
      (∀ e ∈ es, .expr e ∈ base) → Preserves I
        ((rebuilder f).exprs s depth es) S held fun es _ held' => ∀ e ∈ es, .expr e ∈ held'
  | [], _, _, _, _, _ => Preserves.pure fun _ _ h => by cases h
  | e :: es, depth, _, _, hbase, hes => by
    rw [List.forall_mem_cons] at hes
    refine (preserves_rebuildExpr hI f hs e depth _ _ hbase hes.1).bind fun e' _ _ h₁ _ he' => ?_
    refine (preserves_rebuildExprs hI f hs es depth _ _ (hbase.trans h₁) hes.2).bind
      fun es' _ _ h₂ _ hes' => ?_
    exact Preserves.pure fun _ => List.forall_mem_cons.2 ⟨h₂ he', hes'⟩

theorem preserves_rebuildPred (hI : Kept I) (f : Factory) (hs : s.Sound base) : ∀ (p : Pred) (depth : Nat)
    (S : EncodingState) (held : Set Formula), base ⊆ held → .pred p ∈ base →
      Preserves I ((rebuilder f).pred s depth p) S held fun p _ held' =>
        .pred p ∈ held'
  | .literal n b, _, _, _, _, _ => hI.liftM (Build.preserves_makePred (.literal ⟨f, 0⟩ b)
      (fun _ h => by cases h) trivial)
  | .not n p, depth, _, _, hbase, hq => by
    have hp := hs.closed _ hq (.pred p) List.mem_cons_self
    refine (preserves_rebuildPred hI f hs p depth _ _ hbase hp).bind fun p' _ _ _ _ hp' => ?_
    exact hI.liftM (Build.preserves_makePred (.not ⟨f, 0⟩ p')
      (List.forall_mem_singleton.2 hp') trivial)
  | .connective n op p q, depth, _, _, hbase, h => by
    have hp := hs.closed _ h (.pred p) List.mem_cons_self
    have hq := hs.closed _ h (.pred q) (List.mem_cons_of_mem _ List.mem_cons_self)
    refine (preserves_rebuildPred hI f hs p depth _ _ hbase hp).bind fun p' _ _ h₁ _ hp' => ?_
    refine (preserves_rebuildPred hI f hs q depth _ _ (hbase.trans h₁) hq).bind
      fun q' _ _ h₂ _ hq' => ?_
    exact hI.liftM (Build.preserves_makePred (.connective ⟨f, 0⟩ op p' q')
      (List.forall_mem_cons.2 ⟨h₂ hp', List.forall_mem_singleton.2 hq'⟩) trivial)
  | .junction n op ps, depth, _, _, hbase, h => by
    have hps : ∀ p ∈ ps, .pred p ∈ base := fun p hp => hs.closed _ h _ (List.mem_map_of_mem hp)
    refine (preserves_rebuildPreds hI f hs ps depth _ _ hbase hps).bind fun ps' _ _ _ _ hps' => ?_
    exact hI.liftM (Build.preserves_makePred (.junction ⟨f, 0⟩ op ps')
      (List.forall_mem_map.2 hps') trivial)
  | .comparison n op a b, depth, _, _, hbase, h => by
    have ha := hs.closed _ h (.expr a) List.mem_cons_self
    have hb := hs.closed _ h (.expr b) (List.mem_cons_of_mem _ List.mem_cons_self)
    refine (preserves_rebuildExpr hI f hs a depth _ _ hbase ha).bind fun a' _ _ h₁ _ ha' => ?_
    refine (preserves_rebuildExpr hI f hs b depth _ _ (hbase.trans h₁) hb).bind
      fun b' _ _ h₂ _ hb' => ?_
    exact hI.liftM (Build.preserves_comparison op (h₂ ha') hb')
  | .partition n es, depth, _, _, hbase, h => by
    have hes : ∀ e ∈ es, .expr e ∈ base := fun e he => hs.closed _ h _ (List.mem_map_of_mem he)
    refine (preserves_rebuildExprs hI f hs es depth _ _ hbase hes).bind fun es' _ _ _ _ hes' => ?_
    exact hI.liftM (Build.preserves_partition hes')
  | .quantified n op ds p, depth, _, _, hbase, h => by
    have hp := hs.closed _ h (.pred p) (List.mem_append_right _ List.mem_cons_self)
    refine (preserves_decls hI ds).bind fun ds' _ _ h₁ _ hds' => ?_
    refine (preserves_rebuildPred hI f hs p _ _ _ (hbase.trans h₁) hp).bind fun p' _ _ h₂ _ hp' => ?_
    refine hI.liftM (Build.preserves_makePred (.quantified ⟨f, 0⟩ op ds' p') ?_ trivial)
    exact List.forall_mem_append.2 ⟨List.forall_mem_map.2 fun d hd => h₂ (hds' d hd),
      List.forall_mem_singleton.2 hp'⟩
  | .extended n ext es ps, depth, _, _, hbase, h => by
    have hes : ∀ e ∈ es, .expr e ∈ base := fun e he =>
      hs.closed _ h _ (List.mem_append_left _ (List.mem_map_of_mem he))
    have hps : ∀ p ∈ ps, .pred p ∈ base := fun p hp =>
      hs.closed _ h _ (List.mem_append_right _ (List.mem_map_of_mem hp))
    refine (preserves_rebuildExprs hI f hs es depth _ _ hbase hes).bind fun es' _ _ h₁ _ hes' => ?_
    refine (preserves_rebuildPreds hI f hs ps depth _ _ (hbase.trans h₁) hps).bind
      fun ps' _ _ h₂ _ hps' => ?_
    refine hI.liftM (Build.preserves_makePred (.extended ⟨f, 0⟩ ext es' ps') ?_
      (hs.fits _ h).2.1)
    exact List.forall_mem_append.2 ⟨List.forall_mem_map.2 fun e he => h₂ (hes' e he),
      List.forall_mem_map.2 hps'⟩

theorem preserves_rebuildPreds (hI : Kept I) (f : Factory) (hs : s.Sound base) : ∀ (ps : List Pred)
    (depth : Nat) (S : EncodingState) (held : Set Formula), base ⊆ held →
      (∀ p ∈ ps, .pred p ∈ base) → Preserves I
        ((rebuilder f).preds s depth ps) S held fun ps _ held' => ∀ p ∈ ps, .pred p ∈ held'
  | [], _, _, _, _, _ => Preserves.pure fun _ _ h => by cases h
  | p :: ps, depth, _, _, hbase, hps => by
    rw [List.forall_mem_cons] at hps
    refine (preserves_rebuildPred hI f hs p depth _ _ hbase hps.1).bind fun p' _ _ h₁ _ hp' => ?_
    refine (preserves_rebuildPreds hI f hs ps depth _ _ (hbase.trans h₁) hps.2).bind
      fun ps' _ _ h₂ _ hps' => ?_
    exact Preserves.pure fun _ => List.forall_mem_cons.2 ⟨h₂ hp', hps'⟩

end
end

theorem preserves_expr (hI : Kept I) (he : .expr e ∈ held) :
    Preserves I (expr e) S held fun e _ held' => .expr e ∈ held' :=
  Preserves.of_fits fun hS => Preserves.bind_run (run_target S) <| Preserves.bind_run (run_store S) <|
    preserves_rebuildExpr hI _ (hI.sound hS).store e 0 S held Set.Subset.rfl he

theorem preserves_pred (hI : Kept I) (hp : .pred p ∈ held) :
    Preserves I (pred p) S held fun p _ held' => .pred p ∈ held' := by
  refine Preserves.of_fits fun hS => Preserves.bind_run (run_store S) ?_
  dsimp only
  split_ifs
  · exact Preserves.bind (K := fun _ _ _ => False) Preserves.throw fun _ _ _ _ _ h => h.elim
  · refine (hI.update _ ?_ fun _ => ?_).bind fun _ S' held' hsub _ _ => ?_
    · exact ⟨_, .took (p := p) rfl⟩
    · exact ⟨rfl, rfl, rfl, rfl⟩
    · refine Preserves.of_fits fun hS' => Preserves.bind_run (run_target S') <|
        Preserves.bind_run (run_store S') ?_
      exact preserves_rebuildPred hI _ (hI.sound hS').store p 0 S' held' Set.Subset.rfl (hsub hp)

end Encode
end SetLang
