import SetLang.Proofs.Encoding.Construct
import SetLang.Proofs.Encoding.Run

/-! What an encoding makes of types depends on no formula. It is decided by the outline of the encoding, which
has the instances and types of the representations, and so is the outline of what the encoding becomes. -/

namespace SetLang

/-- What encoding reads of a representation. -/
def Representation.outline (r : Representation) : Instance × List Ty × Ty := (r.source, r.params, r.type)

structure Outline where
  source : Factory
  target : Factory
  env : Environment
  used : List String
  allocated : Environment
  representations : List (Instance × List Ty × Ty)

def Encoding.outline (t : Encoding) : Outline :=
  ⟨t.source, t.target, t.env, t.used, t.allocated, t.representations.map (·.outline)⟩

variable {α β κ κ' : Type} {S S' T T' : EncodingState} {i : Instance}

namespace EncodingState

/-- Runs of two computations end alike: with values of one key or with the same error, and with one outline. -/
structure Parallel (key : α → κ) (x y : Encode α) (S S' : EncodingState) : Prop where
  value : (x.run S).1.map key = (y.run S').1.map key
  outline : (x.run S).2.encoding.outline = (y.run S').2.encoding.outline

namespace Parallel

variable {key : α → κ} {key' : β → κ'} {x y : Encode α} {f g : α → Encode β}

theorem pure {a b : α} (h : key a = key b) (k : S.encoding.outline = S'.encoding.outline) :
    Parallel key (pure a) (pure b) S S' := ⟨congrArg Except.ok h, k⟩

theorem throw (e : Fault EncodingError) (k : S.encoding.outline = S'.encoding.outline) :
    Parallel key (throw e) (throw e) S S' := ⟨rfl, k⟩

theorem bind (h : Parallel key x y S S')
    (k : ∀ a b T T', key a = key b → T.encoding.outline = T'.encoding.outline →
      Parallel key' (f a) (g b) T T') : Parallel key' (x >>= f) (y >>= g) S S' := by
  obtain ⟨hvalue, houtline⟩ := h
  rcases hx : x.run S with ⟨a | a, T⟩ <;> rcases hy : y.run S' with ⟨b | b, T'⟩ <;>
    rw [hx, hy] at hvalue houtline
  · obtain rfl := Except.error.inj hvalue
    refine ⟨by rw [run_bind, run_bind, hx, hy], ?_⟩
    rw [run_bind, run_bind, hx, hy]
    exact houtline
  · cases hvalue
  · cases hvalue
  · obtain ⟨hvalue', houtline'⟩ := k a b T T' (Except.ok.inj hvalue) houtline
    refine ⟨?_, ?_⟩ <;> rw [run_bind_ok hx, run_bind_ok hy]
    · exact hvalue'
    · exact houtline'

theorem bind_run {a b : α} (hx : x.run S = (.ok a, T)) (hy : y.run S' = (.ok b, T'))
    (k : Parallel key' (f a) (g b) T T') : Parallel key' (x >>= f) (y >>= g) S S' := by
  refine ⟨?_, ?_⟩ <;> rw [run_bind_ok hx, run_bind_ok hy]
  · exact k.value
  · exact k.outline

/-- A loop over steps of which each ends alike from states of one outline. -/
theorem mapM (key : α → κ) {xs : List β} {f g : β → Encode α} (h : S.encoding.outline = S'.encoding.outline)
    (k : ∀ x ∈ xs, ∀ T T', T.encoding.outline = T'.encoding.outline → Parallel key (f x) (g x) T T') :
    Parallel (·.map key) (xs.mapM f) (xs.mapM g) S S' := by
  induction xs generalizing S S' with
  | nil => exact pure rfl h
  | cons x xs ih =>
    rw [List.forall_mem_cons] at k
    rw [List.mapM_cons, List.mapM_cons]
    refine (k.1 S S' h).bind fun _ _ T T' hx h => ?_
    exact (ih h k.2).bind fun _ _ _ _ hxs h => pure (congrArg₂ List.cons hx hxs) h

/-- A construction that succeeds in every store, of which only the success matters. -/
theorem liftM {a : Build α} (h : ∀ s, Succeeds a s fun _ _ => True)
    (k : S.encoding.outline = S'.encoding.outline) :
    Parallel (fun _ => ()) (liftM a : Encode α) (liftM a) S S' := by
  obtain ⟨u, s, hrun, -⟩ := h S.store
  obtain ⟨u', s', hrun', -⟩ := h S'.store
  refine ⟨?_, ?_⟩ <;> rw [Encode.run_liftM, Encode.run_liftM]
  · rw [hrun, hrun']
    rfl
  · exact k

end Parallel
end EncodingState

open EncodingState

/-- The outlines of the representations of an instance. -/
theorem Encoding.representation?_outline {t t' : Encoding} (h : t.outline = t'.outline) (i : Instance) :
    (t.representation? i).map (·.outline) = (t'.representation? i).map (·.outline) := by
  have hfind : ∀ rs : List Representation, (rs.reverse.find? fun r => r.source.type == i.type).map
      (·.outline) = (rs.map (·.outline)).reverse.find? fun x => x.1.type == i.type := by
    intro rs
    rw [← List.map_reverse, List.find?_map]
    rfl
  unfold representation?
  rw [hfind, hfind]
  exact congrArg (fun o : Outline => o.representations.reverse.find? fun x => x.1.type == i.type) h

namespace Encode

theorem parallel_allocate (base : String) (type : String → Ty)
    (h : S.encoding.outline = S'.encoding.outline) :
    Parallel id (allocate base type) (allocate base type) S S' where
  value := congrArg (fun o : Outline => (.ok (freshName o.used base) : Except (Fault EncodingError) String)) h
  outline := congrArg (fun o : Outline =>
    let name := freshName o.used base
    { o with used := name :: o.used, allocated := o.allocated.insert name (type name) }) h

theorem parallel_freshIdentifier (base : String) (t : Ty) (h : S.encoding.outline = S'.encoding.outline) :
    Parallel (fun _ => ()) (freshIdentifier base t) (freshIdentifier base t) S S' := by
  refine (parallel_allocate base _ h).bind fun name _ T T' hname k => ?_
  obtain rfl := hname
  refine .bind_run (run_target T) (run_target T') ?_
  have htarget : T.encoding.target = T'.encoding.target := congrArg Outline.target k
  rw [← htarget]
  exact .liftM (fun s => (T.encoding.target.succeeds_free_named name t s).mono fun _ _ _ => trivial) k

/-- An instance that is represented in one state is represented alike in the other. -/
theorem parallel_represented {create create' : Encode Representation}
    (h : S.encoding.outline = S'.encoding.outline)
    (hcreate : Parallel Representation.outline create create' S S') :
    Parallel Representation.outline (represented i create) (represented i create') S S' := by
  unfold represented
  refine .bind_run (run_current S) (run_current S') ?_
  have hfound := Encoding.representation?_outline h i
  revert hfound
  cases S.encoding.representation? i with
  | some r =>
    cases S'.encoding.representation? i with
    | some r' => exact fun hfound => .pure (Option.some_inj.1 hfound) h
    | none => exact fun hfound => nomatch hfound
  | none =>
    cases S'.encoding.representation? i with
    | some r' => exact fun hfound => nomatch hfound
    | none =>
      intro _
      have hsource : S.encoding.source = S'.encoding.source := congrArg Outline.source h
      dsimp only
      rw [← hsource]
      split_ifs
      · exact ⟨rfl, h⟩
      · refine hcreate.bind fun r r' T T' hr k => ?_
        refine .bind_run (run_update _ T) (run_update _ T') (.pure hr ?_)
        simp only [Encoding.outline, Outline.mk.injEq] at k
        simp [Encoding.outline, k, hr]

/-- The instances and types of partial representations are the same. -/
theorem parallel_create {params : List Ty}
    {constructors : PartialRepresentation → Encode (List ConstructorImage)}
    (h : S.encoding.outline = S'.encoding.outline)
    (hconstructors : ∀ r T T', T.encoding.outline = T'.encoding.outline →
      Parallel (fun _ => ()) (constructors r) (constructors r) T T') :
    Parallel Representation.outline (create i params constructors) (create i params constructors) S S' := by
  unfold create freshGiven
  simp only [bind_assoc, pure_bind]
  refine (parallel_allocate _ _ h).bind fun name _ S₁ S₁' hname h₁ => ?_
  obtain rfl := hname
  refine .bind_run (run_target S₁) (run_target S₁') ?_
  have htarget : S₁.encoding.target = S₁'.encoding.target := congrArg Outline.target h₁
  rw [← htarget]
  have hset : ∀ s, Succeeds (S₁.encoding.target.typeExpr (.given name)) s fun _ _ => True := fun s => by
    rw [Factory.typeExpr]
    exact (S₁.encoding.target.succeeds_free_named name _ s).mono fun _ _ _ => trivial
  refine (Parallel.liftM hset h₁).bind fun e e' S₂ S₂' _ h₂ => ?_
  have hrest : ∀ o o' S₃ S₃', S₃.encoding.outline = S₃'.encoding.outline →
      Parallel Representation.outline (do
        return (⟨i, params, .given name, e, o, ← constructors ⟨i, params, .given name⟩⟩ : Representation))
        (do return ⟨i, params, .given name, e', o', ← constructors ⟨i, params, .given name⟩⟩) S₃ S₃' :=
    fun o o' S₃ S₃' h₃ => (hconstructors _ S₃ S₃' h₃).bind fun _ _ _ _ _ h₄ => .pure rfl h₄
  split_ifs
  · simp only [map_eq_pure_bind, bind_assoc, pure_bind]
    exact (parallel_freshIdentifier _ _ h₂).bind fun _ _ S₃ S₃' _ h₃ => hrest _ _ S₃ S₃' h₃
  · exact hrest _ _ S₂ S₂' h₂

end Encode

open Encode

mutual

theorem Datatype.parallel_represent : ∀ (d : Datatype) (args params : List Ty) (S S' : EncodingState),
    S.encoding.outline = S'.encoding.outline →
      Parallel Representation.outline (d.represent args params) (d.represent args params) S S'
  | ⟨_, _, cs⟩, _, _, _, _, h => parallel_create h fun r T T' k => parallel_constructorImages cs r T T' k

theorem parallel_constructorImages : ∀ (cs : List Constructor) (r : PartialRepresentation)
    (S S' : EncodingState), S.encoding.outline = S'.encoding.outline →
      Parallel (fun _ => ()) (constructorImages cs r) (constructorImages cs r) S S'
  | [], _, _, _, h => .pure rfl h
  | c :: cs, r, S, S', h => by
    rw [constructorImages]
    refine (parallel_constructorImage c r S S' h).bind fun _ _ T T' _ k => ?_
    exact (parallel_constructorImages cs r T T' k).bind fun _ _ _ _ _ k => .pure rfl k

theorem parallel_constructorImage : ∀ (c : Constructor) (r : PartialRepresentation)
    (S S' : EncodingState), S.encoding.outline = S'.encoding.outline →
      Parallel (fun _ => ()) (constructorImage c r) (constructorImage c r) S S'
  | ⟨symbol, as⟩, r, S, S', h => by
    rw [constructorImage]
    refine (parallel_argumentImages as r S S' h).bind fun xs ys T T' hxs k => ?_
    dsimp only
    rw [hxs]
    exact (parallel_freshIdentifier _ _ k).bind fun _ _ _ _ _ k => .pure rfl k

theorem parallel_argumentImages : ∀ (as : List Argument) (r : PartialRepresentation)
    (S S' : EncodingState), S.encoding.outline = S'.encoding.outline →
      Parallel (·.map Prod.fst) (argumentImages as r) (argumentImages as r) S S'
  | [], _, _, _, h => .pure rfl h
  | a :: as, r, S, S', h => by
    rw [argumentImages]
    refine (parallel_argumentImage a r S S' h).bind fun x y T T' hx k => ?_
    exact (parallel_argumentImages as r T T' k).bind fun _ _ _ _ hxs k =>
      .pure (congrArg₂ List.cons hx hxs) k

theorem parallel_argumentImage : ∀ (a : Argument) (r : PartialRepresentation)
    (S S' : EncodingState), S.encoding.outline = S'.encoding.outline →
      Parallel Prod.fst (argumentImage a r) (argumentImage a r) S S'
  | ⟨name, t⟩, r, S, S', h => by
    rw [argumentImage]
    dsimp only
    split_ifs
    · exact ⟨rfl, h⟩
    · refine (parallel_argumentType true t r S S' h).bind fun u v T T' hu k => ?_
      obtain rfl := hu
      exact (parallel_freshIdentifier _ _ k).bind fun _ _ _ _ _ k => .pure rfl k

theorem parallel_argumentType (top : Bool) : ∀ (t : ArgTy) (r : PartialRepresentation)
    (S S' : EncodingState), S.encoding.outline = S'.encoding.outline →
      Parallel id (argumentType top t r) (argumentType top t r) S S'
  | .leaf .self, _, _, _, h => .pure rfl h
  | .leaf (.param k), r, S, S', h => by
    rw [argumentType]
    cases r.params[k]? with
    | some p => exact .pure rfl h
    | none => exact .throw _ h
  | .boolean, _, _, _, h => .pure rfl h
  | .given _, _, _, _, h => .pure rfl h
  | .power a, r, S, S', h => by
    rw [argumentType]
    exact (parallel_argumentType top a r S S' h).bind fun _ _ _ _ ha k =>
      .pure (congrArg TypeTree.power ha) k
  | .product a b, r, S, S', h => by
    rw [argumentType]
    refine (parallel_argumentType top a r S S' h).bind fun _ _ T T' ha k => ?_
    exact (parallel_argumentType top b r T T' k).bind fun _ _ _ _ hb k =>
      .pure (congrArg₂ TypeTree.product ha hb) k
  | .data d as, r, S, S', h => by
    rw [argumentType]
    cases as.mapM r.sourceType? with
    | none => exact ⟨rfl, h⟩
    | some args =>
      refine .bind_run (run_orOutOfRange args S) (run_orOutOfRange args S') ?_
      split_ifs
      · exact .pure rfl h
      · refine (parallel_represented h ?_).bind fun _ _ _ _ hr k =>
          .pure (congrArg (·.2.2) hr) k
        refine (parallel_argumentTypes as r S S' h).bind fun _ params T T' hparams k => ?_
        obtain rfl := hparams
        exact d.parallel_represent args _ T T' k

theorem parallel_argumentTypes : ∀ (as : List ArgTy) (r : PartialRepresentation)
    (S S' : EncodingState), S.encoding.outline = S'.encoding.outline →
      Parallel id (argumentTypes as r) (argumentTypes as r) S S'
  | [], _, _, _, h => .pure rfl h
  | a :: as, r, S, S', h => by
    rw [argumentTypes]
    refine (parallel_argumentType false a r S S' h).bind fun _ _ T T' ha k => ?_
    exact (parallel_argumentTypes as r T T' k).bind fun _ _ _ _ has k =>
      .pure (congrArg₂ List.cons ha has) k

end

namespace Encode

mutual

/-- The encoding of a type is decided by the outline. -/
theorem parallel_type : ∀ (T : Ty) (S S' : EncodingState), S.encoding.outline = S'.encoding.outline →
    Parallel id (Encode.type T) (Encode.type T) S S'
  | .leaf v, _, _, _ => v.elim
  | .boolean, _, _, h => .pure rfl h
  | .given _, _, _, h => .pure rfl h
  | .power a, S, S', h => by
    rw [Encode.type]
    exact (parallel_type a S S' h).bind fun _ _ _ _ ha k => .pure (congrArg TypeTree.power ha) k
  | .product a b, S, S', h => by
    rw [Encode.type]
    refine (parallel_type a S S' h).bind fun _ _ T T' ha k => ?_
    exact (parallel_type b T T' k).bind fun _ _ _ _ hb k => .pure (congrArg₂ TypeTree.product ha hb) k
  | .data d as, S, S', h => by
    rw [Encode.type]
    refine (parallel_represented h ?_).bind fun _ _ _ _ hr k => .pure (congrArg (·.2.2) hr) k
    refine (parallel_types as S S' h).bind fun _ params T T' hparams k => ?_
    obtain rfl := hparams
    exact d.parallel_represent as _ T T' k

theorem parallel_types : ∀ (Ts : List Ty) (S S' : EncodingState),
    S.encoding.outline = S'.encoding.outline → Parallel id (types Ts) (types Ts) S S'
  | [], _, _, h => .pure rfl h
  | T :: Ts, S, S', h => by
    rw [types]
    refine (parallel_type T S S' h).bind fun _ _ S₁ S₁' hT k => ?_
    exact (parallel_types Ts S₁ S₁' k).bind fun _ _ _ _ hTs k => .pure (congrArg₂ List.cons hT hTs) k

end

theorem parallel_targetEnvironment (h : S.encoding.outline = S'.encoding.outline) :
    Parallel id targetEnvironment targetEnvironment S S' := by
  refine .bind_run (run_current S) (run_current S') ?_
  have henv : S.encoding.env = S'.encoding.env := congrArg Outline.env h
  rw [← henv]
  refine (Parallel.mapM id h fun x _ T T' k => ?_).bind fun es es' T T' hes k => ?_
  · exact (parallel_type x.2 T T' k).bind fun _ _ _ _ ht k => .pure (congrArg (Prod.mk x.1) ht) k
  · refine .bind_run (run_current T) (run_current T') (.pure ?_ k)
    have hallocated : T.encoding.allocated = T'.encoding.allocated := congrArg Outline.allocated k
    obtain rfl : es = es' := by simpa using hes
    rw [hallocated]

end Encode
end SetLang
