import SetLang.Proofs.Encoding.Names
import SetLang.Proofs.Session.Sound

/-! Runs of encodings. Their states come in an order: what is kept of types, the names that are taken and
the representations are only added to, and what happens to names is a sequence of events. -/

namespace SetLang

variable {S S' S'' : EncodingState} {α : Type}

/-- What a loop that may fail gives, element by element. -/
theorem mapM_eq_some_iff {α β : Type} {f : α → Option β} {xs : List α} {ys : List β} :
    xs.mapM f = some ys ↔ List.Forall₂ (fun x y => f x = some y) xs ys := by
  induction xs generalizing ys with
  | nil => simp [eq_comm]
  | cons x xs ih =>
    rw [List.mapM_cons, List.forall₂_cons_left_iff]
    simp [Option.bind_eq_some_iff, ih, eq_comm (b := ys)]

namespace ArgTy

variable {V : Type} {params : List (TypeTree Datatype V)} {own T : TypeTree Datatype V}

theorem instantiate?_power {a : ArgTy} : instantiate? (.power a) params own = some T ↔
    ∃ A, instantiate? a params own = some A ∧ .power A = T := Option.map_eq_some_iff

theorem instantiate?_product {a b : ArgTy} : instantiate? (.product a b) params own = some T ↔
    ∃ A, instantiate? a params own = some A ∧ ∃ B, instantiate? b params own = some B ∧
      .product A B = T := by
  rw [instantiate?, TypeTree.subst?_product, Option.bind_eq_some_iff]
  exact exists_congr fun A => and_congr_right fun _ => Option.map_eq_some_iff

theorem instantiate?_data {d : Datatype} {as : List ArgTy} :
    instantiate? (.data d as) params own = some T ↔
      ∃ args, as.mapM (instantiate? · params own) = some args ∧ .data d args = T := by
  rw [instantiate?, TypeTree.subst?, TypeTree.substAll?_eq]
  exact Option.map_eq_some_iff

end ArgTy

namespace EncodingState

structure Later (S S' : EncodingState) : Prop where
  store : S.store.Later S'.store
  source : S'.encoding.source = S.encoding.source
  target : S'.encoding.target = S.encoding.target
  env : S'.encoding.env = S.encoding.env
  names : S.Goes S'
  representations : S.encoding.representations <+: S'.encoding.representations

theorem Later.refl (S : EncodingState) : S.Later S :=
  ⟨.refl _, rfl, rfl, rfl, .still rfl rfl, List.prefix_rfl⟩

theorem Later.trans (h : S.Later S') (k : S'.Later S'') : S.Later S'' :=
  ⟨h.store.trans k.store, k.source.trans h.source, k.target.trans h.target, k.env.trans h.env,
    h.names.trans k.names, h.representations.trans k.representations⟩

theorem Later.used (h : S.Later S') : S.encoding.used ⊆ S'.encoding.used := h.names.used_subset

/-- Nothing is represented between the states. -/
structure Quiet (S S' : EncodingState) : Prop where
  store : S.store.Later S'.store
  source : S'.encoding.source = S.encoding.source
  target : S'.encoding.target = S.encoding.target
  env : S'.encoding.env = S.encoding.env
  names : S.Goes S'
  representations : S'.encoding.representations = S.encoding.representations

namespace Quiet

/-- A change of the store alone. -/
theorem of_store {s : Store} (h : S.store.Later s) : S.Quiet ⟨s, S.encoding⟩ :=
  ⟨h, rfl, rfl, rfl, .still rfl rfl, rfl⟩

theorem refl (S : EncodingState) : S.Quiet S := of_store (.refl _)

theorem trans (h : S.Quiet S') (k : S'.Quiet S'') : S.Quiet S'' :=
  ⟨h.store.trans k.store, k.source.trans h.source, k.target.trans h.target, k.env.trans h.env,
    h.names.trans k.names, k.representations.trans h.representations⟩

theorem later (h : S.Quiet S') : S.Later S' :=
  ⟨h.store, h.source, h.target, h.env, h.names, h.representations ▸ List.prefix_rfl⟩

theorem used (h : S.Quiet S') : S.encoding.used ⊆ S'.encoding.used := h.names.used_subset

theorem representation? (h : S.Quiet S') (i : Instance) :
    S'.encoding.representation? i = S.encoding.representation? i := by
  unfold Encoding.representation?
  rw [h.representations]

end Quiet

/-- Nothing but the store changes, and it keeps what it has. -/
structure Still (S S' : EncodingState) : Prop where
  store : S.store.Later S'.store
  encoding : S'.encoding = S.encoding

namespace Still

theorem refl (S : EncodingState) : S.Still S := ⟨.refl _, rfl⟩

theorem trans (h : S.Still S') (k : S'.Still S'') : S.Still S'' :=
  ⟨h.store.trans k.store, k.encoding.trans h.encoding⟩

instance : Std.Refl Still := ⟨.refl⟩

instance : IsTrans EncodingState Still := ⟨fun _ _ _ => .trans⟩

theorem quiet (h : S.Still S') : S.Quiet S' := by
  obtain ⟨store, encoding⟩ := S'
  obtain rfl : encoding = S.encoding := h.encoding
  exact .of_store h.store

end Still

def add (S : EncodingState) (r : Representation) : EncodingState :=
  { S with encoding := { S.encoding with representations := S.encoding.representations ++ [r] } }

theorem later_add (S : EncodingState) (r : Representation) : S.Later (S.add r) :=
  ⟨.refl _, rfl, rfl, rfl, .still rfl rfl, List.prefix_append _ _⟩

end EncodingState

namespace Encoding

variable {t : Encoding} {r : Representation} {i : Instance}

theorem mem_of_representation? (h : t.representation? i = some r) :
    r ∈ t.representations ∧ (r.source.type == i.type) = true :=
  ⟨List.mem_reverse.1 (List.mem_of_find?_eq_some h), List.find?_some (p := fun r : Representation =>
    r.source.type == i.type) h⟩

end Encoding

namespace Encode

@[simp] theorem run_current (S : EncodingState) : current.run S = (.ok S.encoding, S) := rfl

@[simp] theorem run_store (S : EncodingState) : store.run S = (.ok S.store, S) := rfl

@[simp] theorem run_target (S : EncodingState) : target.run S = (.ok S.encoding.target, S) := rfl

@[simp] theorem run_update (g : Encoding → Encoding) (S : EncodingState) :
    (update g).run S = (.ok (), { S with encoding := g S.encoding }) := rfl

@[simp] theorem run_orOutOfRange (a : α) (S : EncodingState) :
    (orOutOfRange (some a)).run S = (.ok a, S) := rfl

/-- A construction leaves the encoding alone. -/
theorem run_liftM (x : Build α) (S : EncodingState) : (liftM x : Encode α).run S =
    ((x.run S.store).1.mapError Fault.misuse, { S with store := (x.run S.store).2 }) := by
  simp only [liftM, monadLift, MonadLift.monadLift, ExceptT.mk, ExceptT.run]
  rcases x S.store with ⟨r, s'⟩
  cases r <;> rfl

instance : LawfulMonadLift Build Encode where
  monadLift_pure _ := rfl
  monadLift_bind x k := by
    funext S
    change (liftM (x >>= k) : Encode _).run S = ((liftM x : Encode _) >>= fun a => liftM (k a)).run S
    rw [run_liftM, run_bind, run_bind, run_liftM]
    rcases x.run S.store with ⟨_ | a, t⟩
    · rfl
    · exact (run_liftM (k a) ⟨t, S.encoding⟩).symm

theorem succeeds_liftM {x : Build α} {Q : α → Store → Prop} (h : Succeeds x S.store Q) :
    Succeeds (liftM x : Encode α) S fun a S' => S'.encoding = S.encoding ∧ Q a S'.store := by
  obtain ⟨a, s', hrun, hQ⟩ := h
  refine ⟨a, { S with store := s' }, ?_, rfl, hQ⟩
  rw [run_liftM, hrun]
  rfl

theorem yields_liftM {x : Build α} {Q : α → Store → Prop} (h : Yields x S.store Q) :
    Yields (liftM x : Encode α) S fun a S' => Q a S'.store := by
  intro a S' hrun
  rw [run_liftM] at hrun
  rcases hx : x.run S.store with ⟨r, s'⟩
  rw [hx] at hrun
  cases r with
  | ok b =>
    cases hrun
    exact h _ _ hx
  | error m => cases hrun

end Encode
end SetLang
