import SetLang.Proofs.Encoding.Over
import SetLang.Proofs.Encoding.Records

/-! The environment of the target. It declares the names of the source environment, of the types that stand for
theirs, and all names that were given out. So the given types in what stands for a type are known in it, if those in
the type are known in the source environment. -/

namespace SetLang

variable {D V W : Type} {env E : Environment} {ds : List Datatype} {S S' : EncodingState} {held : Set Formula}
  {source : Factory} {T t : Ty} {x : String}

theorem TypeTree.mem_givens_subst {h : V → TypeTree D W} {t : TypeTree D V} :
    x ∈ (t.subst h).givens ↔ x ∈ t.givens ∨ ∃ v ∈ t.leaves, x ∈ (h v).givens := by
  induction t using TypeTree.ind with
  | leaf v => simp [subst, givens, leaves]
  | boolean => simp [subst, givens, leaves]
  | given y => simp [subst, givens, leaves]
  | power a ih => exact ih
  | product a b iha ihb =>
    simp only [subst, givens, leaves, List.mem_append, iha, ihb, or_and_right, exists_or]
    exact or_or_or_comm
  | data d as ih =>
    simp only [subst, givens, leaves, substAll_eq, givensAll_eq, leavesAll_eq, List.flatMap_map, List.mem_flatMap]
    constructor
    · rintro ⟨a, ha, hx⟩
      obtain hx | ⟨v, hv, hx⟩ := (ih a ha).1 hx
      · exact .inl ⟨a, ha, hx⟩
      · exact .inr ⟨v, ⟨a, ha, hv⟩, hx⟩
    · rintro (⟨a, ha, hx⟩ | ⟨v, ⟨a, ha, hv⟩, hx⟩)
      · exact ⟨a, ha, (ih a ha).2 (.inl hx)⟩
      · exact ⟨a, ha, (ih a ha).2 (.inr ⟨v, hv, hx⟩)⟩

def Environment.Grounds (env : Environment) (T : TypeTree D V) : Prop :=
  ∀ x ∈ T.givens, env.get? x = some (Ty.givenSet x)

namespace Environment

theorem grounds_named {T : TypeTree Datatype V} : env.Grounds T.named ↔ env.Grounds T := by
  rw [Grounds, Grounds, TypeTree.named, TypeTree.givens_mapData]

theorem grounds_product {a b : TypeTree D V} : env.Grounds (.product a b) ↔ env.Grounds a ∧ env.Grounds b :=
  List.forall_mem_append

theorem Grounds.subst {h : V → TypeTree D W} {t : TypeTree D V} (ht : env.Grounds t)
    (hh : ∀ v ∈ t.leaves, env.Grounds (h v)) : env.Grounds (t.subst h) := fun x hx =>
  (TypeTree.mem_givens_subst.1 hx).elim (ht x) fun ⟨v, hv, hx⟩ => hh v hv x hx

end Environment

namespace EncodingState

/-- The environment has the names that were given out, which are those of complete representations too. -/
structure Gives (S : EncodingState) (E : Environment) : Prop where
  complete : ∀ r ∈ S.encoding.representations, r.Complete
  accounts : S.encoding.Accounts
  given : ∀ x T, S.encoding.allocated.get? x = some T → E.get? x = some T

/-- The environment declares the names that were given out, and the names of the source environment of the types that
stand for theirs. -/
structure Declares (S : EncodingState) (E : Environment) : Prop extends S.Gives E where
  encoded : ∀ x T, S.encoding.env.get? x = some T →
    ∃ t, Ty.image? S.encoding.look T = some t ∧ E.get? x = some t

theorem Gives.grounds_type {r : Representation} (h : S.Gives E) (hr : r ∈ S.encoding.representations) :
    E.Grounds r.type := by
  obtain ⟨g, n, hg, hexpr⟩ := (h.complete r hr).type
  obtain ⟨n', x, U, heq, hU⟩ := h.accounts r hr r.typeExpr List.mem_cons_self
  rw [hexpr] at heq
  cases heq
  rw [hg]
  exact List.forall_mem_singleton.2 (h.given g _ hU)

/-- The given types in what stands for a type are known with those in the type. -/
theorem Gives.grounds (h : S.Gives E) (hT : E.Grounds T) (ht : Ty.image? S.encoding.look T = some t) :
    E.Grounds t := by
  induction T using TypeTree.ind generalizing t with
  | leaf v => exact v.elim
  | boolean =>
    cases ht
    exact nofun
  | given s =>
    cases ht
    exact hT
  | power a ih =>
    obtain ⟨b, hb, rfl⟩ := Option.map_eq_some_iff.1 ht
    exact ih (t := b) hT hb
  | product a b iha ihb =>
    obtain ⟨c, hc, hprod⟩ := Option.bind_eq_some_iff.1 ht
    obtain ⟨d, hd, rfl⟩ := Option.map_eq_some_iff.1 hprod
    have hT := Environment.grounds_product.1 hT
    exact Environment.grounds_product.2 ⟨iha hT.1 hc, ihb hT.2 hd⟩
  | data d as _ =>
    obtain ⟨r, hr, rfl⟩ := Option.map_eq_some_iff.1 ht
    exact h.grounds_type (Encoding.mem_of_representation? hr).1

theorem Declares.get?_given (h : S.Declares E) (hx : S.encoding.env.get? x = some (Ty.givenSet x)) :
    E.get? x = some (Ty.givenSet x) := by
  obtain ⟨t, ht, hget⟩ := h.encoded x _ hx
  cases ht
  exact hget

theorem Declares.grounds_image (h : S.Declares E) (hT : S.encoding.env.Grounds T)
    (ht : Ty.image? S.encoding.look T = some t) : E.Grounds t :=
  h.toGives.grounds (fun x hx => h.get?_given (hT x hx)) ht

end EncodingState

namespace Encode

theorem succeeds_entries {entries : List (String × Ty)} (hS : S.Coherent ds)
    (hsup : ∀ e ∈ entries, e.2.Supported ds) :
    Succeeds (entries.mapM fun (name, t) => do return (name, ← type t)) S fun es S' => S.Continues ds S' ∧
      List.Forall₂ (fun e e' => e'.1 = e.1 ∧ Ty.image? S'.encoding.look e.2 = some e'.2) entries es := by
  induction entries generalizing S with
  | nil => exact .pure ⟨.refl hS, .nil⟩
  | cons e entries ih =>
    rw [List.forall_mem_cons] at hsup
    rw [List.mapM_cons]
    have hfirst : Succeeds (do return (e.1, ← type e.2) : Encode (String × Ty)) S fun e' S' => S.Continues ds S' ∧
        e'.1 = e.1 ∧ Ty.image? S'.encoding.look e.2 = some e'.2 :=
      (succeeds_type hS hsup.1).bind fun t S' h => .pure ⟨h.1.continues hS, rfl, h.2⟩
    refine hfirst.bind fun e' S₁ h₁ => ?_
    obtain ⟨k₁, hname, himage⟩ := h₁
    refine (ih k₁.coherent hsup.2).bind fun es S₂ h₂ => .pure ?_
    exact ⟨k₁.trans h₂.1, .cons ⟨hname, h₂.1.image? k₁.coherent hsup.1 himage⟩ h₂.2⟩

theorem succeeds_environment (hS : S.Coherent ds) (hsup : ∀ e ∈ S.encoding.env.entries, e.2.Supported ds) :
    Succeeds targetEnvironment S fun E S' => S.Continues ds S' ∧ ∃ es,
      List.Forall₂ (fun e e' => e'.1 = e.1 ∧ Ty.image? S'.encoding.look e.2 = some e'.2) S.encoding.env.entries es ∧
        E = (Environment.empty.insertAll es).extend S'.encoding.allocated := by
  unfold targetEnvironment
  refine .bind_run (run_current S) ?_
  refine (succeeds_entries hS hsup).bind fun es S₁ h₁ => .bind_run (run_current S₁) (.pure ?_)
  exact ⟨h₁.1, es, h₁.2, rfl⟩

end Encode

/-- What is found among entries is found among what has become of them. -/
theorem lookup_of_forall₂ {es es' : List (String × Ty)} {P : Ty → Ty → Prop}
    (h : List.Forall₂ (fun e e' => e'.1 = e.1 ∧ P e.2 e'.2) es es') (hx : es.lookup x = some T) :
    ∃ t, es'.lookup x = some t ∧ P T t := by
  induction h with
  | nil => cases hx
  | @cons e e' es es' he _ ih =>
    obtain ⟨name, U⟩ := e
    obtain ⟨name', u⟩ := e'
    obtain ⟨rfl, hU⟩ := he
    rw [lookup_cons_if] at hx ⊢
    split_ifs at hx ⊢ with heq
    · obtain rfl := Option.some_inj.1 hx
      exact ⟨u, rfl, hU⟩
    · exact ih hx

namespace EncodingState

/-- Over the datatypes of the source, the environment of the target is given whenever it is asked for. -/
theorem ReachedOver.declares (h : ReachedOver source S held) (hsorted : S.encoding.env.Sorted)
    (hsup : ∀ e ∈ S.encoding.env.entries, e.2.Supported source.datatypes) :
    ∃ E S', Encode.targetEnvironment.run S = (.ok E, S') ∧ S.Continues source.datatypes S' ∧
      S'.Over source.datatypes ∧ S'.Declares E := by
  have hcoherent := h.reached.coherent_of_over h.over
  obtain ⟨E, S', hrun, hcontinues, es, hes, rfl⟩ := Encode.succeeds_environment hcoherent hsup
  have hover := h.encode (.targetEnvironment hsup)
  rw [snd_run_bind_pure, hrun] at hover
  have hreached := hover.reached
  have hrecords := hreached.records
  have hnames : es.map Prod.fst = S.encoding.env.entries.map Prod.fst := by
    rw [← List.forall₂_eq_eq_eq, List.forall₂_map_left_iff, List.forall₂_map_right_iff]
    exact hes.flip.imp fun _ _ he => he.1
  have henv := hcontinues.later.env
  refine ⟨_, S', hrun, hcontinues, hover.over, ⟨hreached.sound.1.complete, hreached.account, fun x T hT => ?_⟩,
    fun x T hT => ?_⟩
  · rw [Environment.get?_extend hrecords.sorted, hT, Option.some_or]
  · rw [henv] at hT
    obtain ⟨t, ht, himage⟩ := lookup_of_forall₂ (P := fun T t => Ty.image? S'.encoding.look T = some t) hes hT
    refine ⟨t, himage, ?_⟩
    -- the name is one of the environment, so that it was not given out
    have hmem : x ∈ S'.encoding.env.names := henv ▸ isSome_lookup_iff.1 (Option.isSome_of_eq_some hT)
    have hnone : S'.encoding.allocated.get? x = none := lookup_eq_none_iff_not_mem.2 fun hx =>
      hreached.notMem_initialNames hx (List.mem_append_left _ hmem)
    rw [Environment.get?_extend hrecords.sorted, hnone, Option.none_or,
      Environment.get?_insertAll (hnames ▸ hsorted.distinct), ht, Option.some_or]

end EncodingState
end SetLang
