import SetLang.Proofs.Session.Accepted
import SetLang.Proofs.Session.Again
import SetLang.Proofs.Session.Bindings

/-! Checks of typed formulas in an environment that knows their identifiers and the given types in them. Such a
check finds what is there already: it succeeds, infers nothing and leaves the store as it is. -/

namespace SetLang

variable {s s' : Store} {held : Set Formula} {env env' inferred : Environment} {f g : Formula} {τ : Typing}

/-- A typed node, over typed parts and by its rule. -/
structure Formula.Settled (s : Store) (g : Formula) : Prop where
  fits : g.NodeFits s
  typed : g.isTyped s
  parts : g.PartsTyped s
  obeys : s.typing.Obeys g

theorem Formula.Settled.mono (h : g.Settled s) (k : s.Later s') : g.Settled s' :=
  ⟨h.fits.mono k, isTyped_mono h.typed k, h.parts.mono k, Store.Sound.obeys_later k h.typed h.parts h.obeys⟩

theorem Store.Sound.settled (h : s.Sound held) (hg : g ∈ held) (ht : g.isTyped s) : g.Settled s :=
  ⟨h.fits g hg, ht, (h.typed g hg ht).1, (h.typed g hg ht).2⟩

/-- A node is settled, and its declaration, or the environment, knows it if it is an identifier. The given types in
its type are known as sets of their values. -/
structure Occurrence.Known (s : Store) (env : Environment) (o : Occurrence) : Prop where
  settled : o.node.Settled s
  bound : ∀ n i u, o.node = .expr (.bound n i u) →
    ∃ b, o.scope[i]? = some b ∧ (Formula.decl b).isTyped s ∧ s.typing.slot n.slot = s.typing.ofDecl b
  free : ∀ n x u, o.node = .expr (.free n x u) → ∃ T, env.get? x = some T ∧ s.typing.slot n.slot = T.named
  givens : ∀ T, o.node.type? s = some T → ∀ x ∈ T.givens,
    ∃ U, env.get? x = some U ∧ U.named = .power (.given x)

/-- Another environment has what this one has. Whatever else it has are given types, as the sets of their values. -/
structure Environment.AddsGivens (env env' : Environment) : Prop where
  kept : ∀ x T, env.get? x = some T → env'.get? x = some T
  added : ∀ x T, env.get? x = none → env'.get? x = some T → T = Ty.givenSet x

theorem Environment.AddsGivens.refl (env : Environment) : env.AddsGivens env :=
  ⟨fun _ _ h => h, fun x T hnone hT => by rw [hnone] at hT; cases hT⟩

namespace Occurrence.Known

variable {o : Occurrence}

theorem mono (h : o.Known s env) (k : s.Later s') : o.Known s' env where
  settled := h.settled.mono k
  bound n i u hn := by
    obtain ⟨b, hb, htyped, heq⟩ := h.bound n i u hn
    have hself : (Formula.expr (.bound n i u)).isTyped s := hn ▸ h.settled.typed
    refine ⟨b, hb, Formula.isTyped_mono htyped k, ?_⟩
    exact (Store.Sound.typing_slot_eq k hself rfl).symm.trans (heq.trans (Store.Sound.typing_slot_eq k htyped rfl))
  free n x u hn := by
    obtain ⟨T, hT, heq⟩ := h.free n x u hn
    have hself : (Formula.expr (.free n x u)).isTyped s := hn ▸ h.settled.typed
    exact ⟨T, hT, (Store.Sound.typing_slot_eq k hself rfl).symm.trans heq⟩
  givens T hT := h.givens T ((Formula.type?_eq_of_later h.settled.typed k).symm.trans hT)

theorem extend (h : o.Known s env) (k : ∀ x T, env.get? x = some T → env'.get? x = some T) : o.Known s env' where
  settled := h.settled
  bound := h.bound
  free n x u hn := (h.free n x u hn).imp fun _ hT => ⟨k _ _ hT.1, hT.2⟩
  givens T hT x hx := (h.givens T hT x hx).imp fun _ hU => ⟨k _ _ hU.1, hU.2⟩

/-- The types in the store are by the rule of the node, where names that the environment lacks are those of given
types. -/
theorem typesNode (h : o.Known s env') (k : env.AddsGivens env') :
    (Typing.mk s.typing.slot fun x => .power (.given x)).TypesNode env o := by
  refine ⟨h.settled.obeys.congr (fun _ _ => rfl) fun _ _ _ _ => rfl, ?_⟩
  obtain ⟨scope, n⟩ := o
  cases n with
  | pred | assignment | decl => trivial
  | expr e =>
    cases e with
    | bound n i u =>
      obtain ⟨b, hb, -, heq⟩ := h.bound n i u rfl
      exact ⟨b, hb, heq⟩
    | free n x u =>
      obtain ⟨T, hT, heq⟩ := h.free n x u rfl
      change s.typing.slot n.slot = _
      rw [heq]
      cases hx : env.get? x with
      | none =>
        rw [k.added x T hx hT]
        rfl
      | some U =>
        obtain rfl := Option.some_inj.1 (hT.symm.trans (k.kept x U hx))
        rfl
    | _ => trivial

variable {sc sc' : List Declaration}

/-- Of nodes that are no identifiers only the given types have to be known. -/
theorem of_settled (h : o.node.Settled s) (hid : ¬ o.node.IsIdentifier)
    (hgivens : ∀ T, o.node.type? s = some T → ∀ x ∈ T.givens,
      ∃ U, env.get? x = some U ∧ U.named = .power (.given x)) : o.Known s env where
  settled := h
  bound n i u hn := absurd (by rw [hn]; trivial) hid
  free n x u hn := absurd (by rw [hn]; trivial) hid
  givens := hgivens

theorem pred {p : Pred} (h : (Formula.pred p).Settled s) : Occurrence.Known s env ⟨sc, .pred p⟩ :=
  of_settled h not_false fun _ hT => by cases hT

theorem decl {b : Declaration} (h : Occurrence.Known s env ⟨sc, .decl b⟩) :
    Occurrence.Known s env ⟨sc', .decl b⟩ := of_settled h.settled not_false h.givens

theorem rescope (h : Occurrence.Known s env ⟨sc, g⟩)
    (hsc : ∀ (i : Nat) b, sc[i]? = some b → (Formula.decl b).isTyped s → ∃ b', sc'[i]? = some b' ∧
      (Formula.decl b').isTyped s ∧ s.typing.ofDecl b' = s.typing.ofDecl b) :
    Occurrence.Known s env ⟨sc', g⟩ where
  settled := h.settled
  bound n i u hn := by
    obtain ⟨b, hb, htyped, heq⟩ := h.bound n i u hn
    obtain ⟨b', hb', htyped', heq'⟩ := hsc i b hb htyped
    exact ⟨b', hb', htyped', heq.trans heq'.symm⟩
  free := h.free
  givens := h.givens

end Occurrence.Known

def Formula.Known (s : Store) (env : Environment) (f : Formula) : Prop := ∀ o ∈ f.occurrences, o.Known s env

namespace Formula.Known

theorem slot_eq (h : f.Known s env) (hτ : τ.Types s env' f) {x : Nat} (hx : x ∈ f.typeSlots) :
    ∃ T, s.type? x = some T ∧ τ.slot x = T.named := by
  obtain ⟨o, ho, hslot⟩ := List.mem_filterMap.1 hx
  obtain ⟨T, hT⟩ := exists_type? (h o ho).settled.typed hslot
  exact ⟨T, hT, hτ.resolved x T hT⟩

section
variable (h : f.Known s env') (k : env.AddsGivens env')
include h k

/-- A name that the environment lacks has the type of the values of the given type of this name. -/
theorem free_eq (hτ : τ.Types s env f) {x : String} (hx : x ∈ f.freeNames) (hnone : env.get? x = none) :
    env'.get? x = some (Ty.givenSet x) ∧ τ.free x = .power (.given x) := by
  obtain ⟨n, u, o, ho, hn⟩ := mem_freeNames.1 hx
  obtain ⟨T, hT, heq⟩ := (h o ho).free n x u hn
  obtain rfl := k.added x T hnone hT
  have hself := (hτ.node o ho).2
  rw [hn] at hself
  change τ.slot n.slot = _ at hself
  have hslot : n.slot ∈ f.typeSlots := List.mem_filterMap.2 ⟨o, ho, by rw [hn]; rfl⟩
  obtain ⟨U, hU, hUeq⟩ := h.slot_eq hτ hslot
  rw [Store.typing_slot hU] at heq
  refine ⟨hT, ?_⟩
  rw [hnone, hUeq, heq] at hself
  exact hself.symm

theorem exists_given (hτ : τ.Types s env f) {x : String} (hx : τ.Mentions env f x) :
    ∃ U, env'.get? x = some U ∧ U.named = .power (.given x) := by
  obtain ⟨y, hy, hgiven⟩ | ⟨y, hy, hnone, hgiven⟩ := hx
  · obtain ⟨T, hT, heq⟩ := h.slot_eq hτ hy
    obtain ⟨o, ho, hslot⟩ := List.mem_filterMap.1 hy
    rw [heq, TypeTree.named, TypeTree.givens_mapData] at hgiven
    exact (h o ho).givens T (Option.bind_eq_some_iff.2 ⟨y, hslot, hT⟩) x hgiven
  · obtain ⟨hget, heq⟩ := h.free_eq k hτ hy hnone
    rw [heq] at hgiven
    obtain rfl := List.mem_singleton.1 hgiven
    exact ⟨_, hget, rfl⟩

theorem exists_typing : ∃ τ : Typing, τ.Types s env f :=
  ⟨⟨s.typing.slot, fun x => .power (.given x)⟩, fun _ _ => Store.typing_slot, fun o ho => (h o ho).typesNode k⟩

theorem wellTyped : f.WellTyped s env := by
  refine ⟨h.exists_typing k, fun τ τ' hτ hτ' => ⟨fun x hx => ?_, fun x hx hnone => ?_⟩, fun τ hτ x hx => ?_⟩
  · obtain ⟨T, hT, heq⟩ := h.slot_eq hτ hx
    rw [heq, hτ'.resolved x T hT]
  · rw [(h.free_eq k hτ hx hnone).2, (h.free_eq k hτ' hx hnone).2]
  · obtain ⟨U, hU, heq⟩ := h.exists_given k hτ hx
    refine ⟨fun t ht => ?_, fun hnone hfree => (h.free_eq k hτ hfree hnone).2⟩
    obtain rfl := Option.some_inj.1 (hU.symm.trans (k.kept x t ht))
    exact heq

/-- A check finds the given types that the environment lacks, and nothing else that was not there. -/
theorem check_added {r : Except (Fault CheckError) (Environment × Store)} (hr : f.check? s env = some r) :
    ∃ inferred, r = .ok (inferred, s) ∧ ∀ x T, inferred.get? x = some T →
      env.get? x = none ∧ env'.get? x = some (Ty.givenSet x) ∧ T.named = .power (.given x) := by
  obtain ⟨-, inferred, s', rfl, hpub⟩ | ⟨hnot, -⟩ := check_spec (fun o ho => (h o ho).settled.fits) hr
  swap
  · exact absurd (h.wellTyped k) hnot
  obtain ⟨τ, hτ⟩ := h.exists_typing k
  have hpub := hpub τ hτ
  obtain rfl : s' = s := by
    refine Store.eq_of_slots (sizes_check? hr) (fun x => hpub.kept x ?_) fun x => ?_
    · by_cases hx : x ∈ f.typeSlots
      · obtain ⟨T, hT, -⟩ := h.slot_eq hτ hx
        exact .inr (hT ▸ Option.some_ne_none T)
      · exact .inl hx
    · rw [Bool.eq_iff_iff, hpub.marks]
      refine ⟨fun hx => hx.elim id fun hin => ?_, .inl⟩
      obtain ⟨o, ho, hmark⟩ := List.mem_filterMap.1 hin
      have htyped := (h o ho).settled.typed
      obtain ⟨scope, n⟩ := o
      cases n with
      | expr | decl => cases hmark
      | pred | assignment =>
        cases hmark
        exact htyped
  refine ⟨inferred, rfl, fun x T hT => ?_⟩
  obtain ⟨hnone, hx⟩ := (hpub.inferred x T.named).1 (by rw [hT]; rfl)
  obtain ⟨hfree, heq⟩ | ⟨hmentions, heq⟩ := hx
  · obtain ⟨hget, hset⟩ := h.free_eq k hτ hfree hnone
    exact ⟨hnone, hget, heq.trans hset⟩
  · obtain ⟨U, hU, -⟩ := h.exists_given k hτ hmentions
    exact ⟨hnone, k.added x U hnone hU ▸ hU, heq⟩

end

theorem check? (h : f.Known s env) {r : Except (Fault CheckError) (Environment × Store)}
    (hr : f.check? s env = some r) : r = .ok (.empty, s) := by
  obtain ⟨inferred, rfl, hinferred⟩ := h.check_added (.refl env) hr
  obtain rfl : inferred = .empty := by
    refine Environment.eq_empty_of_get? fun x => Option.eq_none_iff_forall_ne_some.2 fun t ht => ?_
    obtain ⟨hnone, hsome, -⟩ := hinferred x t ht
    rw [hnone] at hsome
    cases hsome
  rfl

end Formula.Known

/-- A name that a check infers is free, or is a given type in the type of a node. -/
theorem Formula.mem_of_inferred (hs : s.Sound held) (hf : f ∈ held)
    (hr : f.check? s env = some (.ok (inferred, s'))) {x : String} (hx : inferred.get? x ≠ none) :
    x ∈ f.freeNames ∨ ∃ g ∈ f.nodes, ∃ T, g.type? s' = some T ∧ x ∈ T.givens := by
  have hwithin := within hs.closed f hf
  obtain ⟨hw, hpub⟩ := published_of_check (fun o ho => hs.fits _ (hwithin o ho)) hr
  obtain ⟨τ, hτ⟩ := hw.typed
  have hpub := hpub τ hτ
  have hslot : ∀ o ∈ f.occurrences, ∀ y, o.node.slot? = some y → x ∈ (τ.slot y).givens →
      ∃ g ∈ f.nodes, ∃ T, g.type? s' = some T ∧ x ∈ T.givens := by
    intro o ho y hy hin
    obtain ⟨htyped, heq⟩ := Store.Sound.isTyped_of_published hpub ho
    obtain ⟨T, hT⟩ := exists_type? htyped hy
    rw [heq y hy, Store.typing_slot hT, TypeTree.named, TypeTree.givens_mapData] at hin
    exact ⟨o.node, ⟨o, ho, rfl⟩, T, Option.bind_eq_some_iff.2 ⟨y, hy, hT⟩, hin⟩
  obtain ⟨t, ht⟩ := Option.ne_none_iff_exists'.1 hx
  obtain ⟨-, ⟨hfree, -⟩ | ⟨⟨y, hy, hin⟩ | ⟨z, hz, hnone, hin⟩, -⟩⟩ := (hpub.inferred x t.named).1 (by rw [ht]; rfl)
  · exact .inl hfree
  · obtain ⟨o, ho, hy⟩ := List.mem_filterMap.1 hy
    exact .inr (hslot o ho y hy hin)
  · obtain ⟨n, u, o, ho, hn⟩ := mem_freeNames.1 hz
    have hself := (hτ.node o ho).2
    rw [hn] at hself
    change τ.slot n.slot = _ at hself
    rw [hnone] at hself
    exact .inr (hslot o ho n.slot (by rw [hn]; rfl) (hself ▸ hin))

theorem Formula.known_of_check (hs : s.Sound held) (hf : f ∈ held)
    (hr : f.check? s env = some (.ok (inferred, s'))) : f.Known s' (env.extend inferred) := by
  have hwithin := within hs.closed f hf
  obtain ⟨hw, hpub⟩ := published_of_check (fun o ho => hs.fits _ (hwithin o ho)) hr
  obtain ⟨τ, hτ⟩ := hw.typed
  have hpub := hpub τ hτ
  have hsorted := sorted_check? hr
  have hs' := (hs.check hf hr).2
  intro o ho
  obtain ⟨htyped, hslot⟩ := Store.Sound.isTyped_of_published hpub ho
  refine ⟨hs'.settled (hwithin o ho) htyped, fun n i u hn => ?_, fun n x u hn => ?_, fun T hT x hx => ?_⟩
  · have hbound := (hτ.node o ho).2
    rw [hn] at hbound
    obtain ⟨b, hb, heq⟩ := hbound
    obtain ⟨o', ho', hn'⟩ := exists_decl ho hb
    obtain ⟨htyped', hslot'⟩ := Store.Sound.isTyped_of_published hpub ho'
    rw [hn'] at htyped' hslot'
    exact ⟨b, hb, htyped', (hslot _ (by rw [hn]; rfl)).symm.trans (heq.trans (hslot' _ rfl))⟩
  · have hfree := (hτ.node o ho).2
    rw [hn] at hfree
    have hget := hpub.get?_extend hsorted (mem_freeNames.2 ⟨n, u, o, ho, hn⟩)
    rw [← hfree, Option.map_eq_some_iff] at hget
    obtain ⟨T, hT, heq⟩ := hget
    exact ⟨T, hT, (hslot _ (by rw [hn]; rfl)).symm.trans heq.symm⟩
  · obtain ⟨y, hy, hT⟩ := Option.bind_eq_some_iff.1 hT
    have hmentions : τ.Mentions env f x := by
      refine .inl ⟨y, List.mem_filterMap.2 ⟨o, ho, hy⟩, ?_⟩
      rwa [hslot y hy, Store.typing_slot hT, TypeTree.named, TypeTree.givens_mapData]
    rw [Environment.get?_extend hsorted]
    cases henv : env.get? x with
    | none =>
      obtain ⟨U, hU, heq⟩ := Option.map_eq_some_iff.1 ((hpub.inferred x _).2 ⟨henv, .inr ⟨hmentions, rfl⟩⟩)
      exact ⟨U, by rw [hU, Option.some_or], heq⟩
    | some U =>
      refine ⟨U, ?_, (hw.declared τ hτ x hmentions).1 U henv⟩
      rw [Option.or_eq_some_iff, Option.eq_none_iff_forall_ne_some]
      refine .inr ⟨fun t ht => ?_, rfl⟩
      rw [hpub.env_get?_eq_none ht] at henv
      cases henv

end SetLang
