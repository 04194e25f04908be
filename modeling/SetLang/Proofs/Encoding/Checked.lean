import SetLang.Proofs.Encoding.Injective
import SetLang.Proofs.Encoding.Target
import SetLang.Proofs.Rebuild.Occurrences
import SetLang.Proofs.Session.Known

/-! Checks of encoded formulas in the environment of the target. All names in an encoded predicate have the types that
this environment declares, and no given type in it is unknown there, so that a check succeeds and finds nothing new. -/

namespace SetLang

variable {D V W : Type} {env E : Environment} {ds : List Datatype} {s : Store} {S S' : EncodingState}
  {held : Set Formula} {source : Factory} {T t : Ty} {x : String} {e : Expr} {es fs : List Expr} {g g' : Formula}
  {L : Expr → Prop} {sc sc' : List Declaration} {o : Occurrence} {n : Node}

/-- The given types in a type that the operands leave are those of their types, if the rule names none. -/
theorem Scheme.Holds.grounds {σ : Scheme} {gs : List GroundTy} {g : GroundTy} (h : σ.Holds gs (some g))
    (hσ : σ.Determines gs.length) (hresult : ∀ r ∈ σ.result, r.givens = []) (hgs : ∀ g ∈ gs, env.Grounds g) :
    env.Grounds g := by
  obtain ⟨ρ, hmatches, hholds⟩ := h
  obtain ⟨r, hr, hleaves⟩ := hσ
  obtain rfl := hholds g r rfl hr
  refine Environment.Grounds.subst (Environment.grounds_named.2 fun x hx => ?_) fun v hv => ?_
  · rw [hresult r hr] at hx
    cases hx
  · rw [TypeTree.named, TypeTree.leaves_mapData] at hv
    obtain ⟨i, hi, p, hp, hvp⟩ := hleaves v hv
    have hget := List.getElem?_eq_getElem hi
    have hground := hgs _ (List.getElem_mem hi)
    rw [hmatches i _ p hget hp] at hground
    refine fun x hx => hground x (TypeTree.mem_givens_subst.2 (.inr ⟨v, ?_, hx⟩))
    rwa [TypeTree.named, TypeTree.leaves_mapData]

theorem Expr.givens_result {e : Expr} (h : (Formula.expr e).extension? = none) :
    ∀ r ∈ e.scheme.result, r.givens = [] := by
  cases e with
  | binary n op a b => cases op <;> simp [scheme, BinaryOp.scheme, TypeTree.relation, TypeTree.givens]
  | unary n op a => cases op <;> simp [scheme, UnaryOp.scheme, TypeTree.relation, TypeTree.givens]
  | assoc n op es => cases op <;> simp [scheme, AssocOp.scheme, TypeTree.relation, TypeTree.givens]
  | atom n a t => cases a <;> simp [scheme, Atom.scheme, TypeTree.givens]
  | quantified n op ds p e => cases op <;> simp [scheme, SetBinder.scheme, TypeTree.givens]
  | set | bool => simp [scheme, TypeTree.givens]
  | bound | free => simp [scheme, Scheme.any]
  | extended n ext es ps t => cases h

/-- The given types in the type of a function or relation are those in the types of its arguments and values. -/
theorem BinaryOp.grounds_function {op : BinaryOp} (hop : op = .funImage ∨ op = .relImage) {F A B : GroundTy}
    (h : op.scheme.Holds [F, A] (some B)) (hA : env.Grounds A) (hB : env.Grounds B) : env.Grounds F := by
  obtain ⟨ρ, hmatches, hresult⟩ := h
  have hF := hmatches 0 F _ rfl (by rcases hop with rfl | rfl <;> rfl : op.scheme.pattern? 0 =
    some (TypeTree.relation (.leaf 0) (.leaf 1)))
  rcases hop with rfl | rfl <;>
  · obtain rfl := hmatches 1 A _ rfl rfl
    obtain rfl := hresult B _ rfl rfl
    rw [hF]
    exact Environment.grounds_product.2 ⟨hA, hB⟩

namespace Occurrence.Known

theorem grounds (h : o.Known s env) (hT : o.node.type? s = some T) : env.Grounds T := by
  intro x hx
  obtain ⟨U, hU, hnamed⟩ := h.givens T hT x hx
  rw [hU, ← TypeTree.Plain.eq_of_named_eq (t := Ty.givenSet x) rfl hnamed.symm]

theorem of_grounds (h : o.node.Settled s) (hid : ¬ o.node.IsIdentifier)
    (hT : ∀ T, o.node.type? s = some T → env.Grounds T) : o.Known s env :=
  .of_settled h hid fun T hT' x hx => ⟨_, hT T hT' x hx, rfl⟩

/-- A free identifier of the type that the environment has for its name. -/
theorem of_free (h : (Formula.expr (.free n x (some t))).Settled s) (hget : env.get? x = some t)
    (hT : ∀ T, (Formula.expr (.free n x (some t))).type? s = some T → env.Grounds T) :
    Occurrence.Known s env ⟨sc, .expr (.free n x (some t))⟩ where
  settled := h
  bound _ _ _ := nofun
  free n x u hn := by
    cases hn
    exact ⟨t, hget, h.obeys.2 t rfl⟩
  givens T hT' x hx := ⟨_, hT T hT' x hx, rfl⟩

end Occurrence.Known

namespace Expr

theorem occurrences_of_operands (h : e.children = e.operands.map .expr) (sc : List Declaration) :
    e.occurrences sc = ⟨sc, .expr e⟩ :: e.operands.flatMap (·.occurrences sc) := by
  have hdeclared : (Formula.expr e).declared = [] := by
    cases e <;> first | rfl | skip
    rename_i ds p e
    cases ds <;> simp [children, operands] at h
  have heq := (Formula.expr e).occurrencesIn_eq sc
  rw [Formula.parts, h, List.flatMap_map] at heq
  refine heq.trans (congrArg _ (List.flatMap_congr fun a _ => ?_))
  simp [Formula.occurrencesBelow, hdeclared, Formula.occurrencesIn]

theorem grounds_typing (h : (Formula.expr e).isTyped s) (hT : ∀ T, e.type? s = some T → env.Grounds T) :
    env.Grounds (s.typing.ofExpr e) := by
  obtain ⟨T, hT'⟩ := Formula.exists_type? h rfl
  rw [Typing.ofExpr, Store.typing_slot hT']
  exact Environment.grounds_named.2 (hT T hT')

theorem Composed.known (h : e.Composed L) (hs : ∀ o ∈ e.occurrences sc, o.node.Settled s)
    (hL : ∀ a, L a → (∀ o ∈ a.occurrences sc, o.node.Settled s) → ∀ o ∈ a.occurrences sc, o.Known s env) :
    ∀ o ∈ e.occurrences sc, o.Known s env := by
  induction h with
  | leaf h => exact hL _ h hs
  | @node e hcore hchildren hexplicit hdetermines _ ih =>
    rw [occurrences_of_operands hchildren, List.forall_mem_cons, List.forall_mem_flatMap] at hs ⊢
    have hoperands : ∀ a ∈ e.operands, ∀ o ∈ a.occurrences sc, o.Known s env := fun a ha => ih a ha (hs.2 a ha)
    refine ⟨.of_grounds hs.1 (fun hid => ?_) fun T hT => ?_, hoperands⟩
    · obtain ⟨r, hr, -⟩ := hdetermines
      cases e <;> first | exact hid | cases hr
    · refine Environment.grounds_named.1 ?_
      rw [← Store.typing_slot hT]
      refine hs.1.obeys.1.grounds (by rwa [List.length_map]) (givens_result hcore) ?_
      refine List.forall_mem_map.2 fun a ha => ?_
      have hknown := hoperands a ha _ (a.mem_occurrences_self sc)
      exact grounds_typing hknown.settled.typed fun T hT => hknown.grounds hT

/-- A value or an image of known arguments is known, if the given types in its type are known. -/
theorem Applied.known (h : e.Applied fs es) (hs : ∀ o ∈ e.occurrences sc, o.node.Settled s)
    (hfs : ∀ a ∈ fs, ∃ n x T, a = .free n x (some T) ∧ env.get? x = some T)
    (hes : ∀ a ∈ es, (∀ o ∈ a.occurrences sc, o.node.Settled s) → ∀ o ∈ a.occurrences sc, o.Known s env)
    (hT : ∀ T, e.type? s = some T → env.Grounds T) : ∀ o ∈ e.occurrences sc, o.Known s env := by
  cases h with
  | constant he =>
    obtain ⟨n, x, T, rfl, hget⟩ := hfs _ he
    exact List.forall_mem_singleton.2 (.of_free (hs _ (List.mem_singleton_self _)) hget hT)
  | @applied n op f tuple hop hf htuple =>
    rw [occurrences, List.forall_mem_cons, List.forall_mem_append] at hs ⊢
    obtain ⟨m, x, U, rfl, hget⟩ := hfs _ hf
    have htuple := htuple.known hs.2.2 hes
    refine ⟨.of_grounds hs.1 id hT, List.forall_mem_singleton.2 (.of_free ?_ hget fun F hF => ?_), htuple⟩
    · exact hs.2.1 _ (List.mem_singleton_self _)
    · -- the rule of the application leaves no other given type in the type of the function
      have hknown := htuple _ (tuple.mem_occurrences_self sc)
      have harguments := grounds_typing hknown.settled.typed fun T hT => hknown.grounds hT
      have hfunction := BinaryOp.grounds_function hop hs.1.obeys.1 harguments (grounds_typing hs.1.typed hT)
      rw [Typing.ofExpr, Store.typing_slot hF] at hfunction
      exact Environment.grounds_named.1 hfunction

end Expr

namespace Formula

theorem occurrencesBelow_eq {k : Formula} (h : ∀ b, k ≠ .decl b) :
    g.occurrencesBelow sc k = k.occurrencesIn (g.declared.reverse ++ sc) := by
  cases k with
  | decl b => exact absurd rfl (h b)
  | _ => rfl

theorem forall₂_decls_of_append {R : Formula → Formula → Prop} {bs bs' : List Declaration} {gs gs' : List Formula}
    (h : List.Forall₂ R (bs.map .decl ++ gs) (bs'.map .decl ++ gs')) (hlength : gs.length = gs'.length) :
    List.Forall₂ (fun b b' => R (.decl b) (.decl b')) bs bs' := by
  have hall := h.length_eq
  rw [List.length_append, List.length_append, hlength, Nat.add_right_cancel_iff] at hall
  have hdecls := List.forall₂_take_append _ _ _ h
  rwa [← hall, List.take_left, List.forall₂_map_left_iff, List.forall₂_map_right_iff] at hdecls

theorem Alike.declared {R : Formula → Formula → Prop} (h : g.Alike g')
    (hR : List.Forall₂ R g.components g'.components) :
    List.Forall₂ (fun b b' => R (.decl b) (.decl b')) g.declared g'.declared := by
  cases g <;> cases g' <;> try exact h.elim
  · rename_i e e'
    cases e <;> cases e' <;> first | exact h.elim | exact .nil | exact forall₂_decls_of_append hR rfl
  · rename_i p p'
    cases p <;> cases p' <;> first | exact h.elim | exact .nil | exact forall₂_decls_of_append hR rfl
  · exact .nil

theorem Alike.parts (h : g.Alike g') : g.components = g.parts ∧ g'.components = g'.parts := by
  cases g <;> cases g' <;> first | exact ⟨rfl, rfl⟩ | exact h.elim

theorem Alike.slot?_eq_none (h : g.Alike g') (hslot : g.slot? = none) : g'.slot? = none := by
  cases g <;> cases g' <;> first | rfl | exact h.elim | cases hslot

theorem Alike.of_bound {i : Nat} {u : Option Ty} (h : g.Alike (.expr (.bound n i u))) :
    ∃ m v, g = .expr (.bound m i v) := by
  cases g with
  | expr e =>
    cases e <;> try exact h.elim
    cases h
    exact ⟨_, _, rfl⟩
  | _ => exact h.elim

theorem Alike.of_free {u : Option Ty} (h : g.Alike (.expr (.free n x u))) : ∃ m v, g = .expr (.free m x v) := by
  cases g with
  | expr e =>
    cases e <;> try exact h.elim
    cases h
    exact ⟨_, _, rfl⟩
  | _ => exact h.elim

theorem Alike.decl_or {k k' : Formula} (h : k.Alike k') :
    (∃ b b', k = .decl b ∧ k' = .decl b') ∨ (∀ b, k ≠ .decl b) ∧ ∀ b, k' ≠ .decl b := by
  cases k <;> cases k' <;> first | exact h.elim | exact .inl ⟨_, _, rfl, rfl⟩ | exact .inr ⟨nofun, nofun⟩

namespace Became

theorem image (h : g.Became ds s S g') (hT : g.type? s = some T) :
    ∃ t, Ty.image? S.encoding.look T = some t ∧ g'.type? S.store = some t := by
  obtain ⟨x, hx, hT⟩ := Option.bind_eq_some_iff.1 hT
  obtain ⟨U, t, hU, -, ht, ht'⟩ := h.type x hx
  obtain rfl := Option.some_inj.1 (hT.symm.trans hU)
  exact ⟨t, ht, ht'⟩

theorem slot_eq (h : g.Became ds s S g') (hT : g.type? s = some T) {y z : Nat} (hy : g.slot? = some y)
    (hz : g'.slot? = some z) : S.store.typing.slot z = S.encoding.groundImage (s.typing.slot y) := by
  obtain ⟨t, ht, ht'⟩ := h.image hT
  rw [type?, hy] at hT
  rw [type?, hz] at ht'
  rw [Store.typing_slot hT, Store.typing_slot ht', Encoding.groundImage_named ht]

/-- What has become of a known node is known in the environment of the target. -/
theorem known (h : g.Became ds s S g') (halike : g.Alike g') (hE : S.Declares E)
    (hsc : List.Forall₂ (fun b b' => (decl b).Became ds s S (decl b')) sc sc')
    (hk : Occurrence.Known s S.encoding.env ⟨sc, g⟩) (hs : g'.Settled S.store) :
    Occurrence.Known S.store E ⟨sc', g'⟩ where
  settled := hs
  bound n i u hn := by
    obtain rfl : g' = _ := hn
    obtain ⟨m, v, rfl⟩ := halike.of_bound
    obtain ⟨b, hb, htyped, heq⟩ := hk.bound m i v rfl
    obtain ⟨b', hb', hbecame⟩ := forall₂_exists_getElem? hsc hb
    obtain ⟨T, hT⟩ := exists_type? hk.settled.typed rfl
    obtain ⟨U, hU⟩ := exists_type? htyped rfl
    obtain ⟨t, -, ht⟩ := hbecame.image hU
    refine ⟨b', hb', Option.isSome_of_eq_some ht, (h.slot_eq hT rfl rfl).trans ?_⟩
    exact (congrArg _ heq).trans (hbecame.slot_eq hU rfl rfl).symm
  free n x u hn := by
    obtain rfl : g' = _ := hn
    obtain ⟨m, v, rfl⟩ := halike.of_free
    obtain ⟨U, hU, heq⟩ := hk.free m x v rfl
    obtain ⟨T, hT⟩ := exists_type? hk.settled.typed rfl
    obtain ⟨t, ht, hget⟩ := hE.encoded x U hU
    exact ⟨t, hget, (h.slot_eq hT rfl rfl).trans ((congrArg _ heq).trans (Encoding.groundImage_named ht))⟩
  givens t ht x hx := by
    cases hslot : g.slot? with
    | none => exact (Option.some_ne_none t (ht.symm.trans (by rw [type?, halike.slot?_eq_none hslot]; rfl))).elim
    | some y =>
      obtain ⟨T, hT⟩ := exists_type? hk.settled.typed hslot
      have hT : g.type? s = some T := Option.bind_eq_some_iff.2 ⟨y, hslot, hT⟩
      obtain ⟨t', himage, ht'⟩ := h.image hT
      obtain rfl := Option.some_inj.1 (ht.symm.trans ht')
      exact ⟨_, hE.grounds_image (hk.grounds hT) himage x hx, rfl⟩

end Became

namespace Traced

theorem decl_or (h : g.Traced ds s S g') :
    (∃ b b', g = .decl b ∧ g' = .decl b') ∨ (∀ b, g ≠ .decl b) ∧ ∀ b, g' ≠ .decl b := by
  cases h with
  | node _ halike _ _ => exact halike.decl_or
  | replaced _ _ _ _ _ => exact .inr ⟨nofun, nofun⟩

/-- What has become of a known formula is known in the environment of the target. -/
theorem known (h : g.Traced ds s S g') (hE : S.Declares E)
    (hsc : List.Forall₂ (fun b b' => (decl b).Became ds s S (decl b')) sc sc')
    (hk : ∀ o ∈ g.occurrencesIn sc, o.Known s S.encoding.env)
    (hs : ∀ o ∈ g'.occurrencesIn sc', o.node.Settled S.store) : ∀ o ∈ g'.occurrencesIn sc', o.Known S.store E := by
  -- on what has become of the nodes: a binder puts declarations that go with each other into both scopes
  induction h generalizing sc sc' with
  | @node R g g' hbecame halike hR htraced ih =>
    have hdeclared := (halike.declared hR).imp fun b b' hb => (htraced _ _ hb).became
    rw [halike.parts.1, halike.parts.2] at hR
    rw [occurrencesIn_eq, List.forall_mem_cons, List.forall_mem_flatMap] at hk hs ⊢
    refine ⟨hbecame.known halike hE hsc hk.1 hs.1, fun k' hk' => ?_⟩
    obtain ⟨k, hkmem, hkk'⟩ := forall₂_exists_right hR.flip hk'
    have hbelow := hk.2 k hkmem
    have hsettled := hs.2 k' hk'
    obtain ⟨b, b', rfl, rfl⟩ | ⟨hk, hk'⟩ := (htraced k k' hkk').decl_or
    · -- declarations stand in the scope of the formula that has them
      exact ih _ _ hkk' hsc hbelow hsettled
    · rw [occurrencesBelow_eq hk] at hbelow
      rw [occurrencesBelow_eq hk'] at hsettled ⊢
      exact ih k k' hkk' (List.rel_append (List.forall₂_reverse_iff.2 hdeclared) hsc) hbelow hsettled
  | @replaced R n ext es es' t e' r hbecame hes htraced hr happlied ih =>
    rw [occurrencesIn_eq, List.forall_mem_cons, List.forall_mem_flatMap] at hk
    refine happlied.known hs (fun a ha => ?_) (fun a' ha' hsettled => ?_) fun t ht => ?_
    · obtain ⟨m, x, T, rfl, hT⟩ := hE.accounts r hr a ha
      exact ⟨m, x, T, rfl, hE.given x T hT⟩
    · obtain ⟨a, ha, hR⟩ := forall₂_exists_right hes.flip ha'
      exact ih a a' hR hsc (hk.2 _ (List.mem_append_left _ (List.mem_map_of_mem ha))) hsettled
    · obtain ⟨T, hT⟩ := exists_type? hk.1.settled.typed rfl
      obtain ⟨t', himage, ht'⟩ := hbecame.image hT
      obtain rfl := Option.some_inj.1 (ht.symm.trans ht')
      exact hE.grounds_image (hk.1.grounds hT) himage

end Traced
end Formula

namespace EncodingState

/-- A predicate whose identifiers and given types the environment of the encoding knows is encoded to one that checks
in the environment of the target. The check finds nothing new, whenever it is made. -/
theorem ReachedOver.checks_encoded {p : Pred} (h : ReachedOver source S held) (hp : .pred p ∈ held)
    (hover : (Formula.pred p).Over source.datatypes S.store) (hknown : (Formula.pred p).Known S.store S.encoding.env)
    (hsorted : S.encoding.env.Sorted) (hsup : ∀ e ∈ S.encoding.env.entries, e.2.Supported source.datatypes) :
    ∃ q S₁, (Encode.pred p).run S = (.ok q, S₁) ∧ ∀ S₂ held₂, ReachedOver source S₂ held₂ → S₁.Later S₂ →
      .pred q ∈ held₂ → ∃ E S₃, Encode.targetEnvironment.run S₂ = (.ok E, S₃) ∧
        S₃.store.checkPred E q = .ok (.empty, S₃.store) := by
  have hcoherent := h.reached.coherent_of_over h.over
  obtain ⟨q, S₁, hrun, hk₁, htraced⟩ :=
    Encode.succeeds_pred hcoherent hover.typed (hover.sources h.reached.sound.1.store hp)
  refine ⟨q, S₁, hrun, fun S₂ held₂ h₂ hlater hq => ?_⟩
  have hk₂ : S₁.Continues source.datatypes S₂ :=
    ⟨hlater, h₂.reached.coherent_of_over h₂.over, fun r hr => .inr (h₂.over r hr)⟩
  have henv := (hk₁.trans hk₂).later.env
  obtain ⟨E, S₃, hrunE, hk₃, -, hE⟩ := h₂.declares (by rwa [henv]) (by rwa [henv])
  have hstays := htraced.mono hk₁.coherent hk₂
  have hsettled : ∀ o ∈ (Formula.pred q).occurrences, o.node.Settled S₃.store := fun o ho =>
    have hsound := h₂.reached.sound.1.store
    have hclean := hstays.became.clean.nodes o.node ⟨o, ho, rfl⟩
    (hsound.settled (Formula.within hsound.closed _ hq o ho) hclean.typed).mono hk₃.later.store
  have hchecks : (Formula.pred q).Known S₃.store E := by
    rw [← henv, ← hk₃.later.env] at hknown
    exact (hstays.mono hk₂.coherent hk₃).known hE .nil hknown hsettled
  exact ⟨E, S₃, hrunE, hchecks.check? rfl⟩

end EncodingState
end SetLang
