import SetLang.Proofs.Instantiation
import SetLang.Proofs.Rebuild.Occurrences
import SetLang.Proofs.Rebuild.Typed

/-! Instantiation keeps types. Where names are put for declarations of their types, what is made of a predicate is
known in every environment that knows the names and what the predicate needs. -/

namespace SetLang

variable {s t : Store} {env env' : Environment} {F : Factory} {p q : Pred} {ds : List Declaration} {es : List Expr}

/-- A free identifier that is known and has the type of the declaration. -/
structure Expr.StandsFor (F : Factory) (s : Store) (env : Environment) (b : Declaration) (e : Expr) : Prop where
  free : ∃ n x u, e = .free n x u
  factory : e.factory = F
  known : Occurrence.Known s env ⟨[], .expr e⟩
  type : s.typing.ofExpr e = s.typing.ofDecl b

namespace Instantiated

def KnownBelow (s : Store) (env : Environment) (ds : List Declaration) (p : Pred) (d : Nat) : Set Formula :=
  {g | g ∈ (Formula.pred p).nodes ∧
    ∃ bs : List Declaration, bs.length = d ∧ ∀ o ∈ g.occurrencesIn (bs ++ ds.reverse), o.Known s env}

theorem closedBelow : Rebuilder.ClosedBelow (KnownBelow s env ds p) := by
  rintro d g ⟨hg, bs, rfl, hknown⟩ k hk
  refine ⟨Formula.nodes_closed hg (g.parts_subset_components hk), g.declared.reverse ++ bs, ?_, fun o ho => ?_⟩
  · rw [List.length_append, List.length_reverse, Nat.add_comm]
  · have hbelow : ∀ o ∈ g.occurrencesBelow (bs ++ ds.reverse) k, o.Known s env := fun o ho =>
      hknown o (Formula.mem_occurrencesIn_of_mem_parts hk ho)
    rw [List.append_assoc] at ho
    cases k with
    | decl b =>
      obtain rfl := List.mem_singleton.1 ho
      exact (hbelow _ List.mem_cons_self).decl
    | _ => exact hbelow o ho

theorem known_of_mem {d : Nat} {g : Formula} (hg : g ∈ KnownBelow s env ds p d) :
    ∃ bs : List Declaration, bs.length = d ∧ Occurrence.Known s env ⟨bs ++ ds.reverse, g⟩ := by
  obtain ⟨-, bs, hlen, hknown⟩ := hg
  exact ⟨bs, hlen, hknown _ (g.mem_occurrencesIn_self _)⟩

theorem respects_retyped (hes : List.Forall₂ (Expr.StandsFor F s env') ds es)
    (hformed : ∀ g ∈ (Formula.pred p).nodes, g.Formed) :
    (Rebuilder.instantiation F es).Respects s (KnownBelow s env ds p) fun t _ => Formula.Retyped F s t := by
  have hsettled : ∀ {d}, ∀ g ∈ KnownBelow s env ds p d, g.Settled s := fun g hg => by
    obtain ⟨_, -, hknown⟩ := known_of_mem hg
    exact hknown.settled
  refine Rebuilder.respects_retyped rfl (fun _ _ _ _ _ => rfl) (fun d g hg => ⟨hformed g hg.1, hsettled g hg⟩)
    (fun n x u t d hx _ => ?_) fun n i u t d hi ht => ?_
  · exact Build.succeeds_retyped (.free · x _) (fun _ => rfl) (fun _ => trivial) (fun _ => rfl) trivial
      (hsettled _ hx)
  · change Succeeds (ite (i < d) _ _) t _
    split_ifs with hlt
    · exact Build.succeeds_retyped (.bound · i _) (fun _ => rfl) (fun _ => trivial) (fun _ => rfl) trivial
        (hsettled _ hi)
    · obtain ⟨bs, rfl, hknown⟩ := known_of_mem hi
      obtain ⟨b, hb, -, hslot⟩ := hknown.bound n i u rfl
      rw [List.getElem?_append_right (Nat.not_lt.1 hlt)] at hb
      obtain ⟨e, he, hstands⟩ := forall₂_exists_getElem? (List.forall₂_reverse_iff.2 hes) hb
      rw [he]
      have hretyped : (Formula.expr (.bound n i u)).Retyped F s s (.expr e) :=
        ⟨by rintro _ ⟨⟩; exact hstands.factory, hstands.known.settled,
          .of_typing (hsettled _ hi).typed hstands.known.settled.typed rfl rfl (hstands.type.trans hslot.symm)⟩
      exact Succeeds.pure ⟨.refl t, hretyped.mono ht.later⟩

/-- A node and what has become of it: of the same kind, or a name that was put, and of the same type. -/
def Goes (s : Store) (env : Environment) (F : Factory) (ds : List Declaration) (es : List Expr) (p : Pred)
    (t : Store) (d : Nat) (g g' : Formula) : Prop :=
  Formula.Replaced (Instantiated es) F (KnownBelow s env ds p) s t d g g' ∧ g.Retyped F s t g'

theorem keepsIdentifiers (hes : ∀ e ∈ es, ∃ n x u, e = .free n x u) :
    KeepsIdentifiers (Goes s env F ds es p t) := by
  intro d g g' hid hgoes
  cases g with
  | expr e =>
    obtain ⟨e', rfl, hleaf⟩ := hgoes.1.leaf e rfl hid
    cases hleaf with
    | replaced he =>
      obtain ⟨n, x, u, rfl⟩ := hes e' (List.mem_reverse.1 (List.mem_of_getElem? he))
      trivial
    | _ => trivial
  | _ => exact hid.elim

/-- Bound identifiers go to the declaration that theirs has become. -/
theorem exists_decl_of_bound (hes : List.Forall₂ (Expr.StandsFor F s env') ds es) {bs bs' : List Declaration}
    (hbs : List.Forall₂ (fun b b' => ∃ d, Goes s env F ds es p t d (.decl b) (.decl b')) bs bs') {e : Expr}
    (he : Occurrence.Known s env ⟨bs ++ ds.reverse, .expr e⟩) {d : Nat} (hd : bs.length = d) {n' : Node} {i' : Nat}
    {u' : Option Ty} (h : Instantiated es d e (.bound n' i' u')) :
    ∃ b', bs'[i']? = some b' ∧ (Formula.decl b').isTyped t ∧ t.typing.ofDecl b' = s.typing.ofExpr e := by
  cases h with
  | inner hlt =>
    obtain ⟨b, hb, htyped, heq⟩ := he.bound _ _ _ rfl
    rw [List.getElem?_append_left (hd ▸ hlt)] at hb
    obtain ⟨b', hb', _, -, hdecl⟩ := forall₂_exists_getElem? hbs hb
    exact ⟨b', hb', hdecl.settled.typed, (hdecl.type.typing htyped rfl rfl).trans heq.symm⟩
  | replaced hput =>
    obtain ⟨b, -, hstands⟩ := forall₂_exists_getElem? (List.forall₂_reverse_iff.2 hes).flip hput
    obtain ⟨_, _, _, ⟨⟩⟩ := hstands.free
  | @outer j =>
    -- a known node has no identifiers of declarations further out
    obtain ⟨b, hb, -, -⟩ := he.bound _ _ _ rfl
    have hlt := (List.getElem?_eq_some_iff.1 hb).1
    rw [List.length_append, List.length_reverse, hes.length_eq, hd] at hlt
    omega

theorem exists_type_of_free (hes : List.Forall₂ (Expr.StandsFor F s env') ds es)
    (henv : ∀ x T, env.get? x = some T → env'.get? x = some T) (hlater : s.Later t)
    {sc : List Declaration} {e : Expr} (he : Occurrence.Known s env ⟨sc, .expr e⟩)
    {d : Nat} {n' : Node} {x : String} {u' : Option Ty}
    (h : Instantiated es d e (.free n' x u')) (htype : t.typing.slot n'.slot = s.typing.ofExpr e) :
    ∃ T, env'.get? x = some T ∧ t.typing.slot n'.slot = T.named := by
  cases h with
  | free =>
    obtain ⟨T, hT, heq⟩ := he.free _ _ _ rfl
    exact ⟨T, henv _ _ hT, htype.trans heq⟩
  | replaced hput =>
    obtain ⟨b, -, hstands⟩ := forall₂_exists_getElem? (List.forall₂_reverse_iff.2 hes).flip hput
    exact (hstands.known.mono hlater).free _ _ _ rfl

theorem known_of_rebuilt (hes : List.Forall₂ (Expr.StandsFor F s env') ds es)
    (henv : ∀ x T, env.get? x = some T → env'.get? x = some T) (hlater : s.Later t) {o o' : Occurrence}
    (ho : o.Known s env) (h : Occurrence.Rebuilt (Goes s env F ds es p t) 0 ds.reverse [] o o') :
    o'.Known t env' := by
  cases h with
  | @intro bs bs' d g g' hbs hgoes hid =>
    obtain ⟨hreplaced, hretyped⟩ := hgoes
    have hslot : ∀ {x x'}, g.slot? = some x → g'.slot? = some x' → t.typing.slot x' = s.typing.slot x :=
      hretyped.type.typing ho.settled.typed
    refine ⟨hretyped.settled, ?_, ?_, ?_⟩
    · rintro n' i' u' rfl
      obtain ⟨hgid, rfl⟩ := hid trivial
      cases g with
      | expr e =>
        obtain ⟨_, ⟨⟩, hleaf⟩ := hreplaced.leaf e rfl hgid
        obtain ⟨b', hb', htyped, heq⟩ := exists_decl_of_bound hes hbs ho (Nat.zero_add _).symm hleaf
        exact ⟨b', by rwa [List.append_nil], htyped, (hslot rfl rfl).trans heq.symm⟩
      | _ => exact hgid.elim
    · rintro n' x u' rfl
      obtain ⟨hgid, -⟩ := hid trivial
      cases g with
      | expr e =>
        obtain ⟨_, ⟨⟩, hleaf⟩ := hreplaced.leaf e rfl hgid
        exact exists_type_of_free hes henv hlater ho hleaf (hslot rfl rfl)
      | _ => exact hgid.elim
    · intro T hT x hx
      obtain ⟨U, hU, hgivens⟩ := hretyped.type.exists_type? hT
      obtain ⟨V, hV, heq⟩ := ho.givens U hU x (hgivens ▸ hx)
      exact ⟨V, henv _ _ hV, heq⟩

theorem freeName_of_rebuilt {o o' : Occurrence} {n' : Node} {x : String} {u' : Option Ty}
    (h : Occurrence.Rebuilt (Goes s env F ds es p t) 0 ds.reverse [] o o') (hn : o'.node = .expr (.free n' x u')) :
    (∃ n u, o.node = .expr (.free n x u)) ∨ .free n' x u' ∈ es := by
  cases h with
  | @intro bs bs' d g g' _ hgoes hid =>
    subst hn
    obtain ⟨hgid, -⟩ := hid trivial
    cases g with
    | expr e =>
      obtain ⟨_, ⟨⟩, hleaf⟩ := hgoes.1.leaf e rfl hgid
      cases hleaf with
      | free => exact .inl ⟨_, _, rfl⟩
      | replaced he => exact .inr (List.mem_reverse.1 (List.mem_of_getElem? he))
    | _ => exact hgid.elim

end Instantiated

/-- Names that are known are put for the declarations around a known predicate. -/
theorem Pred.succeeds_instantiate (hF : p.factory = F) (hp : ∀ o ∈ p.occurrences ds.reverse, o.Known s env)
    (hremakable : ∀ g ∈ (Formula.pred p).nodes, g.Remakable F s)
    (hes : List.Forall₂ (Expr.StandsFor F s env') ds es)
    (henv : ∀ x T, env.get? x = some T → env'.get? x = some T) :
    Succeeds (p.instantiate es) s fun q t => s.Later t ∧ (Formula.pred q).Known t env' ∧
      ∀ x ∈ (Formula.pred q).freeNames, x ∈ (Formula.pred p).freeNames ∨ ∃ e ∈ es, e.freeName? = some x := by
  have hfree : ∀ e ∈ es, (∃ n x u, e = .free n x u) ∧ e.factory = F := fun e he => by
    obtain ⟨b, -, hstands⟩ := forall₂_exists_right hes.flip he
    exact ⟨hstands.free, hstands.factory⟩
  have hretyped : (Rebuilder.instantiation F es).Respects s (Instantiated.KnownBelow s env ds p)
      fun t _ => Formula.Retyped F s t :=
    Instantiated.respects_retyped hes fun g hg => (hremakable g hg).formed
  have hrespects := (Rebuilder.respects_instantiation fun e he => (hfree e he).2).and hretyped
  refine Succeeds.bind_run (run_get s) ?_
  rw [hF]
  refine (Rebuilder.succeeds_pred hrespects Instantiated.closedBelow (fun hg => (hremakable _ hg.1).makable) p 0 s
    (.refl s) ⟨Formula.mem_nodes_self _, [], rfl, hp⟩).mono fun q t h => ?_
  have hgoes := Pred.Rebuilt.occurrences (Instantiated.keepsIdentifiers fun e he => (hfree e he).1)
    (h.2 t (.refl t)) ds.reverse []
  refine ⟨h.1.later, fun o' ho' => ?_, fun x hx => ?_⟩
  · obtain ⟨o, ho, hrebuilt⟩ := forall₂_exists_right hgoes.flip ho'
    exact Instantiated.known_of_rebuilt hes henv h.1.later (hp o ho) hrebuilt
  · obtain ⟨n', u', o', ho', hn⟩ := Formula.mem_freeNames.1 hx
    obtain ⟨o, ho, hrebuilt⟩ := forall₂_exists_right hgoes.flip ho'
    obtain ⟨n, u, hsource⟩ | hin := Instantiated.freeName_of_rebuilt hrebuilt hn
    · obtain ⟨o₁, ho₁, heq⟩ := p.within (Formula.closedSet_nodes _) ds.reverse (Formula.mem_nodes_self _) o ho
      exact .inl (Formula.mem_freeNames.2 ⟨n, u, o₁, ho₁, heq.trans hsource⟩)
    · exact .inr ⟨_, hin, rfl⟩

end SetLang
