import SetLang.Proofs.Encoding.AxiomTypes
import SetLang.Proofs.Encoding.Elimination
import SetLang.Proofs.Typing.Signature
import SetLang.Proofs.Typing.Substitution

/-! Encoding of formulas without datatypes. In every state of an encoding such a formula is copied into the target:
the encoding does no more on it than a construction does, so that it gains neither representations nor names. -/

namespace SetLang

variable {f : Factory} {s t : Store} {S : EncodingState} {held : Set Formula} {p : Pred}

/-- A node without datatypes: its type applies none, and its extension, if it has one, is none of theirs, neither
itself nor the one that a language has under its id. -/
structure Formula.Plain (l : Language) (s : Store) (g : Formula) : Prop where
  type : ∀ T, g.type? s = some T → T.Plain
  extension : ∀ ext, g.extension? = some ext →
    ext.role? = none ∧ ∀ e ∈ l.extensions, e.id = ext.id → e.role? = none

theorem rel_imp {α β : Type} {R R' : α → β → Prop} {a : Option α} {b : Option β} (h : Option.Rel R a b)
    (hR : ∀ x y, a = some x → R x y → R' x y) : Option.Rel R' a b := by
  cases h with
  | some h => exact .some (hR _ _ rfl h)
  | none => exact .none

theorem Formula.KeepsType.eq_of_plain {g g' : Formula} (h : g.KeepsType s t g')
    (hplain : ∀ T, g.type? s = some T → T.Plain) : g'.type? t = g.type? s := by
  unfold KeepsType at h
  cases hT : g.type? s with
  | none => simpa [hT] using h
  | some T =>
    rw [hT, Option.map_some, Option.map_eq_some_iff] at h
    obtain ⟨U, hU, heq⟩ := h
    rw [hU, (hplain T hT).eq_of_named_eq heq.symm]

namespace Rebuilder

/-- A rebuilder of encodings that does on nodes just what one of constructions does. -/
structure Lifts (r : Rebuilder Encode) (r' : Rebuilder Build) (s : Store) (held : Set Formula) : Prop where
  factory : r.factory = r'.factory
  nodeType : ∀ e, .expr e ∈ held → r.nodeType s e = liftM (r'.nodeType s e)
  decl : ∀ b, .decl b ∈ held → r.decl s b = liftM (r'.decl s b)
  free : ∀ x o, r.free x o = liftM (r'.free x o)
  bound : ∀ i d o, r.bound i d o = liftM (r'.bound i d o)
  extended : ∀ n ext es ps o, .expr (.extended n ext es ps o) ∈ held → ∀ es' ps' o',
    r.extended (.extended n ext es ps o) ext es' ps' o' = liftM (r'.extended (.extended n ext es ps o) ext es' ps' o')

namespace Lifts

variable {r : Rebuilder Encode} {r' : Rebuilder Build}

theorem decls (h : r.Lifts r' s held) {bs : List Declaration} (hbs : ∀ b ∈ bs, .decl b ∈ held) :
    r.decls s bs = liftM (r'.decls s bs) := by
  induction bs with
  | nil => rfl
  | cons b bs ih =>
    rw [List.forall_mem_cons] at hbs
    simp only [Rebuilder.decls, h.decl b hbs.1, ih hbs.2, liftM_bind, liftM_pure]

mutual

/-- The steps of the rebuilding are the same, and so are their effects. -/
theorem expr (hK : ClosedSet held) (h : r.Lifts r' s held) :
    ∀ (e : Expr) (d : Nat), .expr e ∈ held → r.expr s d e = liftM (r'.expr s d e)
  | .binary n op a b, d, he => by
    have ha := expr hK h a d (hK _ he (.expr a) List.mem_cons_self)
    have hb := expr hK h b d (hK _ he (.expr b) (List.mem_cons_of_mem _ List.mem_cons_self))
    simp only [Rebuilder.expr, h.nodeType _ he, h.factory, ha, hb, liftM_bind]
    rfl
  | .unary n op a, d, he => by
    have ha := expr hK h a d (hK _ he (.expr a) List.mem_cons_self)
    simp only [Rebuilder.expr, h.nodeType _ he, h.factory, ha, liftM_bind]
    rfl
  | .assoc n op es, d, he => by
    have hes := exprs hK h es d fun e he' => hK _ he _ (List.mem_map_of_mem he')
    simp only [Rebuilder.expr, h.nodeType _ he, h.factory, hes, liftM_bind]
    rfl
  | .atom n a o, d, he => by
    simp only [Rebuilder.expr, h.nodeType _ he, h.factory, liftM_bind]
    rfl
  | .set n es o, d, he => by
    have hes := exprs hK h es d fun e he' => hK _ he _ (List.mem_map_of_mem he')
    simp only [Rebuilder.expr, h.nodeType _ he, h.factory, hes, liftM_bind]
    rfl
  | .bool n p, d, he => by
    have hp := pred hK h p d (hK _ he (.pred p) List.mem_cons_self)
    simp only [Rebuilder.expr, h.nodeType _ he, h.factory, hp, liftM_bind]
    rfl
  | .quantified n op bs p e, d, he => by
    have hbs := h.decls fun b hb => hK _ he _ (List.mem_append_left _ (List.mem_map_of_mem hb))
    have hp := pred hK h p (d + bs.length) (hK _ he (.pred p) (List.mem_append_right _ List.mem_cons_self))
    have hbody := expr hK h e (d + bs.length)
      (hK _ he (.expr e) (List.mem_append_right _ (List.mem_cons_of_mem _ List.mem_cons_self)))
    simp only [Rebuilder.expr, h.nodeType _ he, h.factory, hbs, hp, hbody, liftM_bind]
    rfl
  | .bound n i o, d, he => by simp only [Rebuilder.expr, h.nodeType _ he, h.bound, liftM_bind]
  | .free n x o, d, he => by simp only [Rebuilder.expr, h.nodeType _ he, h.free, liftM_bind]
  | .extended n ext es ps o, d, he => by
    have hes := exprs hK h es d fun e he' => hK _ he _ (List.mem_append_left _ (List.mem_map_of_mem he'))
    have hps := preds hK h ps d fun p hp => hK _ he _ (List.mem_append_right _ (List.mem_map_of_mem hp))
    simp only [Rebuilder.expr, h.nodeType _ he, hes, hps, h.extended _ _ _ _ _ he, liftM_bind]

theorem exprs (hK : ClosedSet held) (h : r.Lifts r' s held) : ∀ (es : List Expr) (d : Nat),
    (∀ e ∈ es, .expr e ∈ held) → r.exprs s d es = liftM (r'.exprs s d es)
  | [], _, _ => rfl
  | e :: es, d, hes => by
    rw [List.forall_mem_cons] at hes
    simp only [Rebuilder.exprs, expr hK h e d hes.1, exprs hK h es d hes.2, liftM_bind, liftM_pure]

theorem pred (hK : ClosedSet held) (h : r.Lifts r' s held) :
    ∀ (p : Pred) (d : Nat), .pred p ∈ held → r.pred s d p = liftM (r'.pred s d p)
  | .literal n b, d, _ => by
    simp only [Rebuilder.pred, h.factory]
    rfl
  | .not n p, d, hp => by
    have hp := pred hK h p d (hK _ hp (.pred p) List.mem_cons_self)
    simp only [Rebuilder.pred, h.factory, hp, liftM_bind]
    rfl
  | .connective n op p q, d, hpq => by
    have hp := pred hK h p d (hK _ hpq (.pred p) List.mem_cons_self)
    have hq := pred hK h q d (hK _ hpq (.pred q) (List.mem_cons_of_mem _ List.mem_cons_self))
    simp only [Rebuilder.pred, h.factory, hp, hq, liftM_bind]
    rfl
  | .junction n op ps, d, hp => by
    have hps := preds hK h ps d fun q hq => hK _ hp _ (List.mem_map_of_mem hq)
    simp only [Rebuilder.pred, h.factory, hps, liftM_bind]
    rfl
  | .comparison n op a b, d, hp => by
    have ha := expr hK h a d (hK _ hp (.expr a) List.mem_cons_self)
    have hb := expr hK h b d (hK _ hp (.expr b) (List.mem_cons_of_mem _ List.mem_cons_self))
    simp only [Rebuilder.pred, h.factory, ha, hb, liftM_bind]
    rfl
  | .partition n es, d, hp => by
    have hes := exprs hK h es d fun e he => hK _ hp _ (List.mem_map_of_mem he)
    simp only [Rebuilder.pred, h.factory, hes, liftM_bind]
    rfl
  | .quantified n op bs p, d, hq => by
    have hbs := h.decls fun b hb => hK _ hq _ (List.mem_append_left _ (List.mem_map_of_mem hb))
    have hp := pred hK h p (d + bs.length) (hK _ hq (.pred p) (List.mem_append_right _ List.mem_cons_self))
    simp only [Rebuilder.pred, h.factory, hbs, hp, liftM_bind]
    rfl
  | .extended n ext es ps, d, hp => by
    have hes := exprs hK h es d fun e he => hK _ hp _ (List.mem_append_left _ (List.mem_map_of_mem he))
    have hps := preds hK h ps d fun q hq => hK _ hp _ (List.mem_append_right _ (List.mem_map_of_mem hq))
    simp only [Rebuilder.pred, h.factory, hes, hps, liftM_bind]
    rfl

theorem preds (hK : ClosedSet held) (h : r.Lifts r' s held) : ∀ (ps : List Pred) (d : Nat),
    (∀ p ∈ ps, .pred p ∈ held) → r.preds s d ps = liftM (r'.preds s d ps)
  | [], _, _ => rfl
  | p :: ps, d, hps => by
    rw [List.forall_mem_cons] at hps
    simp only [Rebuilder.preds, pred hK h p d hps.1, preds hK h ps d hps.2, liftM_bind, liftM_pure]

end

end Lifts

theorem copy_optType (o : Option Ty) : (copy f pure : Rebuilder Build).optType o = pure o := by
  cases o <;> rfl

end Rebuilder

namespace Encode

theorem type_eq_pure {T : Ty} (h : T.Plain) : type T = pure T := by
  induction T using TypeTree.ind with
  | leaf v => exact v.elim
  | boolean | given => rfl
  | power a ih => simp only [type, ih h, pure_bind]
  | product a b iha ihb =>
    obtain ⟨ha, hb⟩ := TypeTree.plain_product_iff.1 h
    simp only [type, iha ha, ihb hb, pure_bind]
  | data d as _ => exact absurd h (List.cons_ne_nil _ _)

theorem optType_eq_pure {o : Option Ty} (h : ∀ T, o = some T → T.Plain) : (rebuilder f).optType o = pure o := by
  cases o with
  | none => rfl
  | some T =>
    change some <$> type T = _
    rw [type_eq_pure (h T rfl), map_pure]

/-- On typed nodes without datatypes the encoding is a copy. -/
theorem lifts_copy {l : Language} (htyped : ∀ g ∈ held, g.isTyped s) (hplain : ∀ g ∈ held, g.Plain l s) :
    (rebuilder f).Lifts (.copy f pure) s held where
  factory := rfl
  nodeType e he := by
    obtain ⟨T, hT⟩ := Formula.exists_type? (htyped _ he) rfl
    have hT : e.type? s = some T := hT
    have htype : (rebuilder f).optType (some T) = pure (some T) :=
      optType_eq_pure fun U hU => (hplain _ he).type U (hT.trans hU)
    rw [Rebuilder.nodeType, Rebuilder.nodeType, hT, Option.some_or, htype, Rebuilder.copy_optType, liftM_pure]
  decl b hb := by
    have htype : (rebuilder f).optType (b.type? s) = pure (b.type? s) := optType_eq_pure (hplain _ hb).type
    rw [Rebuilder.decl, Rebuilder.decl, htype, Rebuilder.copy_optType, pure_bind, pure_bind]
    rfl
  free _ _ := rfl
  bound _ _ _ := rfl
  extended n ext es ps o he es' ps' o' := by
    obtain ⟨hrole, -⟩ := (hplain _ he).extension ext rfl
    simp only [rebuilder, extended, hrole]
    rfl

end Encode

/-- A typed predicate is copied into every factory that makes its nodes. The copy is equal to it and stands node by
node for it. -/
theorem Rebuilder.succeeds_copy (hs : s.Sound held) (hp : .pred p ∈ held) (htyped : p.isTyped s)
    (hmakable : ∀ g ∈ (Formula.pred p).nodes, g.Makable f s) :
    Succeeds ((copy f pure : Rebuilder Build).pred s 0 p) s fun q t => p.same q = true ∧
      ∀ is, Option.Rel (Formula.Retyped f s t) ((Formula.pred p).at? is) ((Formula.pred q).at? is) := by
  let σ : Substitution := ⟨[]⟩
  have hsettled : ∀ g ∈ (Formula.pred p).nodes, g.Formed ∧ g.Settled s := fun g hg =>
    have hg' := (Formula.pred p).nodes_subset hs.closed hp hg
    ⟨hs.formed g hg', hs.settled hg' (Session.isTyped_of_mem_nodes hs hp htyped hg)⟩
  -- to copy is to substitute nothing
  have hrespects := (σ.respects (F := f) nofun).and (σ.respects_retyped (F := f) nofun hsettled nofun)
  refine (succeeds_pred hrespects (.of_closedSet (Formula.closedSet_nodes _)) (fun hg => hmakable _ hg) p 0 s (.refl s)
    (Formula.mem_nodes_self _)).mono fun q t h => ?_
  have hrebuilt : (Formula.pred p).Rebuilt (σ.Goes f (.pred p) s t) 0 (.pred q) := h.2 t (.refl t)
  refine ⟨?_, fun is => ?_⟩
  · have hnames := Substitution.keepsNames (σ := σ) (F := f) (s := s) (t := t) (f := .pred p) fun _ _ => rfl
    exact hrebuilt.same ⟨fun d c c' hid h => hnames.leaf d c c' hid h.1, fun d b b' h => hnames.decl d b b' h.1⟩
  cases hk : (Formula.pred p).at? is with
  | some k =>
    obtain ⟨k', hk', hgoes⟩ := hrebuilt.at? hk
    rw [hk']
    exact .some hgoes.node.2
  | none =>
    cases hk' : (Formula.pred q).at? is with
    | none => exact .none
    | some k' =>
      obtain ⟨-, k, hsource, -⟩ := hrebuilt.exists_at?
        (fun _ _ _ hid h => Substitution.parts_eq_nil (fun _ _ => rfl) hid h.1) hk'
      rw [hk] at hsource
      cases hsource

namespace EncodingState

theorem Reached.makable {source : Factory} (h : Reached source S held) {g : Formula} (hg : g ∈ held)
    (hown : ∀ f', g.factory? = some f' → f' = source) (hplain : g.Plain source.toLanguage S.store) :
    g.Makable S.encoding.target S.store := by
  have hsound := h.sound.1.store
  refine ⟨hsound.formed g hg, hsound.fits g hg, fun ext hext => ?_⟩
  obtain ⟨f', hf', hfound⟩ := (hsound.formed g hg).registered hext
  obtain rfl := hown f' hf'
  rw [h.target]
  exact Language.isSome_extension?_withoutDatatypes hfound (hplain.extension ext hext).2

/-- In every state of an encoding, a typed predicate without datatypes is encoded as an equal one of the target. What
stands at a position of the one has a counterpart in the other that is typed and has the same type. The encoding keeps
its representations and gives out no names; it only takes those of the free identifiers. -/
theorem Reached.encodes_plain {source : Factory} (h : Reached source S held) (hheld : .pred p ∈ held)
    (hp : p.isTyped S.store) (hown : (Formula.pred p).MadeBy source)
    (hplain : ∀ g ∈ (Formula.pred p).nodes, g.Plain source.toLanguage S.store) :
    ∃ q S', (Encode.pred p).run S = (.ok q, S') ∧ p.same q = true ∧
      (∀ is, Option.Rel (fun g g' => g.Retyped S.encoding.target S.store S'.store g' ∧
        g'.type? S'.store = g.type? S.store) ((Formula.pred p).at? is) ((Formula.pred q).at? is)) ∧
      S'.encoding = { S.encoding with
        used := p.freeIdentifiers.filterMap Expr.freeName? ++ S.encoding.used } := by
  have hsound := h.sound.1.store
  have hsub := (Formula.pred p).nodes_subset hsound.closed hheld
  have htyped : ∀ g ∈ (Formula.pred p).nodes, g.isTyped S.store := fun g hg =>
    Session.isTyped_of_mem_nodes hsound hheld hp hg
  obtain ⟨q, t, hrun, hsame, hrel⟩ := Rebuilder.succeeds_copy hsound hheld hp fun g hg =>
    h.makable (hsub hg) (hown g hg) (hplain g hg)
  refine ⟨q, ⟨t, (S.taking p).encoding⟩, ?_, hsame, fun is => ?_, rfl⟩
  · have hrun : ((Rebuilder.copy S.encoding.target pure : Rebuilder Build).pred S.store 0 p).run
        (S.taking p).store = (.ok q, t) := hrun
    rw [Encode.run_pred hp,
      (Encode.lifts_copy htyped hplain).pred (Formula.closedSet_nodes _) p 0 (Formula.mem_nodes_self _),
      Encode.run_liftM, hrun]
    rfl
  · exact rel_imp (hrel is) fun g g' hg hretyped =>
      ⟨hretyped, hretyped.type.eq_of_plain (hplain g (Formula.mem_nodes_of_at? hg)).type⟩

end EncodingState

namespace Coin

/-- The draft of the coin with a choice and a test of values, which are no datatype's. -/
def trialDraft : LanguageDraft :=
  { draft with extensions := LanguageDraft.place Session.test (LanguageDraft.place Session.pick draft.extensions) }

def trials : Factory := ⟨⟨.v2, trialDraft.extensions, trialDraft.datatypes, ⟨[], [], [], []⟩⟩, 0⟩

def toss : Expr := .free ⟨trials, 0⟩ "x" (some .boolean)

def always : Pred := .literal ⟨trials, 0⟩ true

def choice : Expr := .extended ⟨trials, 1⟩ Session.pick [toss] [always] none

def trial : Pred := .extended ⟨trials, 1⟩ Session.test [choice] [always]

def tried : EncodingState :=
  ((do
    let _ ← Encode.type (.data coin [])
    return [] : Encode (List Formula)).run ⟨⟨#[some .boolean, some .boolean], #[true, true], 2⟩,
      ⟨trials, ⟨trials.withoutDatatypes, 1⟩, .empty, [], .empty, []⟩⟩).2

theorem assembled_trials : trials.Assembled := by
  have hcoin : draft.Drafted := .datatype (.grammar .empty (.core .v2)) rfl
  have hpick : LanguageDraft.Drafted { draft with extensions := LanguageDraft.place Session.pick draft.extensions } :=
    .register (e := Session.pick) hcoin rfl rfl
  exact ⟨trialDraft, .register (e := Session.test) hpick rfl rfl, rfl⟩

theorem reached_trial : ∃ held, EncodingState.Reached trials tried held ∧ .pred trial ∈ held := by
  obtain ⟨_, -, hfactory⟩ := Session.Moves.empty.makeFactory trials.toLanguage
  obtain ⟨held₁, -, htoss, h₁⟩ := hfactory.makeLeaf trials toss toss ⟨#[some .boolean], #[], 1⟩
    rfl trivial rfl
  obtain ⟨held₂, hsub₂, halways, h₂⟩ := h₁.makePred trials always always ⟨#[some .boolean], #[true], 1⟩
    (fun _ hg => by cases hg) trivial rfl
  obtain ⟨held₃, hsub₃, hchoice, h₃⟩ := h₂.makeExpr trials choice choice
    ⟨#[some .boolean, some .boolean], #[true], 1⟩
    (List.forall_mem_cons.2 ⟨hsub₂ htoss, List.forall_mem_singleton.2 halways⟩) (fun _ _ h => by cases h) rfl
  obtain ⟨held₄, hsub₄, htrial, h₄⟩ := h₃.makePred trials trial trial
    ⟨#[some .boolean, some .boolean], #[true, true], 1⟩
    (List.forall_mem_cons.2 ⟨hchoice, List.forall_mem_singleton.2 (hsub₃ halways)⟩) (fun _ _ h => by cases h) rfl
  have hstart : EncodingState.Reached trials _ held₄ := .start assembled_trials h₄
    (rfl : (Build.encoding trials .empty).run _ = (.ok _, _))
  exact ⟨_, hstart.step (.encode (.type (.data coin []))), .inl htrial⟩

theorem nodes_trial : ∀ g ∈ (Formula.pred trial).nodes,
    g = .pred trial ∨ g = .expr choice ∨ g = .expr toss ∨ g = .pred always := by
  rintro _ ⟨o, ho, rfl⟩
  simp only [trial, choice, toss, always, Formula.occurrences, Pred.occurrences, Expr.occurrences,
    Expr.allOccurrences, Pred.allOccurrences, List.append_nil, List.cons_append, List.nil_append,
    List.mem_cons, List.not_mem_nil, or_false] at ho
  rcases ho with rfl | rfl | rfl | rfl | rfl
  exacts [.inl rfl, .inr (.inl rfl), .inr (.inr (.inl rfl)), .inr (.inr (.inr rfl)), .inr (.inr (.inr rfl))]

/-- After the encoding was asked for the type of the coin, the test is encoded as it is, and only its free identifier
is taken note of. -/
theorem encodes_plain_trial : ∃ held q S', EncodingState.Reached trials tried held ∧ .pred trial ∈ held ∧
    trial.isTyped tried.store ∧ (Formula.pred trial).MadeBy trials ∧
    (∀ g ∈ (Formula.pred trial).nodes, g.Plain trials.toLanguage tried.store) ∧
    tried.encoding.representations ≠ [] ∧
    (Encode.pred trial).run tried = (.ok q, S') ∧ trial.same q = true ∧
    S'.encoding = { tried.encoding with
      used := trial.freeIdentifiers.filterMap Expr.freeName? ++ tried.encoding.used } := by
  obtain ⟨held, hreached, htrial⟩ := reached_trial
  have hown : (Formula.pred trial).MadeBy trials := fun g hg f' hf' => by
    obtain rfl | rfl | rfl | rfl := nodes_trial g hg <;> cases hf' <;> rfl
  have hids : ∀ ext ∈ trials.extensions, ext.role? = none →
      ext.role? = none ∧ ∀ e ∈ trials.extensions, e.id = ext.id → e.role? = none := fun ext hext hrole =>
    ⟨hrole, fun e he hid => assembled_trials.registered.unique e he ext hext hid ▸ hrole⟩
  have hplain : ∀ g ∈ (Formula.pred trial).nodes, g.Plain trials.toLanguage tried.store := by
    intro g hg
    refine ⟨fun T hT => ?_, fun ext hext => ?_⟩
    · obtain rfl | rfl | rfl | rfl := nodes_trial g hg <;> cases hT <;> rfl
    · obtain rfl | rfl | rfl | rfl := nodes_trial g hg <;> cases hext
      · exact hids _ (List.mem_of_getElem? (i := 4) rfl) rfl
      · exact hids _ (List.mem_of_getElem? (i := 3) rfl) rfl
  obtain ⟨q, S', hrun, hsame, -, hencoding⟩ := hreached.encodes_plain htrial rfl hown hplain
  exact ⟨held, q, S', hreached, htrial, rfl, hown, hplain, List.cons_ne_nil _ _, hrun, hsame, hencoding⟩

end Coin
end SetLang
