import SetLang.Proofs.Datatype.WellFormed
import SetLang.Proofs.Encoding.Coherence
import SetLang.Proofs.Encoding.Rebuild
import SetLang.Proofs.Session.Bindings

/-! Elimination of datatypes. Whatever an encoding was asked for before, a typed predicate over registered
datatypes is encoded, and what it is encoded to is typed, belongs to the target and is without datatypes. -/

namespace SetLang

variable {ds : List Datatype} {s : Store} {S S' : EncodingState} {held : Set Formula} {f : Formula}
  {e : Expr} {p : Pred}

/-- A typed formula over datatypes: its extensions are theirs, and they support all types in it. -/
structure Formula.Over (ds : List Datatype) (s : Store) (f : Formula) : Prop where
  typed : f.isTyped s
  extension : ∀ g ∈ f.nodes, ∀ ext, g.extension? = some ext → ∃ d ∈ ds, ext ∈ d.extensions
  supported : ∀ g ∈ f.nodes, ∀ T, g.type? s = some T → T.Supported ds

/-- Below a typed formula that is held all nodes are typed and obey their rules. -/
theorem Formula.Over.sources (h : f.Over ds s) (hs : s.Sound held) (hf : f ∈ held) :
    ∀ g ∈ f.nodes, g.Source ds s := by
  intro g hg
  have hheld : g ∈ held := f.nodes_subset hs.closed hf hg
  have htyped : g.isTyped s := Session.isTyped_of_mem_nodes hs hf h.typed hg
  exact ⟨htyped, (hs.typed g hheld htyped).2, hs.formed g hheld, hs.fits g hheld, h.supported g hg,
    h.extension g hg⟩

theorem Formula.Over.later {t : Store} (h : f.Over ds s) (hs : s.Sound held) (hf : f ∈ held) (k : s.Later t) :
    f.Over ds t := by
  refine ⟨isTyped_mono h.typed k, h.extension, fun g hg T hT => h.supported g hg T ?_⟩
  rwa [type?_eq_of_later (Session.isTyped_of_mem_nodes hs hf h.typed hg) k] at hT

/-- A typed predicate over datatypes: its extensions are theirs, and they support all types in it. -/
structure Pred.Over (ds : List Datatype) (s : Store) (p : Pred) : Prop where
  typed : p.isTyped s
  extension : ∀ g ∈ (Formula.pred p).nodes, ∀ ext, g.extension? = some ext →
    ∃ d ∈ ds, ext ∈ d.extensions
  supported : ∀ g ∈ (Formula.pred p).nodes, ∀ T, g.type? s = some T → T.Supported ds

theorem Pred.Over.formula (h : p.Over ds s) : (Formula.pred p).Over ds s :=
  ⟨h.typed, h.extension, h.supported⟩

/-- The names of the free identifiers of a predicate are taken. -/
def EncodingState.taking (S : EncodingState) (p : Pred) : EncodingState :=
  { S with encoding := { S.encoding with used := p.freeIdentifiers.filterMap Expr.freeName? ++ S.encoding.used } }

namespace Encode

/-- Encoding a typed predicate takes names and then rebuilds it. -/
theorem run_pred (hp : p.isTyped S.store) : (Encode.pred p).run S =
    ((rebuilder S.encoding.target).pred S.store 0 p).run (S.taking p) := by
  have hreserve : (reserve (p.freeIdentifiers.filterMap Expr.freeName?)).run S = (.ok (), S.taking p) := rfl
  rw [Encode.pred, run_bind_ok (run_store S), hp]
  exact (run_bind_ok hreserve).trans <| (run_bind_ok (run_target (S.taking p))).trans <|
    run_bind_ok (run_store (S.taking p))

theorem succeeds_expr (hS : S.Coherent ds) (hsource : ∀ g ∈ (Formula.expr e).nodes, g.Source ds S.store) :
    Succeeds (Encode.expr e) S fun e' S' => S.Continues ds S' ∧
      (Formula.expr e).Traced ds S.store S' (.expr e') := by
  unfold Encode.expr
  refine Succeeds.bind_run (run_target S) (Succeeds.bind_run (run_store S) ?_)
  exact succeeds_rebuildExpr (Formula.closedSet_nodes _) hsource e 0 S ⟨hS, .refl _, rfl⟩ (Formula.mem_nodes_self _)

theorem succeeds_pred (hS : S.Coherent ds) (hp : p.isTyped S.store)
    (hsource : ∀ g ∈ (Formula.pred p).nodes, g.Source ds S.store) :
    Succeeds (Encode.pred p) S fun q S' => S.Continues ds S' ∧
      (Formula.pred p).Traced ds S.store S' (.pred q) := by
  have hquiet : S.Quiet (S.taking p) := ⟨.refl _, rfl, rfl, rfl, ⟨_, .took rfl⟩, rfl⟩
  have hcontinues := hquiet.continues hS
  rw [Succeeds, run_pred hp]
  refine (succeeds_rebuildPred (Formula.closedSet_nodes _) hsource p 0 _ ⟨hcontinues.coherent, .refl _, rfl⟩
    (Formula.mem_nodes_self _)).mono fun q S' h => ?_
  exact ⟨hcontinues.trans h.1, h.2⟩

end Encode

/-- In every state of an encoding, a typed predicate over registered datatypes is encoded, unless a
represented instance is mistaken for one of these datatypes. The encoding belongs to the target, is typed
and is without datatypes, in nodes as in types; node by node, its types are the encodings of the types of
the predicate. -/
theorem EncodingState.Reached.encodes_pred {source : Factory} (h : Reached source S held)
    (hheld : .pred p ∈ held) (hds : ∀ d ∈ ds, d ∈ source.datatypes) (hp : p.Over ds S.store)
    (hunamb : S.encoding.Unambiguous ds) :
    ∃ q S', (Encode.pred p).run S = (.ok q, S') ∧ S'.encoding.target = S.encoding.target ∧
      (Formula.pred q).Throughout (Formula.Clean S.encoding.target S'.store) ∧
      (Formula.pred p).Encodes S.store S' (.pred q) := by
  obtain ⟨q, S', hrun, hcontinues, hq⟩ := Encode.succeeds_pred (h.coherent hds hunamb) hp.typed
    (hp.formula.sources h.sound.1.store hheld)
  have htarget := hcontinues.later.target
  exact ⟨q, S', hrun, htarget, htarget ▸ hq.became.clean, hq.became.encodes S' (.refl hcontinues.coherent)⟩

namespace FiniteList

open Datatype (finiteList)

def draft : LanguageDraft :=
  (LanguageDraft.registerDatatype { LanguageDraft.core with grammar := .empty } finiteList).1

def source : Factory := ⟨⟨.v2, draft.extensions, draft.datatypes, ⟨[], [], [], []⟩⟩, 0⟩

def lists (T : Ty) : Ty := .data finiteList [T]

def applied (slot : Nat) (symbol : String) (role : DatatypeRole) (es : List Expr) (t : Option Ty) : Expr :=
  .extended ⟨source, slot⟩ (.ofRole finiteList symbol es.length role) es [] t

def truth : Expr := .bool ⟨source, 0⟩ (.literal ⟨source, 0⟩ true)

def nil : Expr := applied 1 "nil" (.constructor 0) [] (some (lists .boolean))

def cons : Expr := applied 2 "cons" (.constructor 1) [truth, nil] none

def tail : Expr := applied 3 "tail" (.destructor 1 1) [cons] none

def bools : Expr := .atom ⟨source, 4⟩ .boolSet none

def values : Expr := applied 5 "List" .typeConstructor [bools] none

/-- The tail of a list of one truth value is a list of truth values. -/
def membership : Pred := .comparison ⟨source, 1⟩ .mem tail values

def types : List Ty :=
  [.boolean, lists .boolean, lists .boolean, lists .boolean, .power .boolean, .power (lists .boolean)]

/-- The store in which the literal, some of the expressions and maybe the predicate are made. -/
def store (exprs : Nat) (marks : Array Bool) : Store := ⟨((types.take exprs).map some).toArray, marks, 1⟩

def ask (T : Ty) : Encode (List Formula) := do
  let _ ← Encode.type T
  return []

/-- An encoding of the formulas of the factory that was asked for nothing. -/
def start (s : Store) (env : Environment) : EncodingState :=
  ⟨{ s with factories := s.factories + 1 },
    ⟨source, ⟨source.withoutDatatypes, s.factories⟩, env, Encoding.initialNames env, .empty, []⟩⟩

def asked (S : EncodingState) (T : Ty) : EncodingState := ((ask T).run S).2

theorem assembled : source.Assembled := ⟨draft, .datatype (.grammar .empty (.core .v2)) rfl, rfl⟩

theorem made : ∃ held, Session.Moves .empty ∅ (store 6 #[true, true]) held ∧ .pred membership ∈ held := by
  have hgenuine : ∀ e ∈ source.extensions, e.Genuine := assembled.registered.genuine
  obtain ⟨_, -, hfactory⟩ := Session.Moves.empty.makeFactory source.toLanguage
  obtain ⟨held₀, -, hliteral, h₀⟩ := hfactory.makePred source (.literal ⟨source, 0⟩ true) _ (store 0 #[true])
    (fun _ hg => by cases hg) trivial rfl
  obtain ⟨held₁, -, htruth, h₁⟩ := h₀.makeExpr source truth truth (store 1 #[true])
    (List.forall_mem_singleton.2 hliteral) trivial rfl
  obtain ⟨held₂, hsub₂, hnil, h₂⟩ := h₁.makeExpr source nil nil (store 2 #[true])
    (fun _ hg => by cases hg) (hgenuine _ (List.mem_of_getElem? (i := 3) rfl)) rfl
  obtain ⟨held₃, -, hcons, h₃⟩ := h₂.makeExpr source cons cons (store 3 #[true])
    (List.forall_mem_cons.2 ⟨hsub₂ htruth, List.forall_mem_singleton.2 hnil⟩)
    (hgenuine _ (List.mem_of_getElem? (i := 1) rfl)) rfl
  obtain ⟨held₄, -, htail, h₄⟩ := h₃.makeExpr source tail tail (store 4 #[true])
    (List.forall_mem_singleton.2 hcons) (hgenuine _ (List.mem_of_getElem? (i := 4) rfl)) rfl
  obtain ⟨held₅, hsub₅, hbools, h₅⟩ := h₄.makeLeaf source bools bools (store 5 #[true])
    rfl trivial rfl
  obtain ⟨held₆, hsub₆, hvalues, h₆⟩ := h₅.makeExpr source values values (store 6 #[true])
    (List.forall_mem_singleton.2 hbools) (hgenuine _ (List.mem_of_getElem? (i := 0) rfl)) rfl
  obtain ⟨held₇, -, hp, h₇⟩ := h₆.makePred source membership membership (store 6 #[true, true])
    (List.forall_mem_cons.2 ⟨hsub₆ (hsub₅ htail), List.forall_mem_singleton.2 hvalues⟩) trivial rfl
  exact ⟨held₇, h₇, hp⟩

theorem supported {T : Ty} (h : T.Supported [finiteList]) : (lists T).Supported [finiteList] := by
  refine TypeTree.supported_data.2 ⟨⟨?_, rfl⟩, List.forall_mem_singleton.2 h⟩
  refine .intro List.mem_cons_self (fun c hc a ha => ?_) fun c hc a ha => ?_ <;>
    obtain rfl | rfl := List.mem_pair.1 hc
  · cases ha
  · obtain rfl | rfl := List.mem_pair.1 ha <;> exact List.forall_mem_nil _
  · cases ha
  · obtain rfl | rfl := List.mem_pair.1 ha <;> exact List.forall_mem_nil _

theorem family : Datatype.Family [finiteList] := (assembled.registered.provides fun _ h => h).toFamily

/-- An encoding that is asked for a supported type represents supported instances. -/
theorem step_ask {T : Ty} (h : EncodingState.Reached source S held) (hT : T.Supported [finiteList])
    (hsup : ∀ r ∈ S.encoding.representations, r.source.type.Supported [finiteList]) :
    ∃ t held', (Encode.type T).run S = (.ok t, asked S T) ∧ held ⊆ held' ∧
      EncodingState.Step S held (asked S T) held' ∧ S.store.Later (asked S T).store ∧
      ∀ r ∈ (asked S T).encoding.representations, r.source.type.Supported [finiteList] := by
  have hcoherent := h.coherent (fun _ hd => hd) (Encoding.unambiguous_of_supported family hsup)
  obtain ⟨t, S', hrun, hadvances, -⟩ := Encode.succeeds_type hcoherent hT
  have hk := hadvances.continues hcoherent
  have hask : asked S T = S' := (snd_run_bind_pure _ _ S).trans (congrArg Prod.snd hrun)
  refine ⟨t, _, hask ▸ hrun, Set.subset_union_left, .encode (.type T), ?_⟩
  rw [hask]
  exact ⟨hk.later.store, fun r hr => (hk.added r hr).elim (hsup r) id⟩

theorem reached_start (env : Environment) (h : Session.Moves .empty ∅ s held) :
    EncodingState.Reached source (start s env) held :=
  .start assembled h (rfl : (Build.encoding source env).run s = (.ok (start s env).encoding, (start s env).store))

theorem membership_over : (Formula.pred membership).Over source.datatypes (store 6 #[true, true]) := by
  have hextensions : (Formula.pred membership).occurrences.filterMap (·.node.extension?) =
      [.ofRole finiteList "tail" 1 (.destructor 1 1), .ofRole finiteList "cons" 2 (.constructor 1),
        .ofRole finiteList "nil" 0 (.constructor 0), .ofRole finiteList "List" 1 .typeConstructor] := rfl
  have htypes : ∀ T ∈ types, T.Supported [finiteList] := by
    have h := supported (T := .boolean) nofun
    have hbool : (TypeTree.boolean : Ty).Supported [finiteList] := nofun
    simp [types, TypeTree.supported_power, h, hbool]
  refine ⟨rfl, fun g ⟨o, ho, hg⟩ ext hext => ⟨finiteList, List.mem_cons_self, ?_⟩, fun g hg T hT => htypes T ?_⟩
  · have hmem : ext ∈ (Formula.pred membership).occurrences.filterMap (·.node.extension?) :=
      List.mem_filterMap.2 ⟨o, ho, hg ▸ hext⟩
    rw [hextensions] at hmem
    simp only [List.mem_cons, List.not_mem_nil, or_false] at hmem
    obtain rfl | rfl | rfl | rfl := hmem
    exacts [List.mem_of_getElem? (i := 4) rfl, List.mem_of_getElem? (i := 2) rfl, List.mem_of_getElem? (i := 1) rfl,
      List.mem_of_getElem? (i := 0) rfl]
  · obtain ⟨slot, -, hslot⟩ := Option.bind_eq_some_iff.1 hT
    simp only [Store.type?, store, List.getElem?_toArray, List.getElem?_map, Option.join_eq_some_iff,
      Option.map_eq_some_iff] at hslot
    obtain ⟨U, hU, heq⟩ := hslot
    cases heq
    exact List.mem_of_getElem? hU

/-- After the encoding was asked for the type of the lists over a given type, the predicate is encoded. -/
theorem encodes_membership : ∃ S held q S', EncodingState.Reached source S held ∧ .pred membership ∈ held ∧
    membership.Over source.datatypes S.store ∧ S.encoding.Unambiguous source.datatypes ∧
    (Encode.pred membership).run S = (.ok q, S') ∧
    (Formula.pred q).Throughout (Formula.Clean S.encoding.target S'.store) ∧
    (Formula.pred membership).Encodes S.store S' (.pred q) := by
  obtain ⟨held, hs, hp⟩ := made
  have hstart := reached_start .empty hs
  obtain ⟨_, held', -, hsub, hstep, hlater, hsup⟩ := step_ask hstart (supported (T := .given "S") nofun) nofun
  have hreached := hstart.step hstep
  have hover := membership_over.later hs.sound hp ((Store.later_factories _ _).trans hlater)
  have hover : membership.Over source.datatypes _ := ⟨hover.typed, hover.extension, hover.supported⟩
  have hunamb := Encoding.unambiguous_of_supported family hsup
  obtain ⟨q, S', hrun, -, hclean, hencodes⟩ := hreached.encodes_pred (hsub hp) (fun _ hd => hd) hover hunamb
  exact ⟨_, held', q, S', hreached, hsub hp, hover, hunamb, hrun, hclean, hencodes⟩

end FiniteList

def coin : Datatype := ⟨"D", [], [⟨"b", []⟩, ⟨"c", []⟩]⟩

/-- Another datatype of the same name. -/
def token : Datatype := ⟨"D", [], [⟨"a", []⟩]⟩

namespace Coin

def draft : LanguageDraft :=
  (LanguageDraft.registerDatatype { LanguageDraft.core with grammar := .empty } coin).1

def source : Factory := ⟨⟨.v2, draft.extensions, draft.datatypes, ⟨[], [], [], []⟩⟩, 0⟩

def value (slot : Nat) (symbol : String) : Expr :=
  .extended ⟨source, slot⟩ (.ofRole coin symbol 0 (.constructor slot)) [] [] none

def equation : Pred := .comparison ⟨source, 0⟩ .eq (value 0 "b") (value 1 "c")

/-- The store in which some of the values, and maybe their equation, are made. -/
def store (values : Nat) (marks : Array Bool) : Store :=
  ⟨Array.replicate values (some (.data coin [])), marks, 1⟩

/-- An encoding of the formulas of the factory that was asked for the type of a datatype. -/
def asked (d : Datatype) : EncodingState :=
  ((do
    let _ ← Encode.type (.data d [])
    return [] : Encode (List Formula)).run ⟨⟨#[some (.data coin []), some (.data coin [])], #[true], 2⟩,
      ⟨source, ⟨source.withoutDatatypes, 1⟩, .empty, [], .empty, []⟩⟩).2

theorem assembled : source.Assembled := ⟨draft, .datatype (.grammar .empty (.core .v2)) rfl, rfl⟩

theorem made : ∃ held, Session.Moves .empty ∅ (store 2 #[true]) held ∧ .pred equation ∈ held := by
  have hgenuine : ∀ e ∈ source.extensions, e.Genuine := assembled.registered.genuine
  obtain ⟨_, -, hfactory⟩ := Session.Moves.empty.makeFactory source.toLanguage
  obtain ⟨held₁, -, hb, h₁⟩ := hfactory.makeExpr source (value 0 "b") (value 0 "b") (store 1 #[])
    (fun _ hg => by cases hg) (hgenuine _ (List.mem_of_getElem? (i := 1) rfl)) rfl
  obtain ⟨held₂, hsub, hc, h₂⟩ := h₁.makeExpr source (value 1 "c") (value 1 "c") (store 2 #[])
    (fun _ hg => by cases hg) (hgenuine _ (List.mem_of_getElem? (i := 2) rfl)) rfl
  obtain ⟨held₃, -, hp, h₃⟩ := h₂.makePred source equation equation (store 2 #[true])
    (by simpa [equation, Pred.children] using ⟨hsub hb, hc⟩) trivial rfl
  exact ⟨held₃, h₃, hp⟩

theorem reached (d : Datatype) :
    ∃ held, EncodingState.Reached source (asked d) held ∧ .pred equation ∈ held := by
  obtain ⟨held, h, hp⟩ := made
  have hstart : EncodingState.Reached source _ held := .start assembled h
    (rfl : (Build.encoding source .empty).run _ = (.ok _, _))
  exact ⟨_, hstart.step (.encode (.type (.data d []))), .inl hp⟩

theorem supported : (.data coin [] : Ty).Supported [coin] := by
  have hcoin : coin.Supported [coin] := by
    refine .intro List.mem_cons_self (fun c hc a ha => ?_) fun c hc a ha => ?_ <;>
      rcases List.mem_pair.1 hc with rfl | rfl <;> cases ha
  exact TypeTree.supported_data.2 ⟨⟨hcoin, rfl⟩, fun _ h => (by cases h)⟩

theorem equation_over {s : Store} (hb : s.type? 0 = some (.data coin []))
    (hc : s.type? 1 = some (.data coin [])) (hp : s.isMarked 0) : equation.Over [coin] s := by
  have hnodes : ∀ g ∈ (Formula.pred equation).nodes,
      g = .pred equation ∨ g = .expr (value 0 "b") ∨ g = .expr (value 1 "c") := by
    rintro _ ⟨o, ho, rfl⟩
    simp only [equation, value, Formula.occurrences, Pred.occurrences, Expr.occurrences,
      Expr.allOccurrences, Pred.allOccurrences, List.append_nil, List.cons_append, List.nil_append,
      List.mem_cons, List.not_mem_nil, or_false] at ho
    rcases ho with rfl | rfl | rfl
    exacts [.inl rfl, .inr (.inl rfl), .inr (.inr rfl)]
  refine ⟨hp, fun g hg ext hext => ?_, fun g hg T hT => ?_⟩
  · rcases hnodes g hg with rfl | rfl | rfl <;> cases hext
    · exact ⟨coin, List.mem_cons_self, List.mem_of_getElem? (i := 1) rfl⟩
    · exact ⟨coin, List.mem_cons_self, List.mem_of_getElem? (i := 2) rfl⟩
  · rcases hnodes g hg with rfl | rfl | rfl
    · cases hT
    · obtain rfl := Option.some_inj.1 (hb.symm.trans hT)
      exact supported
    · obtain rfl := Option.some_inj.1 (hc.symm.trans hT)
      exact supported

/-- After the encoding was asked for the type of another datatype of the name, it takes the representation
of that one, which lacks the second value. -/
theorem not_encodes_equation : ∃ held, EncodingState.Reached source (asked token) held ∧
    .pred equation ∈ held ∧ equation.Over source.datatypes (asked token).store ∧
    ((Encode.pred equation).run (asked token)).1 = .error (.misuse .indexOutOfRange) := by
  obtain ⟨held, hreached, hp⟩ := reached token
  exact ⟨held, hreached, hp, equation_over rfl rfl rfl, rfl⟩

end Coin
end SetLang
