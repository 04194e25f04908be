import SetLang.Proofs.Encoding.Typed
import SetLang.Proofs.Rebuild.Occurrences
import SetLang.Proofs.Rebuild.Typed

/-! What is made over known formulas by a rule that holds for their types is known. -/

namespace SetLang

variable {s t : Store} {env : Environment} {f : Factory} {a b e : Expr} {p : Pred} {g : GroundTy}

namespace Formula.Known

theorem mono {h : Formula} (k : h.Known s env) (hlater : s.Later t) : h.Known t env :=
  fun o ho => (k o ho).mono hlater

theorem expr (h : (Formula.expr e).Known s env) : (Formula.expr e).Settled s :=
  (h _ (e.mem_occurrences_self [])).settled

theorem pred (h : (Formula.pred p).Known s env) : (Formula.pred p).Settled s :=
  (h _ (p.mem_occurrences_self [])).settled

end Formula.Known

namespace Build

/-- A new predicate over typed parts of the factory. -/
theorem succeeds_settled (make : Node → Pred) (hnode : ∀ n, (make n).node = n)
    (hparts : ∀ n, ∀ g ∈ (make n).children, g.isTyped s ∧ ∀ f', g.factory? = some f' → f' = f)
    (hfits : ∀ n, (make n).Fitting) (hobeys : ∀ n, s.typing.Obeys (.pred (make n))) :
    Succeeds (Build.pred f make) s fun p t =>
      (∃ n, p = make n ∧ n.factory = f) ∧ s.Later t ∧ (Formula.pred p).Settled t := by
  refine (succeeds_pred make hnode (fun n f' hf' => ?_) hfits (fun n g hg => (hparts n g hg).1) hobeys).mono ?_
  · rw [Pred.partFactories_eq] at hf'
    obtain ⟨g, hg, hfactory⟩ := List.mem_filterMap.1 hf'
    exact (hparts n g hg).2 f' hfactory
  · rintro _ t ⟨⟨n, rfl, hn⟩, hlater, htyped⟩
    have htypes : (Formula.pred (make n)).PartsTyped s := fun g hg => (hparts n g hg).1
    exact ⟨⟨n, rfl, hn⟩, hlater, ⟨Store.lt_of_isMarked htyped, hfits n⟩, htyped, htypes.mono hlater,
      (Pred.obeys_iff hlater htypes).2 (hobeys n)⟩

end Build

namespace Declaration

variable {bs cs : List Declaration} {b c : Declaration}

structure Copied (s : Store) (env : Environment) (b c : Declaration) : Prop where
  source : (Formula.decl b).isTyped s
  known : Occurrence.Known s env ⟨[], .decl c⟩
  type : s.typing.ofDecl c = s.typing.ofDecl b

theorem Copied.mono (h : b.Copied s env c) (k : s.Later t) : b.Copied t env c := by
  refine ⟨Formula.isTyped_mono h.source k, h.known.mono k, ?_⟩
  exact (Store.Sound.typing_slot_eq k h.known.settled.typed rfl).symm.trans
    (h.type.trans (Store.Sound.typing_slot_eq k h.source rfl))

theorem succeeds_copy (h : Occurrence.Known s env ⟨[], .decl b⟩) :
    Succeeds (Build.copy b) s fun c t => s.Later t ∧ b.Copied t env c := by
  obtain ⟨T, hT⟩ := Formula.exists_type? h.settled.typed rfl
  refine (Build.succeeds_copy hT).mono ?_
  rintro c t ⟨-, hlater, hc⟩
  refine ⟨hlater, ?_⟩
  have hb : b.type? t = some T := hlater.type? _ _ hT
  refine ⟨Option.isSome_iff_exists.2 ⟨T, hb⟩, .of_settled ⟨Store.lt_of_type? hc, ?_, ?_, trivial⟩ not_false ?_, ?_⟩
  · exact Option.isSome_iff_exists.2 ⟨T, hc⟩
  · exact List.forall_mem_nil _
  · exact fun U hU => h.givens U (hT.trans (hc.symm.trans hU))
  · exact (Store.typing_slot hc).trans (Store.typing_slot hb).symm

theorem succeeds_copies (hbs : ∀ b ∈ bs, Occurrence.Known s env ⟨[], .decl b⟩) :
    Succeeds (bs.mapM Build.copy) s fun cs t => s.Later t ∧ List.Forall₂ (Copied t env) bs cs :=
  Build.succeeds_mapM (P := fun b c s => b.Copied s env c) (fun _ _ _ _ k h => h.mono k) fun b hb _ k =>
    succeeds_copy ((hbs b hb).mono k)

/-- What is known below declarations is known below copies of them. -/
theorem known_of_copied (hcs : List.Forall₂ (Copied s env) bs cs)
    (hp : ∀ o ∈ p.occurrences bs.reverse, o.Known s env) : ∀ o ∈ p.occurrences cs.reverse, o.Known s env := by
  intro o ho
  obtain ⟨inner, g, rfl, hg⟩ := p.exists_occurrence bs.reverse ho
  refine (hp _ hg).rescope fun i b hb htyped => ?_
  by_cases hi : i < inner.length
  · rw [List.getElem?_append_left hi] at hb ⊢
    exact ⟨b, hb, htyped, rfl⟩
  · rw [List.getElem?_append_right (Nat.not_lt.1 hi)] at hb ⊢
    obtain ⟨c, hc, hcopied⟩ := forall₂_exists_getElem? (List.forall₂_reverse_iff.2 hcs) hb
    exact ⟨c, hc, hcopied.known.settled.typed, hcopied.type⟩

end Declaration

namespace Factory

theorem succeeds_known_literal (f : Factory) (value : Bool) (s : Store) (env : Environment) :
    Succeeds (f.literal value) s fun p t => s.Later t ∧ (Formula.pred p).Known t env := by
  refine (Build.succeeds_settled (.literal · value) (fun _ => rfl) (fun _ _ hg => by cases hg) (fun _ => trivial)
    fun _ => ?_).mono ?_
  · exact Scheme.holds_any
  · rintro _ t ⟨⟨n, rfl, -⟩, hlater, hsettled⟩
    exact ⟨hlater, List.forall_mem_singleton.2 (.pred hsettled)⟩

/-- The empty set as a value of a known set. -/
theorem succeeds_known_emptySet (ha : (Formula.expr a).Known s env) (hset : s.typing.ofExpr a = .power g) :
    Succeeds (f.atom .emptySet (a.type? s)) s fun e t => e.factory = f ∧ s.Later t ∧ (Formula.expr e).Known t env ∧
      t.typing.ofExpr e = s.typing.ofExpr a := by
  obtain ⟨T, hT⟩ := Formula.exists_type? ha.expr.typed rfl
  have hnamed : s.typing.ofExpr a = T.named := Store.typing_slot hT
  have hholds : Atom.emptySet.scheme.Holds [] (some T.named) := by
    rw [Atom.scheme, Scheme.holds_some, ← hnamed, hset]
    exact ⟨fun _ => g, Scheme.matches_nil, rfl⟩
  have ha' : a.type? s = some T := hT
  rw [ha']
  refine (Build.succeeds_named (.atom · .emptySet (some T)) (fun _ => rfl) (fun _ _ hg => by cases hg)
    (fun _ => trivial) (fun _ _ hg => by cases hg) fun _ => Expr.admits_iff_eq hholds (.inr rfl)).mono ?_
  rintro _ t ⟨⟨n, rfl, hn⟩, hlater, u, hu, heq⟩
  have htype : t.typing.ofExpr (.atom n .emptySet (some T)) = T.named := (Store.typing_slot hu).trans heq
  have hkeeps : (Formula.expr a).KeepsType s t (.expr (.atom n .emptySet (some T))) := by
    change (t.type? n.slot).map _ = (s.type? a.node.slot).map _
    rw [show t.type? n.slot = some u from hu, show s.type? a.node.slot = some T from hT, Option.map_some, heq,
      Option.map_some]
  refine ⟨hn, hlater, List.forall_mem_singleton.2 (.of_settled ⟨⟨Store.lt_of_type? hu, trivial⟩, ?_, ?_, ?_⟩
    not_false fun U hU x hx => ?_), htype.trans hnamed.symm⟩
  · exact Option.isSome_iff_exists.2 ⟨u, hu⟩
  · exact List.forall_mem_nil _
  · rw [Typing.Obeys, htype]
    refine ⟨hholds, ?_⟩
    rintro _ ⟨⟩
    rfl
  · obtain ⟨V, hV, hgivens⟩ := hkeeps.exists_type? hU
    exact (ha _ (a.mem_occurrences_self [])).givens V hV x (hgivens ▸ hx)

theorem succeeds_known_comparison (op : Comparison) (ha : (Formula.expr a).Known s env)
    (hb : (Formula.expr b).Known s env) (hfa : a.factory = f) (hfb : b.factory = f)
    (hrule : op.scheme.Holds [s.typing.ofExpr a, s.typing.ofExpr b] none) :
    Succeeds (f.comparison op a b) s fun p t => (∃ n, p = .comparison n op a b ∧ n.factory = f) ∧ s.Later t ∧
      (Formula.pred p).Known t env := by
  refine (Build.succeeds_settled (.comparison · op a b) (fun _ => rfl) (fun _ => ?_) (fun _ => trivial)
    fun _ => hrule).mono ?_
  · refine List.forall_mem_cons.2 ⟨⟨ha.expr.typed, ?_⟩, List.forall_mem_singleton.2 ⟨hb.expr.typed, ?_⟩⟩
    · rintro _ ⟨⟩
      exact hfa
    · rintro _ ⟨⟩
      exact hfb
  · rintro _ t ⟨⟨n, rfl, hn⟩, hlater, hsettled⟩
    refine ⟨⟨n, rfl, hn⟩, hlater, List.forall_mem_cons.2 ⟨.pred hsettled, List.forall_mem_append.2 ⟨?_, ?_⟩⟩⟩
    · exact ha.mono hlater
    · exact hb.mono hlater

theorem succeeds_known_land {ps : List Pred} (hlen : 2 ≤ ps.length)
    (hps : ∀ p ∈ ps, (Formula.pred p).Known s env ∧ p.factory = f) :
    Succeeds (f.junction .land ps) s fun q t => (∃ n, q = .junction n .land ps) ∧ s.Later t ∧
      (Formula.pred q).Known t env := by
  refine Build.succeeds_required (decide_eq_true hlen) ((Build.succeeds_settled (.junction · .land ps)
    (fun _ => rfl) (fun _ => List.forall_mem_map.2 fun p hp => ⟨(hps p hp).1.pred.typed, ?_⟩) (fun _ => trivial)
    fun _ => ?_).mono ?_)
  · rintro _ ⟨⟩
    exact (hps p hp).2
  · exact Scheme.holds_any
  · rintro _ t ⟨⟨n, rfl, -⟩, hlater, hsettled⟩
    refine ⟨⟨n, rfl⟩, hlater, List.forall_mem_cons.2 ⟨.pred hsettled, fun o ho => ?_⟩⟩
    rw [Pred.allOccurrences_eq] at ho
    obtain ⟨p, hp, ho⟩ := List.mem_flatMap.1 ho
    exact ((hps p hp).1 o ho).mono hlater

/-- A predicate that is known below declarations may be quantified over them. -/
theorem succeeds_known_exist {bs : List Declaration} (hne : bs ≠ []) (hfp : p.factory = f)
    (hbs : ∀ b ∈ bs, Occurrence.Known s env ⟨[], .decl b⟩) (hp : ∀ o ∈ p.occurrences bs.reverse, o.Known s env) :
    Succeeds (f.quantifiedPred .exist bs p) s fun q t => s.Later t ∧ (Formula.pred q).Known t env := by
  refine Build.succeeds_required (by simpa using hne) ((Declaration.succeeds_copies hbs).bind fun cs t₁ h => ?_)
  obtain ⟨hlater, hcs⟩ := h
  refine (Build.succeeds_settled (.quantified · .exist cs p) (fun _ => rfl) (fun _ => ?_) (fun _ => trivial)
    fun _ => ?_).mono ?_
  · refine List.forall_mem_append.2 ⟨List.forall_mem_map.2 fun c hc => ?_, List.forall_mem_singleton.2 ⟨?_, ?_⟩⟩
    · obtain ⟨b, -, hcopied⟩ := forall₂_exists_right hcs.flip hc
      exact ⟨hcopied.known.settled.typed, fun _ hf => by cases hf⟩
    · exact Formula.isTyped_mono (hp _ (p.mem_occurrences_self _)).settled.typed hlater
    · rintro _ ⟨⟩
      exact hfp
  · exact Scheme.holds_any
  · rintro _ t ⟨⟨n, rfl, -⟩, hlater₁, hsettled⟩
    refine ⟨hlater.trans hlater₁, List.forall_mem_cons.2 ⟨.pred hsettled, List.forall_mem_append.2 ⟨?_, ?_⟩⟩⟩
    · refine List.forall_mem_map.2 fun c hc => ?_
      obtain ⟨b, -, hcopied⟩ := forall₂_exists_right hcs.flip hc
      exact hcopied.known.mono hlater₁
    · intro o ho
      rw [List.append_nil] at ho
      exact (Declaration.known_of_copied hcs (fun o ho => (hp o ho).mono hlater) o ho).mono hlater₁

end Factory
end SetLang
