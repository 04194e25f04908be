import SetLang.Proofs.Encoding.AxiomTypes
import SetLang.Proofs.Encoding.Occurrence

/-! Set expressions. Sets of values of a type are formed from sets of values of its parts; where datatypes are
involved, a type is known up to the names of these. -/

namespace SetLang

variable {s s' : Store} {f : Factory} {T : Ty} {e : Expr}

/-- An expression of a factory that is typed as a set of values of the type, where datatypes are known by
name. -/
structure Expr.Ranges (f : Factory) (s : Store) (T : Ty) (e : Expr) : Prop where
  factory : e.factory = f
  type : ∃ U, e.type? s = some U ∧ U.named = (TypeTree.power T).named

namespace Expr.Ranges

theorem mono (h : e.Ranges f s T) (k : s.Later s') : e.Ranges f s' T := by
  obtain ⟨U, hU, hnamed⟩ := h.type
  exact ⟨h.factory, U, k.type? _ _ hU, hnamed⟩

theorem typing (h : e.Ranges f s T) : s.typing.ofExpr e = (TypeTree.power T).named := by
  obtain ⟨U, hU, hnamed⟩ := h.type
  exact (Store.typing_slot hU).trans hnamed

theorem operand (h : e.Ranges f s T) : e.factory = f ∧ e.isTyped s :=
  ⟨h.factory, Option.isSome_iff_exists.2 (h.type.imp fun _ hU => hU.1)⟩

end Expr.Ranges

/-- The type constructor of a datatype makes sets of the values of an instance from sets of the values of its
type arguments. -/
theorem Datatype.holds_typeConstructor {d : Datatype} {args : List Ty} (hlen : args.length = d.params.length) :
    (d.scheme .typeConstructor).Holds (args.map fun a => (TypeTree.power a).named)
      (some (TypeTree.power (.data d args) : Ty).named) := by
  refine ⟨fun v => ((args[v]?).map TypeTree.named).getD .boolean, fun k g p hg hp => ?_, fun g p hg hp => ?_⟩
  · rw [List.getElem?_map] at hg
    obtain ⟨a, ha, rfl⟩ := Option.map_eq_some_iff.1 hg
    have hk : k < d.params.length := hlen ▸ (List.getElem?_eq_some_iff.1 ha).1
    obtain rfl : p = .power (.leaf k) := by
      simpa [Scheme.pattern?, Datatype.scheme, List.getElem?_range hk] using hp.symm
    simp [ha]
  · cases hg
    obtain rfl : .power d.generic = p := Option.some_inj.1 hp
    rw [TyTerm.under_power, Datatype.under_generic, TypeTree.named_power, TypeTree.named_data, ← hlen]
    congr 2
    refine List.ext_getElem (by simp) fun k hk hk' => ?_
    have hk : k < args.length := by simpa using hk
    simp [hk]

theorem Datatype.determines_typeConstructor (d : Datatype) :
    (d.scheme .typeConstructor).Determines d.params.length := by
  refine ⟨_, rfl, fun v hv => ?_⟩
  have hv : v < d.params.length := by simpa [Datatype.generic, TypeTree.leaves] using hv
  exact ⟨v, hv, .power (.leaf v), by simp [Scheme.pattern?, Datatype.scheme, List.getElem?_range hv],
    by simp [TypeTree.leaves]⟩

namespace Build

/-- A new expression over typed operands, of which the type is given or left by the rule. -/
theorem succeeds_operator {t : Ty} (make : Node → Expr) (es : List Expr) (hnode : ∀ n, (make n).node = n)
    (hfits : ∀ n, (make n).Fitting) (hchildren : ∀ n, (make n).children = es.map .expr)
    (hoperands : ∀ n, (make n).operands = es) (hes : ∀ e ∈ es, e.factory.id = f.id ∧ e.isTyped s)
    (hrule : ∀ n, (make n).scheme.Holds (es.map s.typing.ofExpr) (some t.named))
    (hone : ∀ n, (make n).explicit? = none ∧ (make n).scheme.Determines es.length ∨
      (make n).explicit? = some t) :
    Succeeds (Build.expr f make) s fun e s' => (∃ n, e = make n ∧ n.factory = f) ∧ s.Later s' ∧
      ∃ u, e.type? s' = some u ∧ u.named = t.named := by
  refine succeeds_named make hnode (fun n g hg => ?_) hfits (fun n g hg => ?_)
    fun n => Expr.admits_iff_eq ?_ ?_
  · rw [Expr.partFactories_eq, hchildren, Formula.factories_exprs] at hg
    obtain ⟨e, he, rfl⟩ := List.mem_map.1 hg
    exact (hes e he).1
  · obtain ⟨e, he, rfl⟩ := List.mem_map.1 (hchildren n ▸ hg : g ∈ es.map Formula.expr)
    exact (hes e he).2
  · rw [hoperands]
    exact hrule n
  · rw [hoperands]
    exact hone n

/-- A new set expression over operands of the same factory. -/
theorem succeeds_ranges (make : Node → Expr) (es : List Expr) (hnode : ∀ n, (make n).node = n)
    (hfits : ∀ n, (make n).Fitting) (hchildren : ∀ n, (make n).children = es.map .expr)
    (hoperands : ∀ n, (make n).operands = es) (hes : ∀ e ∈ es, e.factory = f ∧ e.isTyped s)
    (hrule : ∀ n, (make n).scheme.Holds (es.map s.typing.ofExpr) (some (TypeTree.power T).named))
    (hone : ∀ n, (make n).explicit? = none ∧ (make n).scheme.Determines es.length ∨
      (make n).explicit? = some (.power T)) :
    Succeeds (Build.expr f make) s fun e s' => s.Later s' ∧ (∃ n, e = make n) ∧ e.Ranges f s' T := by
  refine (succeeds_operator (t := .power T) make es hnode hfits hchildren hoperands
    (fun e he => ⟨congrArg Factory.id (hes e he).1, (hes e he).2⟩) hrule hone).mono fun e s' h => ?_
  obtain ⟨⟨n, rfl, hn⟩, hlater, htype⟩ := h
  exact ⟨hlater, ⟨n, rfl⟩, (congrArg Node.factory (hnode n)).trans hn, htype⟩

end Build

namespace Factory

variable {A B : Ty} {a b : Expr}

theorem succeeds_pow (ha : a.Ranges f s A) : Succeeds (f.unary .pow a) s fun e s' => s.Later s' ∧
    (∃ n, e = .unary n .pow a) ∧ e.Ranges f s' (.power A) := by
  refine Build.succeeds_ranges (T := .power A) (.unary · .pow a) [a] (fun _ => rfl) (fun _ => trivial)
    (fun _ => rfl) (fun _ => rfl) (List.forall_mem_singleton.2 ha.operand) (fun _ => ?_)
    fun _ => .inl ⟨rfl, UnaryOp.determines .pow⟩
  rw [List.map_singleton, ha.typing]
  exact UnaryOp.holds_pow A

theorem succeeds_cprod (ha : a.Ranges f s A) (hb : b.Ranges f s B) :
    Succeeds (f.binary .cprod a b) s fun e s' => s.Later s' ∧ (∃ n, e = .binary n .cprod a b) ∧
      e.Ranges f s' (.product A B) := by
  have hoperands : ∀ e ∈ [a, b], e.factory = f ∧ e.isTyped s :=
    List.forall_mem_cons.2 ⟨ha.operand, List.forall_mem_singleton.2 hb.operand⟩
  refine Build.succeeds_ranges (T := .product A B) (.binary · .cprod a b) [a, b] (fun _ => rfl)
    (fun _ => trivial) (fun _ => rfl) (fun _ => rfl) hoperands (fun _ => ?_)
    fun _ => .inl ⟨rfl, BinaryOp.determines .cprod⟩
  rw [List.map_cons, List.map_singleton, ha.typing, hb.typing]
  exact pairs_cprod.rule A B

theorem succeeds_boolSet (s : Store) : Succeeds (f.atom .boolSet none) s fun e s' => s.Later s' ∧
    (∃ n, e = .atom n .boolSet none) ∧ e.Ranges f s' .boolean :=
  Build.succeeds_ranges (T := .boolean) (.atom · .boolSet none) [] (fun _ => rfl) (fun _ => trivial)
    (fun _ => rfl) (fun _ => rfl) (fun _ h => by cases h) (fun _ => Atom.holds_boolSet)
    fun _ => .inl ⟨rfl, _, rfl, fun _ h => by cases h⟩

theorem succeeds_given (g : String) (s : Store) : Succeeds (f.typeExpr (.given g)) s fun e s' =>
    s.Later s' ∧ (∃ n, e = .free n g (some (Ty.givenSet g))) ∧ e.Ranges f s' (.given g) := by
  rw [typeExpr]
  refine Build.succeeds_ranges (T := .given g) (.free · g (some (Ty.givenSet g))) [] (fun _ => rfl)
    (fun _ => trivial) (fun _ => rfl) (fun _ => rfl) (fun _ h => by cases h) (fun _ => ?_)
    fun _ => .inr rfl
  simp [Expr.scheme, Scheme.any, Scheme.Holds]

theorem succeeds_bound (i : Nat) (T : Ty) (s : Store) : Succeeds (f.bound i (some (.power T))) s fun e s' =>
    s.Later s' ∧ (∃ n, e = .bound n i (some (.power T))) ∧ e.Ranges f s' T := by
  refine Build.succeeds_ranges (.bound · i (some (.power T))) [] (fun _ => rfl) (fun _ => trivial)
    (fun _ => rfl) (fun _ => rfl) (fun _ h => by cases h) (fun _ => ?_)
    fun _ => .inr rfl
  simp [Expr.scheme, Scheme.any, Scheme.Holds]

/-- A datatype is applied to sets, if the extension that applies it is registered. -/
theorem succeeds_applied {d : Datatype} {Ts : List Ty} {es : List Expr}
    (hreg : Registered f.extensions f.datatypes) (hd : d.applied ∈ f.extensions) (hlen : Ts.length = d.params.length)
    (hes : List.Forall₂ (fun e T => e.Ranges f s T) es Ts) :
    Succeeds (f.extendedExpr d.applied es [] none) s fun e s' => s.Later s' ∧
      (∃ n, e = .extended n d.applied es [] none) ∧ e.Ranges f s' (.data d Ts) := by
  have hcount : es.length = d.params.length := hes.length_eq.trans hlen
  have hoperands : ∀ e ∈ es, e.factory = f ∧ e.isTyped s := fun e he => by
    obtain ⟨T, -, he⟩ := forall₂_exists_right hes he
    exact he.operand
  have htypes : es.map s.typing.ofExpr = Ts.map fun T => (TypeTree.power T).named := by
    rw [← List.forall₂_eq_eq_eq, List.forall₂_map_left_iff, List.forall₂_map_right_iff]
    exact hes.imp fun _ _ he => he.typing
  unfold extendedExpr
  rw [hcount, List.length_nil, hreg.accept_applied hd]
  refine Succeeds.bind_run (run_pure () s) ?_
  refine Build.succeeds_ranges (T := .data d Ts) (.extended · d.applied es [] none) es (fun _ => rfl)
    (fun _ => ⟨hreg.genuine _ hd, ?_⟩) (fun _ => ?_) (fun _ => rfl) hoperands (fun _ => ?_)
    fun _ => .inl ⟨rfl, ?_⟩
  · simpa [Datatype.applied, Extension.ofRole, ChildCount.admits] using hcount
  · exact List.append_nil _
  · rw [htypes]
    exact Datatype.holds_typeConstructor hlen
  · rw [hcount]
    exact d.determines_typeConstructor

end Factory

end SetLang
