import SetLang.Proofs.Rebuild

/-! Compositional meaning. Nothing is asked of the operators but that a formula means what they make of the
meanings of its parts. Free identifiers are read in a valuation and bound identifiers in a stack, onto which
a binder pushes a value for each declaration. -/

namespace SetLang

universe u

variable {V W : Type u}

/-- The stack with further values on top. The last of them is the topmost, as the last declaration is the
innermost. -/
def push {n : Nat} (xs : Fin n → V) (st : Nat → V) : Nat → V :=
  fun i => if h : i < n then xs (Fin.rev ⟨i, h⟩) else st (i - n)

theorem push_of_lt {n i : Nat} (xs : Fin n → V) (st : Nat → V) (h : i < n) :
    push xs st i = xs (Fin.rev ⟨i, h⟩) := dif_pos h

theorem push_add {n : Nat} (xs : Fin n → V) (st : Nat → V) (i : Nat) : push xs st (n + i) = st i := by
  rw [push, dif_neg (by omega), Nat.add_sub_cancel_left]

/-- What the operators make of the meanings of their operands: values of expressions in `V`, and of predicates
in `W`. A binder is given the types of its declarations, and the meanings of what it binds them in for all
their values. -/
structure Operators (V W : Type u) where
  binary : BinaryOp → V → V → V
  unary : UnaryOp → V → V
  assoc : AssocOp → List V → V
  atom : Atom → V
  set : List V → V
  bool : W → V
  binder : SetBinder → (ts : List (Option Ty)) → ((Fin ts.length → V) → W) → ((Fin ts.length → V) → V) → V
  extended : Extension → List V → List W → V
  literal : Bool → W
  not : W → W
  connective : Connective → W → W → W
  junction : Junction → List W → W
  comparison : Comparison → V → V → W
  partition : List V → W
  quantifier : Quantifier → (ts : List (Option Ty)) → ((Fin ts.length → V) → W) → W
  extendedPred : Extension → List V → List W → W

section

variable (M : Operators V W) (s : Store) (v : String → V)

mutual

def Expr.meaning (st : Nat → V) : Expr → V
  | .binary _ op a b => M.binary op (a.meaning st) (b.meaning st)
  | .unary _ op a => M.unary op (a.meaning st)
  | .assoc _ op es => M.assoc op (Expr.meanings st es)
  | .atom _ a _ => M.atom a
  | .set _ es _ => M.set (Expr.meanings st es)
  | .bool _ p => M.bool (p.meaning st)
  | .quantified _ op ds p e => M.binder op (ds.map (·.type? s)) (fun xs => p.meaning (push xs st))
      fun xs => e.meaning (push xs st)
  | .bound _ i _ => st i
  | .free _ x _ => v x
  | .extended _ ext es ps _ => M.extended ext (Expr.meanings st es) (Pred.meanings st ps)

def Expr.meanings (st : Nat → V) : List Expr → List V
  | [] => []
  | e :: es => e.meaning st :: Expr.meanings st es

def Pred.meaning (st : Nat → V) : Pred → W
  | .literal _ b => M.literal b
  | .not _ p => M.not (p.meaning st)
  | .connective _ op p q => M.connective op (p.meaning st) (q.meaning st)
  | .junction _ op ps => M.junction op (Pred.meanings st ps)
  | .comparison _ op a b => M.comparison op (a.meaning st) (b.meaning st)
  | .partition _ es => M.partition (Expr.meanings st es)
  | .quantified _ op ds p => M.quantifier op (ds.map (·.type? s)) fun xs => p.meaning (push xs st)
  | .extended _ ext es ps => M.extendedPred ext (Expr.meanings st es) (Pred.meanings st ps)

def Pred.meanings (st : Nat → V) : List Pred → List W
  | [] => []
  | p :: ps => p.meaning st :: Pred.meanings st ps

end

def Formula.meaning (st : Nat → V) : Formula → Option (V ⊕ W)
  | expr e => some (.inl (e.meaning M s v st))
  | pred p => some (.inr (p.meaning M s v st))
  | assignment _ | decl _ => none

end

namespace Operators

variable (M : Operators V W)

/-- A binder makes the same of parts that mean the same for all values of the declarations. -/
theorem binder_congr (op : SetBinder) {ts ts' : List (Option Ty)} (h : ts = ts')
    {p : (Fin ts.length → V) → W} {p' : (Fin ts'.length → V) → W} {e : (Fin ts.length → V) → V}
    {e' : (Fin ts'.length → V) → V}
    (hp : ∀ xs, p xs = p' (xs ∘ Fin.cast (by rw [h]))) (he : ∀ xs, e xs = e' (xs ∘ Fin.cast (by rw [h]))) :
    M.binder op ts p e = M.binder op ts' p' e' := by
  subst h
  rw [show p = p' from funext hp, show e = e' from funext he]

theorem quantifier_congr (op : Quantifier) {ts ts' : List (Option Ty)} (h : ts = ts')
    {p : (Fin ts.length → V) → W} {p' : (Fin ts'.length → V) → W}
    (hp : ∀ xs, p xs = p' (xs ∘ Fin.cast (by rw [h]))) : M.quantifier op ts p = M.quantifier op ts' p' := by
  subst h
  rw [show p = p' from funext hp]

end Operators

/-- The same values pushed. -/
theorem push_cast {m n : Nat} (h : n = m) (xs : Fin m → V) (st : Nat → V) :
    push (xs ∘ Fin.cast h) st = push xs st := by
  subst h
  rfl

/-- What has become of identifiers is made up for by what has become of valuation and stack. Below a binder
both stacks have the same values on top. -/
structure Offsets (M : Operators V W) (K : Nat → Formula → Formula → Prop) (s s' : Store) (v v' : String → V)
    (R : Nat → (Nat → V) → (Nat → V) → Prop) : Prop where
  identifier : ∀ d g g' st st', g.IsIdentifier → K d g g' → R d st st' →
    g.meaning M s v st = g'.meaning M s' v' st'
  decl : ∀ d b b', K d (.decl b) (.decl b') → b'.type? s' = b.type? s
  push : ∀ d n (xs : Fin n → V) st st', R d st st' → R (d + n) (push xs st) (push xs st')

section

variable {M : Operators V W} {K : Nat → Formula → Formula → Prop} {s s' : Store} {v v' : String → V}
  {R : Nat → (Nat → V) → (Nat → V) → Prop}

theorem Offsets.types (h : Offsets M K s s' v v' R) {d : Nat} {bs bs' : List Declaration}
    (hbs : List.Forall₂ (fun b b' => K d (.decl b) (.decl b')) bs bs') :
    bs.map (·.type? s) = bs'.map (·.type? s') := by
  induction hbs with
  | nil => rfl
  | cons hb _ ih => rw [List.map_cons, List.map_cons, ih, h.decl _ _ _ hb]

theorem Offsets.below (h : Offsets M K s s' v v' R) {d : Nat} {bs : List Declaration} {st st' : Nat → V}
    (hR : R d st st') (xs : Fin (bs.map (·.type? s)).length → V) :
    R (d + bs.length) (SetLang.push xs st) (SetLang.push xs st') := by
  have hlen : (bs.map (·.type? s)).length = bs.length := List.length_map _
  rw [← hlen]
  exact h.push d _ xs st st' hR

mutual

theorem Expr.Rebuilt.meaning (h : Offsets M K s s' v v' R) : ∀ {e e' : Expr} {d : Nat} {st st' : Nat → V},
    e.Rebuilt K d e' → R d st st' → e.meaning M s v st = e'.meaning M s' v' st'
  | .binary _ _ a b, _, _, _, _, hre, hR => by
    cases hre with
    | identifier hid _ => exact hid.elim
    | binary _ ha hb => simp only [Expr.meaning, Expr.Rebuilt.meaning h ha hR, Expr.Rebuilt.meaning h hb hR]
  | .unary _ _ a, _, _, _, _, hre, hR => by
    cases hre with
    | identifier hid _ => exact hid.elim
    | unary _ ha => simp only [Expr.meaning, Expr.Rebuilt.meaning h ha hR]
  | .assoc _ _ es, _, _, _, _, hre, hR => by
    cases hre with
    | identifier hid _ => exact hid.elim
    | assoc _ hes => simp only [Expr.meaning, Expr.AllRebuilt.meaning h hes hR]
  | .atom _ _ _, _, _, _, _, hre, _ => by
    cases hre with
    | identifier hid _ => exact hid.elim
    | atom _ => simp only [Expr.meaning]
  | .set _ es _, _, _, _, _, hre, hR => by
    cases hre with
    | identifier hid _ => exact hid.elim
    | set _ hes => simp only [Expr.meaning, Expr.AllRebuilt.meaning h hes hR]
  | .bool _ p, _, _, _, _, hre, hR => by
    cases hre with
    | identifier hid _ => exact hid.elim
    | bool _ hp => simp only [Expr.meaning, Pred.Rebuilt.meaning h hp hR]
  | .quantified _ op bs p e, _, _, _, _, hre, hR => by
    cases hre with
    | identifier hid _ => exact hid.elim
    | quantified _ hbs hp he =>
      simp only [Expr.meaning]
      refine M.binder_congr op (h.types hbs) (fun xs => ?_) fun xs => ?_
      · rw [push_cast]
        exact Pred.Rebuilt.meaning h hp (h.below hR xs)
      · rw [push_cast]
        exact Expr.Rebuilt.meaning h he (h.below hR xs)
  | .bound _ _ _, _, _, _, _, hre, hR => by
    cases hre with
    | identifier hid hK => simpa [Formula.meaning] using h.identifier _ _ _ _ _ hid hK hR
  | .free _ _ _, _, _, _, _, hre, hR => by
    cases hre with
    | identifier hid hK => simpa [Formula.meaning] using h.identifier _ _ _ _ _ hid hK hR
  | .extended _ _ es ps _, _, _, _, _, hre, hR => by
    cases hre with
    | identifier hid _ => exact hid.elim
    | extended _ hes hps =>
      simp only [Expr.meaning, Expr.AllRebuilt.meaning h hes hR, Pred.AllRebuilt.meaning h hps hR]

theorem Expr.AllRebuilt.meaning (h : Offsets M K s s' v v' R) :
    ∀ {es es' : List Expr} {d : Nat} {st st' : Nat → V}, Expr.AllRebuilt K d es es' → R d st st' →
      Expr.meanings M s v st es = Expr.meanings M s' v' st' es'
  | [], _, _, _, _, .nil, _ => by simp only [Expr.meanings]
  | e :: es, _, _, _, _, .cons he hes, hR => by
    simp only [Expr.meanings, Expr.Rebuilt.meaning h he hR, Expr.AllRebuilt.meaning h hes hR]

theorem Pred.Rebuilt.meaning (h : Offsets M K s s' v v' R) : ∀ {p p' : Pred} {d : Nat} {st st' : Nat → V},
    p.Rebuilt K d p' → R d st st' → p.meaning M s v st = p'.meaning M s' v' st'
  | .literal _ _, _, _, _, _, .literal _, _ => by simp only [Pred.meaning]
  | .not _ p, _, _, _, _, .not _ hp, hR => by simp only [Pred.meaning, Pred.Rebuilt.meaning h hp hR]
  | .connective _ _ p q, _, _, _, _, .connective _ hp hq, hR => by
    simp only [Pred.meaning, Pred.Rebuilt.meaning h hp hR, Pred.Rebuilt.meaning h hq hR]
  | .junction _ _ ps, _, _, _, _, .junction _ hps, hR => by
    simp only [Pred.meaning, Pred.AllRebuilt.meaning h hps hR]
  | .comparison _ _ a b, _, _, _, _, .comparison _ ha hb, hR => by
    simp only [Pred.meaning, Expr.Rebuilt.meaning h ha hR, Expr.Rebuilt.meaning h hb hR]
  | .partition _ es, _, _, _, _, .partition _ hes, hR => by
    simp only [Pred.meaning, Expr.AllRebuilt.meaning h hes hR]
  | .quantified _ op bs p, _, _, _, _, .quantified _ hbs hp, hR => by
    simp only [Pred.meaning]
    refine M.quantifier_congr op (h.types hbs) fun xs => ?_
    rw [push_cast]
    exact Pred.Rebuilt.meaning h hp (h.below hR xs)
  | .extended _ _ es ps, _, _, _, _, .extended _ hes hps, hR => by
    simp only [Pred.meaning, Expr.AllRebuilt.meaning h hes hR, Pred.AllRebuilt.meaning h hps hR]

theorem Pred.AllRebuilt.meaning (h : Offsets M K s s' v v' R) :
    ∀ {ps ps' : List Pred} {d : Nat} {st st' : Nat → V}, Pred.AllRebuilt K d ps ps' → R d st st' →
      Pred.meanings M s v st ps = Pred.meanings M s' v' st' ps'
  | [], _, _, _, _, .nil, _ => by simp only [Pred.meanings]
  | p :: ps, _, _, _, _, .cons hp hps, hR => by
    simp only [Pred.meanings, Pred.Rebuilt.meaning h hp hR, Pred.AllRebuilt.meaning h hps hR]

end

namespace Formula

variable {d : Nat} {f f' : Formula} {st st' : Nat → V}

/-- A rebuilt formula means what the formula means where its identifiers do. -/
theorem Rebuilt.meaning (h : Offsets M K s s' v v' R) (hf : f.Rebuilt K d f') (hR : R d st st') :
    f.meaning M s v st = f'.meaning M s' v' st' := by
  unfold Formula.Rebuilt at hf
  split at hf
  · simp only [Formula.meaning, Expr.Rebuilt.meaning h hf hR]
  · simp only [Formula.meaning, Pred.Rebuilt.meaning h hf hR]
  · rfl
  · exact hf.elim

/-- Of the stack a formula only reads the entries for the declarations around it to which it refers. -/
theorem meaning_eq_of_boundBelow {k : Nat} (hf : f.BoundBelow k) (hst : ∀ i < k, st i = st' i)
    (hdecl : ∀ b, .decl b ∈ f.nodes → b.type? s' = b.type? s) :
    f.meaning M s v st = f.meaning M s' v st' := by
  -- the formula goes with itself, and so do stacks that agree on what is declared around a node
  let K : Nat → Formula → Formula → Prop := fun d g g' =>
    g' = g ∧ g ∈ f.nodes ∧ ∀ n i t, g = .expr (.bound n i t) → i < d
  have hK : Offsets M K s s' v v fun d st st' => ∀ i < d, st i = st' i := by
    refine ⟨?_, ?_, ?_⟩
    · rintro d g _ st st' hid ⟨rfl, -, hbound⟩ hR
      unfold IsIdentifier at hid
      split at hid
      · simp only [Formula.meaning, Expr.meaning, hR _ (hbound _ _ _ rfl)]
      · simp only [Formula.meaning, Expr.meaning]
      · exact hid.elim
    · rintro d b _ ⟨⟨⟩, hb, -⟩
      exact hdecl b hb
    · intro d n xs st st' hR i hi
      by_cases hlt : i < n
      · rw [push_of_lt _ _ hlt, push_of_lt _ _ hlt]
      · obtain ⟨j, rfl⟩ := Nat.exists_eq_add_of_le (Nat.not_lt.1 hlt)
        rw [push_add, push_add]
        exact hR j (by omega)
  cases ha : f.isAssignment with
  | true =>
    cases f with
    | assignment a => rfl
    | _ => cases ha
  | false =>
    refine Rebuilt.meaning hK (Rebuilt.refl ha fun is g hg => ?_) hst
    refine ⟨rfl, mem_nodes_of_at? hg, ?_⟩
    rintro n i t rfl
    exact hf is n i t hg

end Formula

end

end SetLang
