import SetLang.Proofs.Equality
import SetLang.Proofs.Session.Slots
import SetLang.Proofs.Text.Reading

/-! The text of a formula over core operators determines the formula. Every such formula is read back from its text,
up to the types and slots of its nodes, so that two of them with one text are structurally equal. -/

namespace SetLang

variable {n : Node} {sc : List Declaration} {e x : Expr} {p q : Pred} {es : List Expr} {ps : List Pred}
  {ds : List Declaration} {f : Formula}

mutual

/-- The expression with one node throughout and without given types. -/
def Expr.bare (n : Node) : Expr → Expr
  | .binary _ op l r => .binary n op (l.bare n) (r.bare n)
  | .unary _ op a => .unary n op (a.bare n)
  | .assoc _ op es => .assoc n op (Expr.allBare n es)
  | .atom _ a _ => .atom n a none
  | .set _ es _ => .set n (Expr.allBare n es) none
  | .bool _ p => .bool n (p.bare n)
  | .quantified _ op ds p e => .quantified n op (ds.map fun d => ⟨d.name, 0⟩) (p.bare n) (e.bare n)
  | .bound _ i _ => .bound n i none
  | .free _ x _ => .free n x none
  | .extended _ ext es ps _ => .extended n ext (Expr.allBare n es) (Pred.allBare n ps) none

def Expr.allBare (n : Node) : List Expr → List Expr
  | [] => []
  | e :: es => e.bare n :: Expr.allBare n es

def Pred.bare (n : Node) : Pred → Pred
  | .literal _ b => .literal n b
  | .not _ p => .not n (p.bare n)
  | .connective _ op p q => .connective n op (p.bare n) (q.bare n)
  | .junction _ op ps => .junction n op (Pred.allBare n ps)
  | .comparison _ op l r => .comparison n op (l.bare n) (r.bare n)
  | .partition _ es => .partition n (Expr.allBare n es)
  | .quantified _ op ds p => .quantified n op (ds.map fun d => ⟨d.name, 0⟩) (p.bare n)
  | .extended _ ext es ps => .extended n ext (Expr.allBare n es) (Pred.allBare n ps)

def Pred.allBare (n : Node) : List Pred → List Pred
  | [] => []
  | p :: ps => p.bare n :: Pred.allBare n ps

end

theorem Declaration.sameNames_bare (ds ds' : List Declaration) :
    sameNames (ds.map fun d => ⟨d.name, 0⟩) (ds'.map fun d => ⟨d.name, 0⟩) = sameNames ds ds' := by
  rw [Bool.eq_iff_iff, sameNames_iff, sameNames_iff, List.map_map, List.map_map]
  rfl

mutual

/-- What the bare form leaves out does not count for structural equality. -/
theorem Expr.same_bare (e e' : Expr) : (e.bare n).same (e'.bare n) = e.same e' := by
  cases e with
  | binary _ op l r =>
    cases e' with
    | binary => simp only [Expr.bare, Expr.same, l.same_bare, r.same_bare]
    | _ => rfl
  | unary _ op a =>
    cases e' with
    | unary => simp only [Expr.bare, Expr.same, a.same_bare]
    | _ => rfl
  | assoc _ op es =>
    cases e' with
    | assoc => simp only [Expr.bare, Expr.same, Expr.sameAll_bare es]
    | _ => rfl
  | atom _ a _ =>
    cases e' with
    | atom => simp only [Expr.bare, Expr.same]
    | _ => rfl
  | set _ es _ =>
    cases e' with
    | set => simp only [Expr.bare, Expr.same, Expr.sameAll_bare es]
    | _ => rfl
  | bool _ p =>
    cases e' with
    | bool => simp only [Expr.bare, Expr.same, p.same_bare]
    | _ => rfl
  | quantified _ op ds p e =>
    cases e' with
    | quantified => simp only [Expr.bare, Expr.same, p.same_bare, e.same_bare, Declaration.sameNames_bare]
    | _ => rfl
  | bound _ i _ =>
    cases e' with
    | bound => simp only [Expr.bare, Expr.same]
    | _ => rfl
  | free _ x _ =>
    cases e' with
    | free => simp only [Expr.bare, Expr.same]
    | _ => rfl
  | extended _ ext es ps _ =>
    cases e' with
    | extended => simp only [Expr.bare, Expr.same, Expr.sameAll_bare es, Pred.sameAll_bare ps]
    | _ => rfl

theorem Expr.sameAll_bare (es es' : List Expr) :
    Expr.sameAll (Expr.allBare n es) (Expr.allBare n es') = Expr.sameAll es es' := by
  cases es with
  | nil => cases es' <;> rfl
  | cons e es =>
    cases es' with
    | nil => rfl
    | cons => simp only [Expr.allBare, Expr.sameAll, e.same_bare, Expr.sameAll_bare es]

theorem Pred.same_bare (p p' : Pred) : (p.bare n).same (p'.bare n) = p.same p' := by
  cases p with
  | literal _ b =>
    cases p' with
    | literal => simp only [Pred.bare, Pred.same]
    | _ => rfl
  | not _ p =>
    cases p' with
    | not => simp only [Pred.bare, Pred.same, p.same_bare]
    | _ => rfl
  | connective _ op p q =>
    cases p' with
    | connective => simp only [Pred.bare, Pred.same, p.same_bare, q.same_bare]
    | _ => rfl
  | junction _ op ps =>
    cases p' with
    | junction => simp only [Pred.bare, Pred.same, Pred.sameAll_bare ps]
    | _ => rfl
  | comparison _ op l r =>
    cases p' with
    | comparison => simp only [Pred.bare, Pred.same, l.same_bare, r.same_bare]
    | _ => rfl
  | partition _ es =>
    cases p' with
    | partition => simp only [Pred.bare, Pred.same, Expr.sameAll_bare es]
    | _ => rfl
  | quantified _ op ds p =>
    cases p' with
    | quantified => simp only [Pred.bare, Pred.same, p.same_bare, Declaration.sameNames_bare]
    | _ => rfl
  | extended _ ext es ps =>
    cases p' with
    | extended => simp only [Pred.bare, Pred.same, Expr.sameAll_bare es, Pred.sameAll_bare ps]
    | _ => rfl

theorem Pred.sameAll_bare (ps ps' : List Pred) :
    Pred.sameAll (Pred.allBare n ps) (Pred.allBare n ps') = Pred.sameAll ps ps' := by
  cases ps with
  | nil => cases ps' <;> rfl
  | cons p ps =>
    cases ps' with
    | nil => rfl
    | cons => simp only [Pred.allBare, Pred.sameAll, p.same_bare, Pred.sameAll_bare ps]

end

theorem Expr.allBare_eq (es : List Expr) : Expr.allBare n es = es.map (·.bare n) := by
  induction es with
  | nil => rfl
  | cons e es ih => rw [Expr.allBare, ih, List.map_cons]

theorem Pred.allBare_eq (ps : List Pred) : Pred.allBare n ps = ps.map (·.bare n) := by
  induction ps with
  | nil => rfl
  | cons p ps ih => rw [Pred.allBare, ih, List.map_cons]

abbrev Declaration.namesOf (sc : List Declaration) : List String := sc.map (·.name)

open Declaration

attribute [local simp] Expr.textIn Pred.textIn

def Expr.operandText (names : List String) (e : Expr) : List Char :=
  (parenthesise e.isCompound (e.textIn names)).toList

def Pred.operandText (names : List String) (p : Pred) : List Char :=
  (parenthesise p.isCompound (p.textIn names)).toList

/-- An expression is read from its text, as an operand and as a whole. -/
structure Expr.Reads (n : Node) (names : List String) (e : Expr) : Prop where
  operand : (e.bare n).ReadFirst n names (e.operandText names)
  whole : (Formula.expr (e.bare n)).ReadAt n names 1 (e.textIn names).toList

structure Pred.Reads (n : Node) (names : List String) (p : Pred) : Prop where
  operand : (Formula.pred (p.bare n)).ReadAt n names 2 (p.operandText names)
  whole : (Formula.pred (p.bare n)).ReadAt n names 3 (p.textIn names).toList

variable {names : List String}

theorem Expr.Reads.of_first (hcompound : e.isCompound = false)
    (h : (e.bare n).ReadFirst n names (e.textIn names).toList) : e.Reads n names := by
  refine ⟨?_, h.readAt.up (Nat.zero_le 1)⟩
  rwa [operandText, parenthesise, hcompound]

theorem Expr.Reads.of_compound (hcompound : e.isCompound = true)
    (h : (Formula.expr (e.bare n)).ReadAt n names 1 (e.textIn names).toList) : e.Reads n names := by
  refine ⟨?_, h⟩
  have htext : e.operandText names = '(' :: ((e.textIn names).toList ++ [')']) := by
    simp [operandText, parenthesise, hcompound]
  exact htext ▸ readFirst_parenthesised h

theorem Pred.Reads.of_simple (hcompound : p.isCompound = false)
    (h : (Formula.pred (p.bare n)).ReadAt n names 2 (p.textIn names).toList) : p.Reads n names := by
  refine ⟨?_, h.up (by decide)⟩
  rwa [operandText, parenthesise, hcompound]

theorem Pred.Reads.of_compound (hcompound : p.isCompound = true)
    (h : (Formula.pred (p.bare n)).ReadAt n names 3 (p.textIn names).toList) : p.Reads n names := by
  refine ⟨?_, h⟩
  have htext : p.operandText names = '(' :: ((p.textIn names).toList ++ [')']) := by
    simp [operandText, parenthesise, hcompound]
  exact htext ▸ readAt_parenthesised h

theorem Expr.texts_eq (es : List Expr) : Expr.texts names es = es.map (·.textIn names) := by
  induction es with
  | nil => rfl
  | cons e es ih => rw [Expr.texts, ih, List.map_cons]

theorem Expr.operandTexts_eq (es : List Expr) :
    (Expr.operandTexts names es).map String.toList = es.map (·.operandText names) := by
  induction es with
  | nil => rfl
  | cons e es ih => rw [Expr.operandTexts, List.map_cons, ih, List.map_cons, operandText]

theorem Pred.operandTexts_eq (ps : List Pred) :
    (Pred.operandTexts names ps).map String.toList = ps.map (·.operandText names) := by
  induction ps with
  | nil => rfl
  | cons p ps ih => rw [Pred.operandTexts, List.map_cons, ih, List.map_cons, operandText]

/-! The kinds of expressions. -/

theorem reads_binary {m : Node} (op : BinaryOp) (he : e.Reads n names) (hx : x.Reads n names) :
    (Expr.binary m op e x).Reads n names := by
  have hbetween : op.isBetween = true → (Expr.binary m op e x).Reads n names := fun hop => by
    refine .of_compound hop ?_
    have hpair := readAt_pair (Link.binary_mem_all hop) he.operand.readAt hx.operand.readAt
      (rfl : Formula.joined? n (.binary op) _ = _)
    have htext : ((Expr.binary m op e x).textIn names).toList =
        e.operandText names ++ ((Link.binary op).text ++ x.operandText names) := by
      rw [Expr.textIn]
      · simp [Expr.operandText, Link.text, Link.symbol]
      · rintro rfl
        cases hop
      · rintro rfl
        cases hop
    exact htext ▸ hpair
  cases op with
  | funImage =>
    refine .of_first rfl ?_
    have htext : ((Expr.binary m .funImage e x).textIn names).toList =
        e.operandText names ++ '(' :: ((x.textIn names).toList ++ [')']) := by
      simp [Expr.operandText]
    exact htext ▸ readFirst_funImage he.operand hx.whole
  | relImage =>
    refine .of_first rfl ?_
    have htext : ((Expr.binary m .relImage e x).textIn names).toList =
        e.operandText names ++ '[' :: ((x.textIn names).toList ++ [']']) := by
      simp [Expr.operandText]
    exact htext ▸ readFirst_relImage he.operand hx.whole
  | _ => exact hbetween rfl

theorem reads_unary {m : Node} (op : UnaryOp) (he : e.Reads n names) : (Expr.unary m op e).Reads n names := by
  refine .of_first rfl ?_
  by_cases hop : op = .converse
  · subst hop
    have htext : ((Expr.unary m .converse e).textIn names).toList = e.operandText names ++ ['∼'] := by
      simp [Expr.operandText, UnaryOp.wrap]
    exact htext ▸ readFirst_converse he.operand
  · have htext : (Expr.unary m op e).textIn names = op.wrap (e.textIn names) := by
      simp [parenthesise, hop]
    exact htext ▸ readFirst_unary hop he.whole

theorem exists_cons_cons {α : Type} {xs : List α} (h : 2 ≤ xs.length) : ∃ a b ys, xs = a :: b :: ys := by
  match xs, h with
  | a :: b :: ys, _ => exact ⟨a, b, ys, rfl⟩

/-- Operands with one link between all of them. -/
theorem toList_linked (l : Link) (ss : List String) :
    ((" " ++ l.symbol ++ " ").intercalate ss).toList = l.text.intercalate (ss.map String.toList) := by
  simp [Link.text]

theorem reads_assoc {m : Node} (op : AssocOp) (hlength : 2 ≤ es.length) (hes : ∀ e ∈ es, e.Reads n names) :
    (Expr.assoc m op es).Reads n names := by
  refine .of_compound rfl ?_
  have htext : ((Expr.assoc m op es).textIn names).toList =
      (Link.assoc op).text.intercalate (es.map (·.operandText names)) := by
    rw [Expr.textIn, ← Expr.operandTexts_eq]
    exact toList_linked (.assoc op) _
  obtain ⟨e, e', es, rfl⟩ := exists_cons_cons hlength
  obtain ⟨he, hes⟩ := List.forall_mem_cons.1 hes
  have hparts : (Link.assoc op).ReadParts n names (((e' :: es).map (·.bare n)).map .expr)
      ((e' :: es).map (·.operandText names)) := by
    rw [List.map_map]
    exact forall₂_map_of_forall_mem fun e he => (hes e he).operand.readAt
  have hjoined : Formula.joined? n (.assoc op) (((e :: e' :: es).map (·.bare n)).map .expr) = _ :=
    congrArg (Option.map _) (mapM_expr? _)
  rw [htext, Expr.bare, Expr.allBare_eq]
  exact readAt_joined (Link.assoc_mem_all op) he.operand.readAt hparts hjoined

theorem reads_atom {m : Node} (a : Atom) (t : Option Ty) : (Expr.atom m a t).Reads n names :=
  .of_first rfl (readFirst_atom a)

theorem readMembers_of_reads (hes : ∀ e ∈ es, e.Reads n names) :
    ReadMembers n names (es.map (·.bare n)) (es.map fun e => (e.textIn names).toList) :=
  forall₂_map_of_forall_mem fun e he => (hes e he).whole

theorem toList_commaSeparated (es : List Expr) : (commaSeparated (Expr.texts names es)).toList =
    [',', ' '].intercalate (es.map fun e => (e.textIn names).toList) := by
  simp [commaSeparated, Expr.texts_eq, Function.comp_def]

theorem reads_set {m : Node} (t : Option Ty) (hes : ∀ e ∈ es, e.Reads n names) :
    (Expr.set m es t).Reads n names := by
  refine .of_first rfl ?_
  have htext : ((Expr.set m es t).textIn names).toList =
      '\x7b' :: ([',', ' '].intercalate (es.map fun e => (e.textIn names).toList) ++ ['\x7d']) := by
    simp [toList_commaSeparated]
  rw [htext, Expr.bare, Expr.allBare_eq]
  cases es with
  | nil => exact readFirst_emptySet
  | cons e es => exact readFirst_set (readMembers_of_reads hes)

theorem reads_bool {m : Node} (hp : p.Reads n names) : (Expr.bool m p).Reads n names := by
  refine .of_first rfl ?_
  have htext : ((Expr.bool m p).textIn names).toList = "bool(".toList ++ ((p.textIn names).toList ++ [')']) := by
    simp
  exact htext ▸ readFirst_bool hp.whole

theorem reads_free {m : Node} {y : String} (t : Option Ty) (hy : IsName y) (hnames : y ∉ names) :
    (Expr.free m y t).Reads n names := by
  refine .of_first rfl ?_
  have hfirst : (Formula.identifier n names y).ReadFirst n names y.toList := readFirst_identifier hy
  rwa [Formula.identifier, if_neg hnames] at hfirst

/-- No other declaration in scope has the name of the one that a bound identifier refers to. -/
theorem reads_bound {m : Node} {i : Nat} (t : Option Ty) (hi : i < names.length) (hnames : ∀ y ∈ names, IsName y)
    (hdistinct : names.Nodup) : (Expr.bound m i t).Reads n names := by
  refine .of_first rfl ?_
  have hfirst : (Formula.identifier n names names[i]).ReadFirst n names names[i].toList :=
    readFirst_identifier (hnames _ (List.getElem_mem hi))
  have htext : (Expr.bound m i t).textIn names = names[i] := by
    simp [boundText, hi]
  rw [Formula.identifier, if_pos (List.getElem_mem hi), hdistinct.idxOf_getElem] at hfirst
  rwa [htext]

theorem reads_quantifiedExpr {m : Node} (op : SetBinder) (hnames : ∀ d ∈ ds, IsName d.name) (hne : ds ≠ [])
    (hp : p.Reads n (Declaration.scope ds names)) (he : e.Reads n (Declaration.scope ds names)) :
    (Expr.quantified m op ds p e).Reads n names := by
  have hxs : ∀ y ∈ ds.map (·.name), IsName y := List.forall_mem_map.2 hnames
  have hxs' : ∀ y ∈ ds.map (·.name), IsWord y := fun y hy => (hxs y hy).1
  have hne' : ds.map (·.name) ≠ [] := by simpa using hne
  have hbare : ((Expr.quantified m op ds p e).bare n) =
      .quantified n op ((ds.map (·.name)).map (⟨·, 0⟩)) (p.bare n) (e.bare n) := by
    simp [Expr.bare, Function.comp_def]
  by_cases hop : op = .comprehension
  · subst hop
    refine .of_first rfl ?_
    have htext : ((Expr.quantified m .comprehension ds p e).textIn names).toList =
        '\x7b' :: (binderText (ds.map (·.name)) (p.textIn (Declaration.scope ds names)).toList
          (e.textIn (Declaration.scope ds names)).toList ++ ['\x7d']) := by
      simp [SetBinder.wrap, binderText, namesText_eq, Link.text, Link.symbol]
    rw [htext, hbare]
    exact readFirst_comprehension hxs hne' hp.whole he.whole
  · refine .of_compound (by simpa [Expr.isCompound] using hop) ?_
    have htext : ((Expr.quantified m op ds p e).textIn names).toList =
        op.opening :: binderText (ds.map (·.name)) (p.textIn (Declaration.scope ds names)).toList
          (e.textIn (Declaration.scope ds names)).toList := by
      cases op with
      | comprehension => exact absurd rfl hop
      | _ => simp [SetBinder.wrap, SetBinder.opening, binderText, namesText_eq, Link.text, Link.symbol]
    rw [htext, hbare]
    exact readAt_binder hop hxs' hne' hp.whole he.whole

/-! The kinds of predicates. -/

theorem reads_literal {m : Node} (b : Bool) : (Pred.literal m b).Reads n names := by
  refine .of_simple rfl ?_
  have htext : ((Pred.literal m b).textIn names).toList = [if b then '⊤' else '⊥'] := by
    cases b <;> rw [Pred.textIn] <;> simp
  rw [htext]
  exact readAt_literal b

theorem reads_not {m : Node} (hp : p.Reads n names) : (Pred.not m p).Reads n names := by
  refine .of_simple rfl ?_
  have htext : ((Pred.not m p).textIn names).toList = '¬' :: p.operandText names := by
    simp [Pred.operandText]
  exact htext ▸ readAt_not hp.operand

theorem reads_connective {m : Node} (op : Connective) (hp : p.Reads n names) (hq : q.Reads n names) :
    (Pred.connective m op p q).Reads n names := by
  refine .of_compound rfl ?_
  have htext : ((Pred.connective m op p q).textIn names).toList =
      p.operandText names ++ ((Link.connective op).text ++ q.operandText names) := by
    simp [Pred.operandText, Link.text, Link.symbol]
  exact htext ▸ readAt_pair (Link.connective_mem_all op) hp.operand hq.operand rfl

theorem reads_junction {m : Node} (op : Junction) (hlength : 2 ≤ ps.length) (hps : ∀ p ∈ ps, p.Reads n names) :
    (Pred.junction m op ps).Reads n names := by
  refine .of_compound rfl ?_
  have htext : ((Pred.junction m op ps).textIn names).toList =
      (Link.junction op).text.intercalate (ps.map (·.operandText names)) := by
    rw [Pred.textIn, ← Pred.operandTexts_eq]
    exact toList_linked (.junction op) _
  obtain ⟨p, p', ps, rfl⟩ := exists_cons_cons hlength
  obtain ⟨hp, hps⟩ := List.forall_mem_cons.1 hps
  have hparts : (Link.junction op).ReadParts n names (((p' :: ps).map (·.bare n)).map .pred)
      ((p' :: ps).map (·.operandText names)) := by
    rw [List.map_map]
    exact forall₂_map_of_forall_mem fun p hp => (hps p hp).operand
  have hjoined : Formula.joined? n (.junction op) (((p :: p' :: ps).map (·.bare n)).map .pred) = _ :=
    congrArg (Option.map _) (mapM_pred? _)
  rw [htext, Pred.bare, Pred.allBare_eq]
  exact readAt_joined (Link.junction_mem_all op) hp.operand hparts hjoined

theorem reads_comparison {m : Node} (op : Comparison) (he : e.Reads n names) (hx : x.Reads n names) :
    (Pred.comparison m op e x).Reads n names := by
  refine .of_simple rfl ?_
  have htext : ((Pred.comparison m op e x).textIn names).toList =
      (e.textIn names).toList ++ ((Link.comparison op).text ++ (x.textIn names).toList) := by
    simp [Link.text, Link.symbol]
  exact htext ▸ readAt_pair (Link.comparison_mem_all op) he.whole hx.whole rfl

theorem reads_partition {m : Node} (hne : es ≠ []) (hes : ∀ e ∈ es, e.Reads n names) :
    (Pred.partition m es).Reads n names := by
  refine .of_simple rfl ?_
  have htext : ((Pred.partition m es).textIn names).toList =
      "partition(".toList ++ ([',', ' '].intercalate (es.map fun e => (e.textIn names).toList) ++ [')']) := by
    simp [toList_commaSeparated]
  rw [htext, Pred.bare, Expr.allBare_eq]
  obtain ⟨e, es, rfl⟩ := List.exists_cons_of_ne_nil hne
  exact readAt_partition (readMembers_of_reads hes)

theorem reads_quantifiedPred {m : Node} (op : Quantifier) (hnames : ∀ d ∈ ds, IsName d.name) (hne : ds ≠ [])
    (hp : p.Reads n (Declaration.scope ds names)) : (Pred.quantified m op ds p).Reads n names := by
  refine .of_compound rfl ?_
  have hxs : ∀ y ∈ ds.map (·.name), IsWord y := List.forall_mem_map.2 fun d hd => (hnames d hd).1
  have hbare : ((Pred.quantified m op ds p).bare n) =
      .quantified n op ((ds.map (·.name)).map (⟨·, 0⟩)) (p.bare n) := by
    simp [Pred.bare, Function.comp_def]
  have htext : ((Pred.quantified m op ds p).textIn names).toList =
      op.opening :: (namesText (ds.map (·.name)) ++ '·' :: (p.textIn (Declaration.scope ds names)).toList) := by
    cases op <;> simp [Quantifier.symbol, Quantifier.opening, namesText_eq]
  rw [htext, hbare]
  exact readAt_quantified op hxs (by simpa using hne) hp.whole

/-! All formulas. -/

def Formula.isExtended : Formula → Bool
  | expr (.extended ..) | pred (.extended ..) => true
  | _ => false

/-- A node over core operators, with the declarations in scope, all of whose names can be told apart. -/
structure Occurrence.Legible (o : Occurrence) : Prop where
  formed : o.node.Formed
  core : o.node.isExtended = false
  names : ∀ d ∈ o.scope, IsName d.name
  distinct : (namesOf o.scope).Nodup
  bound : ∀ m i u, o.node = .expr (.bound m i u) → i < o.scope.length
  free : ∀ m y u, o.node = .expr (.free m y u) → IsName y ∧ y ∉ namesOf o.scope

theorem Declaration.scope_namesOf (ds sc : List Declaration) :
    Declaration.scope ds (namesOf sc) = namesOf (ds.reverse ++ sc) := by
  simp [Declaration.scope, namesOf]

mutual

theorem Expr.reads (n : Node) (sc : List Declaration) : ∀ e : Expr, (∀ o ∈ e.occurrences sc, o.Legible) →
    e.Reads n (namesOf sc)
  | .binary m op l r, h => by
    simp only [Expr.occurrences, List.forall_mem_cons, List.forall_mem_append] at h
    exact reads_binary op (l.reads n sc h.2.1) (r.reads n sc h.2.2)
  | .unary m op a, h => by
    simp only [Expr.occurrences, List.forall_mem_cons] at h
    exact reads_unary op (a.reads n sc h.2)
  | .assoc m op es, h => by
    simp only [Expr.occurrences, List.forall_mem_cons] at h
    exact reads_assoc op h.1.formed (Expr.allReads n sc es h.2)
  | .atom m a u, _ => reads_atom a u
  | .set m es u, h => by
    simp only [Expr.occurrences, List.forall_mem_cons] at h
    exact reads_set u (Expr.allReads n sc es h.2)
  | .bool m p, h => by
    simp only [Expr.occurrences, List.forall_mem_cons] at h
    exact reads_bool (p.reads n sc h.2)
  | .quantified m op ds p e, h => by
    simp only [Expr.occurrences, List.forall_mem_cons, List.forall_mem_append] at h
    obtain ⟨⟨hself, -⟩, hp, he⟩ := h
    have hnames := (hp _ (p.mem_occurrences_self _)).names
    refine reads_quantifiedExpr op (fun d hd => hnames d (by simp [hd])) hself.formed ?_ ?_
    · exact scope_namesOf ds sc ▸ p.reads n _ hp
    · exact scope_namesOf ds sc ▸ e.reads n _ he
  | .bound m i u, h => by
    have hself := h _ (List.mem_singleton_self _)
    have hi := hself.bound m i u rfl
    exact reads_bound u (by simpa using hi) (List.forall_mem_map.2 hself.names) hself.distinct
  | .free m y u, h => by
    obtain ⟨hy, hnames⟩ := (h _ (List.mem_singleton_self _)).free m y u rfl
    exact reads_free u hy hnames
  | .extended m ext es ps u, h => by
    have hcore := (h _ ((Expr.extended m ext es ps u).mem_occurrences_self sc)).core
    cases hcore

theorem Expr.allReads (n : Node) (sc : List Declaration) : ∀ es : List Expr,
    (∀ o ∈ Expr.allOccurrences sc es, o.Legible) → ∀ e ∈ es, e.Reads n (namesOf sc)
  | [], _ => fun _ he => by cases he
  | e :: es, h => by
    simp only [Expr.allOccurrences, List.forall_mem_append] at h
    exact List.forall_mem_cons.2 ⟨e.reads n sc h.1, Expr.allReads n sc es h.2⟩

theorem Pred.reads (n : Node) (sc : List Declaration) : ∀ p : Pred, (∀ o ∈ p.occurrences sc, o.Legible) →
    p.Reads n (namesOf sc)
  | .literal m b, _ => reads_literal b
  | .not m p, h => by
    simp only [Pred.occurrences, List.forall_mem_cons] at h
    exact reads_not (p.reads n sc h.2)
  | .connective m op p q, h => by
    simp only [Pred.occurrences, List.forall_mem_cons, List.forall_mem_append] at h
    exact reads_connective op (p.reads n sc h.2.1) (q.reads n sc h.2.2)
  | .junction m op ps, h => by
    simp only [Pred.occurrences, List.forall_mem_cons] at h
    exact reads_junction op h.1.formed (Pred.allReads n sc ps h.2)
  | .comparison m op l r, h => by
    simp only [Pred.occurrences, List.forall_mem_cons, List.forall_mem_append] at h
    exact reads_comparison op (l.reads n sc h.2.1) (r.reads n sc h.2.2)
  | .partition m es, h => by
    simp only [Pred.occurrences, List.forall_mem_cons] at h
    exact reads_partition h.1.formed (Expr.allReads n sc es h.2)
  | .quantified m op ds p, h => by
    simp only [Pred.occurrences, List.forall_mem_cons, List.forall_mem_append] at h
    obtain ⟨⟨hself, -⟩, hp⟩ := h
    have hnames := (hp _ (p.mem_occurrences_self _)).names
    refine reads_quantifiedPred op (fun d hd => hnames d (by simp [hd])) hself.formed ?_
    exact scope_namesOf ds sc ▸ p.reads n _ hp
  | .extended m ext es ps, h => by
    have hcore := (h _ ((Pred.extended m ext es ps).mem_occurrences_self sc)).core
    cases hcore

theorem Pred.allReads (n : Node) (sc : List Declaration) : ∀ ps : List Pred,
    (∀ o ∈ Pred.allOccurrences sc ps, o.Legible) → ∀ p ∈ ps, p.Reads n (namesOf sc)
  | [], _ => fun _ hp => by cases hp
  | p :: ps, h => by
    simp only [Pred.allOccurrences, List.forall_mem_append] at h
    exact List.forall_mem_cons.2 ⟨p.reads n sc h.1, Pred.allReads n sc ps h.2⟩

end

/-- A formula over core operators without loose bound identifiers. Its names are words that the text does not use
itself, and no declaration has the name of another one that is in scope with it or of a free identifier. -/
structure Formula.Legible (f : Formula) : Prop where
  core : ∀ g ∈ f.nodes, g.isExtended = false
  bound : ∀ o ∈ f.occurrences, ∀ m i u, o.node = .expr (.bound m i u) → i < o.scope.length
  free : ∀ y ∈ f.freeNames, IsName y
  declared : ∀ d, .decl d ∈ f.nodes → IsName d.name
  distinct : ∀ o ∈ f.occurrences, (namesOf o.scope).Nodup
  apart : ∀ d, .decl d ∈ f.nodes → d.name ∉ f.freeNames

theorem Formula.Legible.occurrences (h : f.Legible) (hformed : ∀ g ∈ f.nodes, g.Formed) :
    ∀ o ∈ f.occurrences, o.Legible := by
  intro o ho
  have hnode : o.node ∈ f.nodes := ⟨o, ho, rfl⟩
  have hdecl : ∀ d ∈ o.scope, .decl d ∈ f.nodes := fun d hd => by
    obtain ⟨i, hi⟩ := List.mem_iff_getElem?.1 hd
    exact Formula.exists_decl ho hi
  refine ⟨hformed _ hnode, h.core _ hnode, fun d hd => h.declared d (hdecl d hd), h.distinct o ho, h.bound o ho, ?_⟩
  intro m y u hy
  have hfree : y ∈ f.freeNames := Formula.mem_freeNames.2 ⟨m, u, hy ▸ hnode⟩
  refine ⟨h.free y hfree, fun hmem => ?_⟩
  obtain ⟨d, hd, rfl⟩ := List.mem_map.1 hmem
  exact h.apart d (hdecl d hd) hfree

/-- Expressions that are read from one text are structurally equal. -/
theorem Expr.Reads.same {e' : Expr} (h : e.Reads n names) (h' : e'.Reads n names)
    (htext : e.textIn names = e'.textIn names) : e.Same e' := by
  have hread := h.whole [] .nil
  rw [htext, h'.whole [] .nil] at hread
  obtain hbare : e'.bare n = e.bare n := by simpa using hread
  rw [Expr.Same, ← Expr.same_bare, ← hbare]
  exact Expr.same_refl _

theorem Pred.Reads.same {p' : Pred} (h : p.Reads n names) (h' : p'.Reads n names)
    (htext : p.textIn names = p'.textIn names) : p.Same p' := by
  have hread := h.whole [] .nil
  rw [htext, h'.whole [] .nil] at hread
  obtain hbare : p'.bare n = p.bare n := by simpa using hread
  rw [Pred.Same, ← Pred.same_bare, ← hbare]
  exact Pred.same_refl _

/-- `∃x·x = TRUE ∧ x = TRUE` -/
theorem Formula.legible_someTruth (m₁ m₂ m₃ m₄ m₅ m₆ m₇ m₈ : Node) (slot : Nat) (t t' u u' : Option Ty) :
    (Formula.pred (.quantified m₁ .exist [⟨"x", slot⟩] (.junction m₂ .land
      [.comparison m₃ .eq (.bound m₄ 0 t) (.atom m₅ .truth u),
        .comparison m₆ .eq (.bound m₇ 0 t') (.atom m₈ .truth u')]))).Legible := by
  have hx : IsName "x" := by decide
  constructor
  case core =>
    rintro g ⟨o, ho, rfl⟩
    simp only [occurrences, Pred.occurrences, Expr.occurrences, Pred.allOccurrences, List.map_cons, List.map_nil,
      List.cons_append, List.nil_append, List.append_nil, List.mem_cons, List.not_mem_nil, or_false] at ho
    rcases ho with rfl | rfl | rfl | rfl | rfl | rfl | rfl | rfl | rfl <;> rfl
  all_goals simp [nodes, occurrences, Pred.occurrences, Pred.allOccurrences, Expr.occurrences, freeNames, freeName?,
    Expr.freeName?, hx]

namespace Session

variable {s s' : Store} {held held' : Set Formula}

/-- What a session holds is formed in all its nodes. -/
theorem Moves.formed (h : Moves .empty ∅ s held) (hf : f ∈ held) : ∀ g ∈ f.nodes, g.Formed := fun _ hg =>
  h.sound.formed _ (f.nodes_subset h.sound.closed hf hg)

/-- The text of a formula over core operators determines its structure. If two expressions, or two predicates, that
were made in sessions have one text, then they are structurally equal, provided that both are over core operators and
their names can be told apart from each other and from the words of the text. -/
theorem same_of_text_eq (h : Moves .empty ∅ s held) (h' : Moves .empty ∅ s' held') :
    (∀ e e' : Expr, .expr e ∈ held → .expr e' ∈ held' → (Formula.expr e).Legible → (Formula.expr e').Legible →
      e.text = e'.text → e.Same e') ∧
    ∀ p p' : Pred, .pred p ∈ held → .pred p' ∈ held' → (Formula.pred p).Legible → (Formula.pred p').Legible →
      p.text = p'.text → p.Same p' := by
  let n : Node := ⟨bareFactory, 0⟩
  refine ⟨fun e e' he he' hlegible hlegible' htext => ?_, fun p p' hp hp' hlegible hlegible' htext => ?_⟩
  · have hread := e.reads n [] (hlegible.occurrences (h.formed he))
    exact hread.same (e'.reads n [] (hlegible'.occurrences (h'.formed he'))) htext
  · have hread := p.reads n [] (hlegible.occurrences (h.formed hp))
    exact hread.same (p'.reads n [] (hlegible'.occurrences (h'.formed hp'))) htext

def typedTruth (mark slot : Nat) : Pred :=
  .comparison ⟨bareFactory, mark⟩ .eq (.bound ⟨bareFactory, slot⟩ 0 (some .boolean))
    (.atom ⟨bareFactory, slot + 1⟩ .truth none)

/-- `∃x·x = TRUE ∧ x = TRUE`, where each equation has nodes of its own. -/
def someTruthApart : Pred :=
  .quantified ⟨bareFactory, 3⟩ .exist [⟨"x", 5⟩] (.junction ⟨bareFactory, 2⟩ .land [typedTruth 0 1, typedTruth 1 3])

def apartStore (exprs preds : Nat) : Store := ⟨.replicate exprs (some .boolean), .replicate preds true, 0⟩

theorem reached_someTruthApart : ∃ held, Moves .empty ∅ (apartStore 6 4) held ∧ .pred someTruthApart ∈ held := by
  obtain ⟨held₁, -, hx, h₁⟩ := Moves.empty.declare "x" (some .boolean)
  obtain ⟨held₂, hsub₂, hbound, h₂⟩ := h₁.makeLeaf bareFactory (.bound ⟨bareFactory, 1⟩ 0 (some .boolean)) _
    (apartStore 2 0) rfl trivial rfl
  obtain ⟨held₃, hsub₃, htruth, h₃⟩ := h₂.makeLeaf bareFactory (.atom ⟨bareFactory, 2⟩ .truth none) _
    (apartStore 3 0) rfl trivial rfl
  obtain ⟨held₄, hsub₄, hp, h₄⟩ := h₃.makePred bareFactory (typedTruth 0 1) (typedTruth 0 1) (apartStore 3 1)
    (List.forall_mem_cons.2 ⟨hsub₃ hbound, List.forall_mem_singleton.2 htruth⟩) trivial rfl
  obtain ⟨held₅, hsub₅, hbound, h₅⟩ := h₄.makeLeaf bareFactory (.bound ⟨bareFactory, 3⟩ 0 (some .boolean)) _
    (apartStore 4 1) rfl trivial rfl
  obtain ⟨held₆, hsub₆, htruth, h₆⟩ := h₅.makeLeaf bareFactory (.atom ⟨bareFactory, 4⟩ .truth none) _
    (apartStore 5 1) rfl trivial rfl
  obtain ⟨held₇, hsub₇, hq, h₇⟩ := h₆.makePred bareFactory (typedTruth 1 3) (typedTruth 1 3) (apartStore 5 2)
    (List.forall_mem_cons.2 ⟨hsub₆ hbound, List.forall_mem_singleton.2 htruth⟩) trivial rfl
  obtain ⟨held₈, hsub₈, hboth, h₈⟩ := h₇.makePred bareFactory
    (.junction ⟨bareFactory, 2⟩ .land [typedTruth 0 1, typedTruth 1 3]) _ (apartStore 5 3)
    (List.forall_mem_cons.2 ⟨hsub₇ (hsub₆ (hsub₅ hp)), List.forall_mem_singleton.2 hq⟩) trivial rfl
  have hx := hsub₈ (hsub₇ (hsub₆ (hsub₅ (hsub₄ (hsub₃ (hsub₂ hx))))))
  obtain ⟨held₉, -, hsome, h₉⟩ := h₈.makePred bareFactory (.quantified ⟨bareFactory, 3⟩ .exist [⟨"x", 0⟩] _)
    someTruthApart (apartStore 6 4) (List.forall_mem_cons.2 ⟨hx, List.forall_mem_singleton.2 hboth⟩) trivial rfl
  exact ⟨held₉, h₉, hsome⟩

/-- The same predicate from two sessions, with one node for both equations and with two. -/
theorem same_of_text_eq_someTruth : someTruth.text = someTruthApart.text ∧ someTruth.Same someTruthApart := by
  obtain ⟨held, h, hsome⟩ := reached_someTruth
  obtain ⟨held', h', happart⟩ := reached_someTruthApart
  refine ⟨rfl, ?_⟩
  exact (same_of_text_eq h h').2 _ _ hsome happart (Formula.legible_someTruth ..) (Formula.legible_someTruth ..) rfl

end Session
end SetLang
