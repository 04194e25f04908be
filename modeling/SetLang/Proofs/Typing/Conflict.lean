import SetLang.Proofs.Run
import SetLang.Proofs.Typing.Rules

/-! What the rules of the checker can report: types that do not fit together. That a type stays open, or
that an identifier has no declaration, is not found while equations are collected. -/

namespace SetLang

/-- Two types do not fit together, or one would contain itself. -/
def TypeError.IsConflict : TypeError → Prop
  | mismatch .. | infinite .. => True
  | unsolved _ | unboundIdentifier _ => False

abbrev Solve.Conflicts {α : Type} (x : Solve α) : Prop :=
  Guards (fun _ => True) (fun fault => ∀ e, fault = .error e → e.IsConflict) x fun _ => True

namespace Solve

variable {α β : Type}

/-- Reading the solver fails by misuse only. -/
theorem guards_read {E : Fault TypeError → Prop} (h : ∀ m, E (.misuse m)) (f : Unifier → Option α) :
    Guards (fun _ => True) E (read f) fun _ => True := by
  refine Guards.get_bind fun u _ => ?_
  cases f u with
  | some a => exact Guards.pure trivial
  | none => exact Guards.throw (h _)

namespace Conflicts

theorem pure (a : α) : Conflicts (pure a) := Guards.pure trivial

theorem misuse (m : Misuse) : Conflicts (throw (.misuse m) : Solve α) :=
  Guards.throw fun _ h => by cases h

theorem error {e : TypeError} (h : e.IsConflict) : Conflicts (throw (.error e) : Solve α) :=
  Guards.throw fun _ he => by cases he; exact h

theorem modify (g : Unifier → Unifier) : Conflicts (modify g) := Guards.modify fun _ _ => trivial

theorem bind {x : Solve α} {f : α → Solve β} (h : Conflicts x) (k : ∀ a, Conflicts (f a)) :
    Conflicts (x >>= f) := Guards.bind h fun a _ => k a

theorem read (f : Unifier → Option α) : Conflicts (read f) := guards_read (fun _ _ h => by cases h) f

theorem fresh : Conflicts fresh :=
  Guards.get_bind fun _ _ => (modify _).bind fun _ => pure _

theorem mismatch (a b : TyTerm) : Conflicts (mismatch a b) :=
  (read _).bind fun a => (read _).bind fun b => error (e := .mismatch a b) trivial

theorem bindVar (v : TypeVar) (t : TyTerm) : Conflicts (bindVar v t) := by
  refine (read _).bind fun resolved => ?_
  split_ifs
  · exact (error (e := .infinite v resolved) trivial).bind fun _ => modify _
  · exact (pure _).bind fun _ => modify _

theorem unifyHeads {solve : TyTerm → TyTerm → Solve Unit} (h : ∀ a b, Conflicts (solve a b))
    (a b : TyTerm) : Conflicts (unifyHeads solve a b) := by
  unfold Solve.unifyHeads
  split
  · exact modify _
  · exact bindVar _ _
  · exact bindVar _ _
  · exact pure _
  · split_ifs
    · exact pure _
    · exact mismatch _ _
  · exact h _ _
  · exact (h _ _).bind fun _ => h _ _
  · split_ifs
    · exact Guards.forM fun _ _ => h _ _
    · exact mismatch _ _
  · exact mismatch _ _

theorem unifyWithin (depth : Nat) (a b : TyTerm) : Conflicts (unifyWithin depth a b) := by
  induction depth generalizing a b with
  | zero => exact mismatch a b
  | succ depth ih => exact (read _).bind fun a => (read _).bind fun b => unifyHeads ih a b

theorem unify (a b : TyTerm) : Conflicts (unify a b) :=
  Guards.get_bind fun _ _ => unifyWithin _ a b

theorem unifyAll (terms : List TyTerm) (t : TyTerm) : Conflicts (terms.forM (Solve.unify · t)) :=
  Guards.forM fun a _ => unify a t

theorem extend (r : Renaming) (vars : List TypeVar) : Conflicts (extend r vars) := by
  refine Guards.foldlM trivial fun r _ v _ => ?_
  split_ifs
  · exact pure r
  · exact fresh.bind fun t => pure _

theorem instantiateWith (pattern : TyTerm) (r : Renaming) : Conflicts (instantiateWith pattern r) :=
  (extend r _).bind fun _ => pure _

theorem posed (vars : List TypeVar) (eqs : List (TyTerm × TyTerm)) (result : TyTerm) :
    Conflicts (posed vars eqs result) :=
  (extend [] vars).bind fun _ => Guards.bind (Guards.forM fun _ _ => unify _ _) fun _ _ => pure _

theorem set : Conflicts Solve.set := fresh.bind fun _ => pure _

end Conflicts

/-- A term whose type is asked for can only turn out to be open. -/
theorem unsolved_of_solve {t : TyTerm} {u : Unifier} {e : TypeError}
    (h : ((solve t).run u).1 = .error (.error e)) : ∃ r, e = .unsolved r := by
  have hguards : Guards (fun _ => True) (fun fault => ∀ e, fault = .error e → ∃ r, e = .unsolved r)
      (solve t) fun _ => True := by
    refine (guards_read (fun _ _ h => by cases h) _).bind fun r _ => ?_
    cases TyTerm.toTy? r with
    | some ty => exact Guards.pure trivial
    | none => exact Guards.throw fun e he => ⟨r, by cases he; rfl⟩
  exact hguards.faults u trivial _ h e rfl
end Solve

open Solve

theorem BinaryOp.conflicts_rule (op : BinaryOp) (a b : TyTerm) : Conflicts (op.rule a b) := by
  by_cases h : op = .maplet
  · subst h
    exact .pure _
  · obtain ⟨vars, p, q, r, -, -, hrule⟩ := rule_eq_posed h a b
    rw [hrule]
    exact .posed _ _ _

theorem UnaryOp.conflicts_rule (op : UnaryOp) (a : TyTerm) : Conflicts (op.rule a) := by
  obtain ⟨vars, p, r, -, -, hrule⟩ := op.rule_eq_posed a
  rw [hrule]
  exact .posed _ _ _

theorem AssocOp.conflicts_rule (op : AssocOp) (terms : List TyTerm) : Conflicts (op.rule terms) := by
  obtain ⟨vars, p, -, -, hrule⟩ := op.rule_eq_posed terms
  rw [hrule]
  exact .posed _ _ _

theorem Atom.conflicts_rule (a : Atom) : Conflicts a.rule := by
  cases a with
  | emptySet => exact .set
  | _ => exact .pure _

theorem SetBinder.conflicts_rule (op : SetBinder) (body : TyTerm) : Conflicts (op.rule body) := by
  cases op with
  | comprehension => exact .pure _
  | _ => exact Conflicts.set.bind fun set => (Conflicts.unify body set).bind fun _ => .pure set

theorem Comparison.conflicts_rule (op : Comparison) (a b : TyTerm) : Conflicts (op.rule a b) := by
  cases op with
  | eq | ne | mem | notMem => exact .unify _ _
  | _ => exact Conflicts.set.bind fun set => (Conflicts.unify a set).bind fun _ => .unify b set

namespace Extension

theorem conflicts_matchPatterns (terms patterns : List TyTerm) (r : Renaming) :
    Conflicts (matchPatterns terms patterns r) := by
  induction terms generalizing patterns r with
  | nil => exact .pure r
  | cons term terms ih =>
    cases patterns with
    | nil => exact .pure r
    | cons pattern patterns =>
      exact (Conflicts.instantiateWith pattern r).bind fun _ =>
        (Conflicts.unify _ _).bind fun _ => ih _ _

theorem conflicts_matchArguments (params : List TyTerm) (own : TyTerm) (terms : List TyTerm)
    (arguments : List Argument) : Conflicts (matchArguments params own terms arguments) := by
  induction terms generalizing arguments with
  | nil =>
    cases arguments with
    | nil | cons => exact .pure _
  | cons term terms ih =>
    cases arguments with
    | nil => exact .pure _
    | cons a arguments =>
      unfold matchArguments
      cases ArgTy.instantiate? a.type params own with
      | some expected => exact (Conflicts.unify term expected).bind fun _ => ih arguments
      | none => exact (Conflicts.misuse _).bind fun _ => ih arguments

theorem conflicts_datatypeRule (d : Datatype) (role : DatatypeRole) (terms : List TyTerm) :
    Conflicts (datatypeRule d role terms) := by
  refine Conflicts.bind (Guards.mapM fun _ _ => Conflicts.fresh) fun params => ?_
  cases role with
  | typeConstructor =>
    exact Conflicts.bind (Guards.forM fun _ _ => Conflicts.unify _ _) fun _ => .pure _
  | constructor index =>
    simp only
    split
    · exact (conflicts_matchArguments ..).bind fun _ => .pure _
    · exact .misuse _
  | destructor index argument =>
    simp only
    split
    · refine (Conflicts.unify _ _).bind fun _ => ?_
      split
      · split
        · exact .pure _
        · exact .misuse _
      · exact .misuse _
    · exact .misuse _

theorem conflicts_rule (e : Extension) (terms : List TyTerm) : Conflicts (e.rule terms) := by
  unfold rule
  split
  · refine (conflicts_matchPatterns ..).bind fun r => ?_
    split
    · exact (Conflicts.instantiateWith ..).bind fun _ => .pure _
    · exact .pure _
  · exact (conflicts_datatypeRule ..).bind fun _ => .pure _

end Extension

theorem Expr.conflicts_rule (e : Expr) (terms : List TyTerm) : Conflicts (e.rule terms) := by
  unfold rule
  split
  · exact BinaryOp.conflicts_rule ..
  · exact UnaryOp.conflicts_rule ..
  · exact AssocOp.conflicts_rule ..
  · exact Atom.conflicts_rule _
  · exact Conflicts.fresh.bind fun member => (Conflicts.unifyAll _ member).bind fun _ => .pure _
  · exact .pure _
  · split
    · exact SetBinder.conflicts_rule ..
    · exact .misuse _
  · exact .fresh
  · exact .fresh
  · refine (Extension.conflicts_rule ..).bind fun result => ?_
    cases result with
    | some _ => exact .pure _
    | none => exact .fresh
  · exact .misuse _

theorem Pred.conflicts_rule (p : Pred) (terms : List TyTerm) : Conflicts (p.rule terms) := by
  unfold rule
  split
  · exact Comparison.conflicts_rule ..
  · exact .misuse _
  · exact Conflicts.set.bind fun set => .unifyAll _ set
  · exact (Extension.conflicts_rule ..).bind fun _ => .pure _
  · exact .pure _

end SetLang
