import Mathlib.Data.List.Basic
import SetLang.Grammar.Shape
import SetLang.Proofs.Environment

/-! What the shaping of a sequence guarantees. The tree reads as the sequence, and each of its nodes is
one that the grammar allows: its first children are of higher operators, and its last child is one that
may follow it. A sequence that is refused holds an unknown operator or two operators that must not
meet. -/

namespace SetLang

variable {α : Type}

namespace OpTree

mutual

/-- Operands and operators from left to right, with an operator between any two of its children. -/
def reading : OpTree α → List (α ⊕ String)
  | leaf a => [.inl a]
  | node op children => readingAll op children

def readingAll (op : String) : List (OpTree α) → List (α ⊕ String)
  | [] => []
  | [c] => reading c
  | c :: d :: rest => reading c ++ .inr op :: readingAll op (d :: rest)

end

def op? : OpTree α → Option String
  | leaf _ => none
  | node op _ => some op

/-- Every node has two children, or more if its operator flattens. Its operator is lower than those of
all its children but the last, is the parent of that of the last one, and does not flatten into any. -/
inductive Shaped (g : Grammar) : OpTree α → Prop
  | leaf (a : α) : Shaped g (.leaf a)
  | node {op : String} {children : List (OpTree α)} :
    (∀ c ∈ children, Shaped g c) →
    2 ≤ children.length →
    (2 < children.length → g.flattens op) →
    (∀ c ∈ children.dropLast, ∀ q, c.op? = some q → g.hasPriority op q) →
    (∀ c, children.getLast? = some c → ∀ q, c.op? = some q → g.juxtapose op q = .ok .leftParent) →
    (g.flattens op → ∀ c ∈ children, c.op? ≠ some op) →
    Shaped g (.node op children)

end OpTree

/-- A first operand and pairs of an operator and an operand, from left to right. -/
def written (first : α) (rest : List (String × α)) : List (α ⊕ String) :=
  .inl first :: rest.flatMap fun p => [.inr p.1, .inl p.2]

namespace Priorities

theorem above_eq_nil_or_mem (p : Priorities) (op : String) :
    p.above op = [] ∨ (op, p.above op) ∈ p := by
  unfold above
  induction p with
  | nil => exact .inl rfl
  | cons e p ih =>
    obtain ⟨x, higher⟩ := e
    rw [lookup_cons_if]
    split_ifs with h
    · subst h
      exact .inr List.mem_cons_self
    · exact ih.imp_right (List.mem_cons_of_mem _)

/-- Priorities without a cyclic operator. -/
theorem not_contains_of_firstCyclic? {p : Priorities} (h : p.firstCyclic? = none) (op : String) :
    (p.above op).contains op = false := by
  rw [firstCyclic?, List.head?_eq_none_iff, Names.ofList, List.eq_nil_iff_forall_not_mem] at h
  rw [Bool.eq_false_iff]
  intro hop
  obtain hnil | hmem := p.above_eq_nil_or_mem op
  · simp [hnil] at hop
  · refine h op (Names.mem_insertAll.2 (.inr ?_))
    exact List.mem_map.2 ⟨_, List.mem_filter.2 ⟨hmem, hop⟩, rfl⟩

end Priorities

def Grammar.Acyclic (g : Grammar) : Prop := ∀ op, g.hasPriority op op = false

theorem GrammarDraft.acyclic_of_build {draft : GrammarDraft} {g : Grammar}
    (h : draft.build = .ok g) : g.Acyclic := by
  unfold build at h
  cases hcyclic : (Priorities.ofPairs draft.priorities).closure.firstCyclic? with
  | some op =>
    simp only [hcyclic] at h
    cases h
  | none =>
    simp only [hcyclic, Except.ok.injEq] at h
    subst h
    exact Priorities.not_contains_of_firstCyclic? hcyclic

namespace OpenNode

/-- What is read before the last child of an open node. -/
def lead (n : OpenNode α) : List (α ⊕ String) :=
  n.children.flatMap fun c => c.reading ++ [.inr n.op]

theorem reading_close (n : OpenNode α) (last : OpTree α) :
    (n.close last).reading = n.lead ++ last.reading := by
  obtain ⟨op, children⟩ := n
  simp only [close, lead, OpTree.reading]
  induction children with
  | nil => rfl
  | cons c children ih =>
    have hread : OpTree.readingAll op (c :: (children ++ [last])) =
        c.reading ++ .inr op :: OpTree.readingAll op (children ++ [last]) := by
      cases children <;> rfl
    rw [List.cons_append, hread, ih, List.flatMap_cons]
    simp only [List.append_assoc, List.cons_append, List.nil_append]

/-- The tree that comes of closing all open nodes, innermost first. -/
def closeAll (spine : List (OpenNode α)) (current : OpTree α) : OpTree α :=
  spine.foldl (fun tree n => n.close tree) current

theorem reading_closeAll (spine : List (OpenNode α)) (current : OpTree α) :
    (closeAll spine current).reading = spine.reverse.flatMap lead ++ current.reading := by
  induction spine generalizing current with
  | nil => rfl
  | cons n spine ih =>
    change (closeAll spine (n.close current)).reading = _
    rw [ih, reading_close, List.reverse_cons, List.flatMap_append, List.flatMap_singleton,
      List.append_assoc]

end OpenNode

namespace Grammar

variable {g : Grammar} {op l r : String} {spine spine' : List (OpenNode α)}
  {current current' tree : OpTree α} {rest : List (String × α)} {e : GrammarError}

/-! How two operators are juxtaposed. -/

theorem hasPriority_of_rightParent (h : g.juxtapose l r = .ok .rightParent) :
    g.hasPriority r l := by
  unfold juxtapose at h
  split_ifs at h with _ _ _ hlower
  all_goals cases h
  exact hlower

theorem flattens_of_flatten (h : g.juxtapose l r = .ok .flatten) : l = r ∧ g.flattens l := by
  unfold juxtapose at h
  split_ifs at h with _ _ _ _ hflat
  all_goals cases h
  exact hflat

/-- A grammar refuses two known operators only for being juxtaposed. -/
theorem eq_of_juxtapose_error (hl : g.isDeclared l) (hr : g.isDeclared r)
    (h : g.juxtapose l r = .error e) : e = .illegalJuxtaposition l r := by
  unfold juxtapose at h
  simp only [hl, hr, Bool.not_true, Bool.false_eq_true, if_false] at h
  split_ifs at h
  exact (Except.error.inj h).symm

theorem not_leftParent_self (hg : g.Acyclic) (hflat : g.flattens op) :
    g.juxtapose op op ≠ .ok .leftParent := by
  unfold juxtapose
  simp [hg op, hflat]
  split_ifs <;> simp

/-! The open nodes. -/

/-- The tree may be the last child of an open node of the operator. -/
def Follows (g : Grammar) (op : String) (t : OpTree α) : Prop :=
  ∀ q, t.op? = some q → g.juxtapose op q = .ok .leftParent

/-- The tree may be a child before the last one. -/
def Precedes (g : Grammar) (op : String) (t : OpTree α) : Prop :=
  ∀ q, t.op? = some q → g.hasPriority op q

/-- An open node has as many children as its operator allows, and waits for one more. -/
structure Opened (g : Grammar) (n : OpenNode α) : Prop where
  shaped : ∀ c ∈ n.children, c.Shaped g
  precedes : ∀ c ∈ n.children, g.Precedes n.op c
  nonempty : n.children ≠ []
  flattens : 1 < n.children.length → g.flattens n.op

/-- Open nodes, innermost first, with the tree that stands at the last child of the innermost one. -/
structure Growing (g : Grammar) (spine : List (OpenNode α)) (current : OpTree α) : Prop where
  opened : ∀ n ∈ spine, g.Opened n
  linked : spine.IsChain fun inner outer => g.juxtapose outer.op inner.op = .ok .leftParent
  shaped : current.Shaped g
  follows : ∀ n, spine.head? = some n → g.Follows n.op current

/-- Closing an open node gives an allowed node. -/
theorem Opened.close {n : OpenNode α} (hg : g.Acyclic) (h : g.Opened n) (hlast : current.Shaped g)
    (hfollows : g.Follows n.op current) : (n.close current).Shaped g := by
  have hcount : 0 < n.children.length := List.length_pos_of_ne_nil h.nonempty
  refine .node ?_ ?_ ?_ ?_ ?_ ?_
  · intro c hc
    rcases List.mem_append.1 hc with hc | hc
    · exact h.shaped c hc
    · rwa [List.mem_singleton.1 hc]
  · simp only [List.length_append, List.length_singleton]
    omega
  · intro hmany
    simp only [List.length_append, List.length_singleton] at hmany
    exact h.flattens (by omega)
  · rw [List.dropLast_concat]
    exact h.precedes
  · intro c hc
    rw [List.getLast?_concat, Option.some.injEq] at hc
    rwa [← hc]
  · intro hflat c hc hop
    rcases List.mem_append.1 hc with hc | hc
    · have hlower := h.precedes c hc _ hop
      rw [hg] at hlower
      cases hlower
    · rw [List.mem_singleton.1 hc] at hop
      exact not_leftParent_self hg hflat (hfollows _ hop)

namespace Growing

theorem leaf (a : α) : g.Growing [] (.leaf a) :=
  ⟨fun _ h => (by cases h), .nil, .leaf a, fun _ h => by cases h⟩

theorem close {top : OpenNode α} (hg : g.Acyclic) (h : g.Growing (top :: spine) current) :
    g.Growing spine (top.close current) := by
  have htop := h.opened top List.mem_cons_self
  refine ⟨fun n hn => h.opened n (List.mem_cons_of_mem _ hn), h.linked.of_cons,
    htop.close hg h.shaped (h.follows top rfl), fun n hn q hq => ?_⟩
  cases hq
  cases spine with
  | nil => cases hn
  | cons outer spine =>
    cases hn
    exact (List.isChain_cons_cons.1 h.linked).1

theorem shaped_closeAll (hg : g.Acyclic) (h : g.Growing spine current) :
    (OpenNode.closeAll spine current).Shaped g := by
  induction spine generalizing current with
  | nil => exact h.shaped
  | cons top spine ih => exact ih (h.close hg)

end Growing

def Meets (g : Grammar) (l r : String) : Prop := ∃ j, g.juxtapose l r = .ok j

/-- What closing nodes before an operator leaves: open nodes that the operator may follow, and a tree
that may be its first child. -/
structure Closed (g : Grammar) (op : String) (spine : List (OpenNode α)) (current : OpTree α) :
    Prop extends g.Growing spine current where
  precedes : g.Precedes op current
  meets : ∀ n, spine.head? = some n →
    g.juxtapose n.op op = .ok .leftParent ∨ g.juxtapose n.op op = .ok .flatten

theorem closeBefore_ok (hg : g.Acyclic) (h : g.Growing spine current)
    (hfirst : g.Precedes op current) (hrun : g.closeBefore op spine current = .ok (spine', current')) :
    g.Closed op spine' current' ∧
      OpenNode.closeAll spine' current' = OpenNode.closeAll spine current ∧
      ∀ n, spine.head? = some n → g.Meets n.op op := by
  induction spine generalizing current with
  | nil =>
    cases hrun
    exact ⟨⟨h, hfirst, fun n hn => by cases hn⟩, rfl, fun n hn => by cases hn⟩
  | cons top spine ih =>
    unfold closeBefore at hrun
    cases hj : g.juxtapose top.op op with
    | error e =>
      rw [hj] at hrun
      cases hrun
    | ok j =>
      have hmeets : ∀ n, (top :: spine).head? = some n → g.Meets n.op op := by
        rintro n ⟨⟩
        exact ⟨j, hj⟩
      rw [hj] at hrun
      cases j with
      | leftParent =>
        cases hrun
        exact ⟨⟨h, hfirst, fun n hn => by cases hn; exact .inl hj⟩, rfl, hmeets⟩
      | flatten =>
        cases hrun
        exact ⟨⟨h, hfirst, fun n hn => by cases hn; exact .inr hj⟩, rfl, hmeets⟩
      | rightParent =>
        have hprecedes : g.Precedes op (top.close current) := by
          rintro q ⟨⟩
          exact hasPriority_of_rightParent hj
        obtain ⟨hclosed, htree, -⟩ := ih (h.close hg) hprecedes hrun
        exact ⟨hclosed, htree, hmeets⟩

theorem closeBefore_error (hrun : g.closeBefore op spine current = .error e) :
    ∃ n ∈ spine, g.juxtapose n.op op = .error e := by
  induction spine generalizing current with
  | nil => cases hrun
  | cons top spine ih =>
    unfold closeBefore at hrun
    cases hj : g.juxtapose top.op op with
    | error e' =>
      rw [hj] at hrun
      cases hrun
      exact ⟨top, List.mem_cons_self, hj⟩
    | ok j =>
      rw [hj] at hrun
      cases j with
      | leftParent => cases hrun
      | flatten => cases hrun
      | rightParent =>
        obtain ⟨n, hn, hjn⟩ := ih hrun
        exact ⟨n, List.mem_cons_of_mem _ hn, hjn⟩

theorem closeBefore_suffix (hrun : g.closeBefore op spine current = .ok (spine', current')) :
    spine' <:+ spine := by
  induction spine generalizing current with
  | nil =>
    cases hrun
    exact List.suffix_rfl
  | cons top spine ih =>
    unfold closeBefore at hrun
    cases hj : g.juxtapose top.op op with
    | error e =>
      rw [hj] at hrun
      cases hrun
    | ok j =>
      rw [hj] at hrun
      cases j with
      | leftParent =>
        cases hrun
        exact List.suffix_rfl
      | flatten =>
        cases hrun
        exact List.suffix_rfl
      | rightParent => exact (ih hrun).trans (List.suffix_cons top spine)

theorem openOn_cons (top : OpenNode α) : g.openOn op (top :: spine) current =
    if top.op = op ∧ g.flattens op then ⟨top.op, top.children ++ [current]⟩ :: spine
    else ⟨op, [current]⟩ :: top :: spine := rfl

theorem op_of_mem_openOn {n : OpenNode α} (hn : n ∈ g.openOn op spine current) :
    n.op = op ∨ ∃ m ∈ spine, m.op = n.op := by
  cases spine with
  | nil => exact .inl (by rw [List.mem_singleton.1 hn])
  | cons top spine =>
    rw [openOn_cons] at hn
    split_ifs at hn with hflat
    · rcases List.mem_cons.1 hn with rfl | hn
      · exact .inl hflat.1
      · exact .inr ⟨n, List.mem_cons_of_mem _ hn, rfl⟩
    · rcases List.mem_cons.1 hn with rfl | hn
      · exact .inl rfl
      · exact .inr ⟨n, hn, rfl⟩

/-- Opening a node on the current tree, or adding the tree to a node that flattens, leaves an open node
of the operator. -/
theorem Closed.openOn (h : g.Closed op spine current) (a : α) :
    g.Growing (g.openOn op spine current) (.leaf a) ∧
      ∃ n, (g.openOn op spine current).head? = some n ∧ n.op = op := by
  have hnew : g.Opened ⟨op, [current]⟩ :=
    ⟨by simpa using h.shaped, by simpa using h.precedes, by simp, by simp⟩
  have hfollows : ∀ spine : List (OpenNode α), ∀ n, spine.head? = some n →
      g.Follows n.op (.leaf a) := fun _ _ _ _ hq => by cases hq
  cases spine with
  | nil => exact ⟨⟨List.forall_mem_singleton.2 hnew, .singleton _, .leaf a, hfollows _⟩, _, rfl, rfl⟩
  | cons top spine =>
    have htop := h.opened top List.mem_cons_self
    rw [openOn_cons]
    split_ifs with hflat
    · obtain ⟨hop, hflat⟩ := hflat
      refine ⟨⟨List.forall_mem_cons.2 ⟨⟨?_, ?_, by simp, fun _ => hop ▸ hflat⟩, fun n hn =>
        h.opened n (List.mem_cons_of_mem top hn)⟩, ?_, .leaf a, hfollows _⟩, _, rfl, hop⟩
      · simpa [or_imp, forall_and] using ⟨htop.shaped, h.shaped⟩
      · simpa [or_imp, forall_and] using ⟨htop.precedes, hop ▸ h.precedes⟩
      · cases spine with
        | nil => exact .singleton _
        | cons outer spine => exact List.isChain_cons_cons.2 (List.isChain_cons_cons.1 h.linked)
    · refine ⟨⟨List.forall_mem_cons.2 ⟨hnew, h.opened⟩, ?_, .leaf a, hfollows _⟩, _, rfl, rfl⟩
      refine List.isChain_cons_cons.2 ⟨?_, h.linked⟩
      rcases h.meets top rfl with hleft | hflatten
      · exact hleft
      · obtain ⟨hop, hflat'⟩ := flattens_of_flatten hflatten
        exact absurd ⟨hop, hop ▸ hflat'⟩ hflat

/-- What is read does not depend on whether the operator flattens. -/
theorem reading_openOn (g : Grammar) (op : String) (spine : List (OpenNode α)) (current : OpTree α)
    (a : α) : (OpenNode.closeAll (g.openOn op spine current) (.leaf a)).reading =
      (OpenNode.closeAll spine current).reading ++ [.inr op, .inl a] := by
  rw [OpenNode.reading_closeAll, OpenNode.reading_closeAll]
  cases spine with
  | nil => simp [openOn, OpenNode.lead, OpTree.reading]
  | cons top spine =>
    rw [openOn_cons]
    split_ifs with hflat
    · simp [OpenNode.lead, OpTree.reading, hflat.1]
    · simp [OpenNode.lead, OpTree.reading]

def pendingOps (spine : List (OpenNode α)) (rest : List (String × α)) : List String :=
  (spine.head?.map (·.op)).toList ++ rest.map (·.1)

theorem shapeFrom_ok (hg : g.Acyclic) (h : g.Growing spine current)
    (hleaf : current.op? = none) (hrun : g.shapeFrom spine current rest = .ok tree) :
    tree.Shaped g ∧ (pendingOps spine rest).IsChain g.Meets ∧
      tree.reading = (OpenNode.closeAll spine current).reading ++
        rest.flatMap fun p => [.inr p.1, .inl p.2] := by
  -- what is open grows rightly after every operand, with the last operator on top of it
  induction rest generalizing spine current with
  | nil =>
    cases hrun
    refine ⟨h.shaped_closeAll hg, ?_, by simp [OpenNode.closeAll]⟩
    cases spine <;> simp [pendingOps]
  | cons p rest ih =>
    obtain ⟨op, operand⟩ := p
    unfold shapeFrom at hrun
    cases hclose : g.closeBefore op spine current with
    | error e =>
      rw [hclose] at hrun
      cases hrun
    | ok x =>
      obtain ⟨spine', current'⟩ := x
      rw [hclose] at hrun
      have hfirst : g.Precedes op current := fun q hq => by
        rw [hleaf] at hq
        cases hq
      obtain ⟨hclosed, htree, hmeets⟩ := closeBefore_ok hg h hfirst hclose
      obtain ⟨hgrowing, n, hn, hop⟩ := hclosed.openOn operand
      obtain ⟨hshaped, hchain, hread⟩ := ih hgrowing rfl hrun
      refine ⟨hshaped, ?_, ?_⟩
      · have hchain : (op :: rest.map (·.1)).IsChain g.Meets := by
          simpa [pendingOps, hn, hop] using hchain
        cases spine with
        | nil => simpa [pendingOps] using hchain
        | cons top spine =>
          simpa [pendingOps, List.isChain_cons_cons] using ⟨hmeets top rfl, hchain⟩
      · rw [hread, reading_openOn, htree]
        simp

/-- A sequence of known operators is refused for two that must not meet, in this order. -/
theorem shapeFrom_error (hspine : ∀ n ∈ spine, g.isDeclared n.op)
    (hrest : ∀ p ∈ rest, g.isDeclared p.1) (hrun : g.shapeFrom spine current rest = .error e) :
    ∃ l r, e = .illegalJuxtaposition l r ∧ g.juxtapose l r = .error e ∧
      ((∃ n ∈ spine, n.op = l) ∧ r ∈ rest.map (·.1) ∨ [l, r].Sublist (rest.map (·.1))) := by
  induction rest generalizing spine current with
  | nil => cases hrun
  | cons p rest ih =>
    obtain ⟨op, operand⟩ := p
    rw [List.forall_mem_cons] at hrest
    unfold shapeFrom at hrun
    cases hclose : g.closeBefore op spine current with
    | error e' =>
      rw [hclose] at hrun
      cases hrun
      obtain ⟨n, hn, hj⟩ := closeBefore_error hclose
      exact ⟨n.op, op, eq_of_juxtapose_error (hspine n hn) hrest.1 hj, hj,
        .inl ⟨⟨n, hn, rfl⟩, List.mem_cons_self⟩⟩
    | ok x =>
      obtain ⟨spine', current'⟩ := x
      rw [hclose] at hrun
      -- what is open afterwards was open before, but for the operator itself
      have hop : ∀ n ∈ g.openOn op spine' current', n.op = op ∨ ∃ m ∈ spine, m.op = n.op :=
        fun n hn => (op_of_mem_openOn hn).imp_right fun ⟨m, hm, heq⟩ =>
          ⟨m, (closeBefore_suffix hclose).subset hm, heq⟩
      have hknown : ∀ n ∈ g.openOn op spine' current', g.isDeclared n.op := by
        intro n hn
        rcases hop n hn with heq | ⟨m, hm, heq⟩
        · rw [heq]
          exact hrest.1
        · rw [← heq]
          exact hspine m hm
      obtain ⟨l, r, he, hj, ⟨⟨n, hn, hnl⟩, hr⟩ | hlater⟩ := ih hknown hrest.2 hrun
      · refine ⟨l, r, he, hj, ?_⟩
        rcases hop n hn with heq | ⟨m, hm, heq⟩
        · right
          obtain rfl : op = l := heq.symm.trans hnl
          exact List.cons_sublist_cons.2 (List.singleton_sublist.2 hr)
        · exact .inl ⟨⟨m, hm, heq.trans hnl⟩, List.mem_cons_of_mem _ hr⟩
      · exact ⟨l, r, he, hj, .inr (hlater.cons _)⟩

/-- What a grammar shapes reads as it was written, and is allowed at every node and between any two
operators in a row. What it refuses holds an unknown operator, of which the first is named, or two
operators that must not meet, of which the left one comes first. -/
theorem shape_sound {draft : GrammarDraft} (h : draft.build = .ok g) (first : α)
    (rest : List (String × α)) :
    (∀ tree, g.shape first rest = .ok tree → tree.reading = written first rest ∧ tree.Shaped g ∧
      (rest.map (·.1)).IsChain g.Meets) ∧
    (∀ op, g.shape first rest = .error (.unknownOperator op) → ∃ before a after,
      rest = before ++ (op, a) :: after ∧ g.isDeclared op = false ∧
        ∀ p ∈ before, g.isDeclared p.1) ∧
    (∀ l r, g.shape first rest = .error (.illegalJuxtaposition l r) →
      [l, r].Sublist (rest.map (·.1)) ∧
        g.juxtapose l r = .error (.illegalJuxtaposition l r)) := by
  have hg := GrammarDraft.acyclic_of_build h
  unfold shape
  cases hfind : rest.find? fun p => !g.isDeclared p.1 with
  | some p =>
    refine ⟨fun _ ht => (by cases ht), fun op hop => ?_, fun _ _ he => (by cases he)⟩
    cases hop
    obtain ⟨hp, before, after, rfl, hbefore⟩ := List.find?_eq_some_iff_append.1 hfind
    exact ⟨before, p.2, after, rfl, by simpa using hp, fun q hq => by simpa using hbefore q hq⟩
  | none =>
    have hknown : ∀ p ∈ rest, g.isDeclared p.1 := by simpa using hfind
    have herror : ∀ e, g.shapeFrom [] (.leaf first) rest = .error e → ∃ l r,
        e = .illegalJuxtaposition l r ∧ g.juxtapose l r = .error e ∧
          [l, r].Sublist (rest.map (·.1)) := by
      intro e he
      obtain ⟨l, r, hel, hj, ⟨⟨n, hn, -⟩, -⟩ | hsub⟩ := shapeFrom_error (by simp) hknown he
      · cases hn
      · exact ⟨l, r, hel, hj, hsub⟩
    refine ⟨fun tree ht => ?_, fun op hop => ?_, fun l r hlr => ?_⟩
    · obtain ⟨hshaped, hchain, hread⟩ := shapeFrom_ok hg (.leaf first) rfl ht
      exact ⟨hread, hshaped, hchain⟩
    · obtain ⟨l, r, hel, -⟩ := herror _ hop
      cases hel
    · obtain ⟨l', r', hel, hj, hsub⟩ := herror _ hlr
      cases hel
      exact ⟨hsub, hj⟩

def ringDraft : GrammarDraft where
  shapes := [("plus", .binary), ("times", .associative)]
  priorities := [("plus", "times")]
  compatibilities := [("plus", "plus")]
  flattening := ["times"]

def ringGrammar : Grammar where
  shapes := [("plus", .binary), ("times", .associative)]
  priorities := [("plus", ["times"])]
  compatibilities := [("plus", "plus")]
  flattening := ["times"]

theorem shape_ring : ringDraft.build = .ok ringGrammar ∧
    ∃ tree, ringGrammar.shape 1 [("times", 2), ("times", 3), ("plus", 4), ("plus", 5)] = .ok tree ∧
      tree.reading = written 1 [("times", 2), ("times", 3), ("plus", 4), ("plus", 5)] ∧
      tree.Shaped ringGrammar := by
  have h : ringDraft.build = .ok ringGrammar := by rfl
  obtain ⟨hok, -, -⟩ :=
    shape_sound h 1 [("times", 2), ("times", 3), ("plus", 4), ("plus", 5)]
  obtain ⟨hread, hshaped, -⟩ := hok _ rfl
  exact ⟨h, _, rfl, hread, hshaped⟩

end Grammar
end SetLang
