import Mathlib.Data.List.Induction
import SetLang.Grammar.Core
import SetLang.Proofs.Grammar.Priorities
import SetLang.Proofs.Grammar.Shape

/-! Shaping is exact where compatible operators that are not ordered stand on one level: what is lower than
one is lower than the other, and the same for what is higher. Then a sequence has at most one admissible
tree, and shaping finds it. -/

namespace SetLang

variable {α : Type}

/-- Every node has two children, or more if its operator flattens. Its operator is lower than those of
all its children but the last, and is the parent of that of the last one. -/
inductive OpTree.Admissible (g : Grammar) : OpTree α → Prop
  | leaf (a : α) : Admissible g (.leaf a)
  | node {op : String} {children : List (OpTree α)} :
    (∀ c ∈ children, Admissible g c) →
    2 ≤ children.length →
    (2 < children.length → g.flattens op) →
    (∀ c ∈ children.dropLast, ∀ q, c.op? = some q → g.hasPriority op q) →
    (∀ c, children.getLast? = some c → ∀ q, c.op? = some q → g.juxtapose op q = .ok .leftParent) →
    Admissible g (.node op children)

theorem OpTree.Shaped.admissible {g : Grammar} {t : OpTree α} (h : t.Shaped g) : t.Admissible g := by
  induction h with
  | leaf a => exact .leaf a
  | node _ hmany hflat hinit hlast _ ih => exact .node ih hmany hflat hinit hlast

def OpTree.Known (g : Grammar) (t : OpTree α) : Prop := ∀ op, .inr op ∈ t.reading → g.isDeclared op

namespace GrammarDraft

variable {draft : GrammarDraft} {g : Grammar} {lower higher : String}

theorem eq_of_build (h : draft.build = .ok g) : g = ⟨draft.shapes,
    (Priorities.ofPairs draft.priorities).closure, draft.compatibilities, draft.flattening⟩ := by
  unfold build at h
  dsimp only at h
  split at h
  · cases h
  · exact (Except.ok.inj h).symm

/-- Priorities of a frozen grammar are chains of those that were declared. -/
theorem hasPriority_iff_of_build (h : draft.build = .ok g) : g.hasPriority lower higher ↔
    Relation.TransGen (fun l r => (l, r) ∈ draft.priorities) lower higher := by
  rw [← Priorities.below_closure_ofPairs, Grammar.hasPriority, eq_of_build h, List.contains_iff_mem]
  rfl

end GrammarDraft

namespace Grammar

variable {g : Grammar} {op l r q : String}

/-- The same operators are lower than both, and the same ones are higher. -/
def SameLevel (g : Grammar) (a b : String) : Prop :=
  ∀ c, (g.hasPriority c a ↔ g.hasPriority c b) ∧ (g.hasPriority a c ↔ g.hasPriority b c)

/-- Compatible operators are ordered or stand on one level. -/
def Levelled (g : Grammar) : Prop :=
  ∀ a b, a ≠ b → g.isCompatible a b → ¬ g.hasPriority a b → ¬ g.hasPriority b a → g.SameLevel a b

structure Layered (g : Grammar) : Prop where
  acyclic : g.Acyclic
  trans : ∀ a b c, g.hasPriority a b → g.hasPriority b c → g.hasPriority a c
  levelled : g.Levelled

theorem layered_of_build {draft : GrammarDraft} (h : draft.build = .ok g) (hg : g.Levelled) :
    g.Layered := by
  refine ⟨GrammarDraft.acyclic_of_build h, fun a b c hab hbc => ?_, hg⟩
  rw [GrammarDraft.hasPriority_iff_of_build h] at hab hbc ⊢
  exact hab.trans hbc

/-! How two operators are juxtaposed. -/

theorem juxtapose_of_hasPriority (hl : g.isDeclared l) (hr : g.isDeclared r)
    (h : g.hasPriority l r) : g.juxtapose l r = .ok .leftParent := by
  simp [juxtapose, hl, hr, h]

theorem isDeclared_of_juxtapose {j : Juxtaposition} (h : g.juxtapose l r = .ok j) :
    g.isDeclared l ∧ g.isDeclared r := by
  unfold juxtapose at h
  split_ifs at h with hl hr
  all_goals exact ⟨by simpa using hl, by simpa using hr⟩

namespace Layered

theorem juxtapose_of_hasPriority (hg : g.Layered) (hl : g.isDeclared l) (hr : g.isDeclared r)
    (h : g.hasPriority r l) : g.juxtapose l r = .ok .rightParent := by
  have hnot : g.hasPriority l r = false := Bool.eq_false_iff.2 fun hlr => by
    have hcycle := hg.trans l r l hlr h
    rw [hg.acyclic l] at hcycle
    cases hcycle
  simp [juxtapose, hl, hr, hnot, h]

theorem juxtapose_self (hg : g.Layered) (hop : g.isDeclared op) (hflat : g.flattens op) :
    g.juxtapose op op = .ok .flatten := by
  simp [juxtapose, hop, hg.acyclic op, hflat]

/-- A parent on the left is lower than the operator on the right, or on its level. -/
theorem lower_or_sameLevel (hg : g.Layered) (h : g.juxtapose l r = .ok .leftParent) :
    g.hasPriority l r ∨ g.SameLevel l r := by
  by_cases heq : l = r
  · exact .inr fun c => by rw [heq]; exact ⟨Iff.rfl, Iff.rfl⟩
  unfold juxtapose at h
  split_ifs at h with _ _ hlower hhigher hflat hcompatible
  · exact .inl hlower
  · cases h
  · exact absurd hflat.1 heq
  · exact .inr (hg.levelled l r heq hcompatible hlower hhigher)

theorem hasPriority_right (hg : g.Layered) (h : g.juxtapose l r = .ok .leftParent)
    (hop : g.hasPriority op l) : g.hasPriority op r := by
  rcases hg.lower_or_sameLevel h with hlower | hlevel
  · exact hg.trans op l r hop hlower
  · exact (hlevel op).1.1 hop

theorem hasPriority_left (hg : g.Layered) (h : g.juxtapose l r = .ok .leftParent)
    (hop : g.hasPriority r op) : g.hasPriority l op := by
  rcases hg.lower_or_sameLevel h with hlower | hlevel
  · exact hg.trans l r op hlower hop
  · exact (hlevel op).2.2 hop

end Layered

/-! How an admissible tree is read. -/

variable {t : OpTree α} {first last : α} {rest : List (String × α)} {spine outer edge : List (OpenNode α)}
  {current : OpTree α}

def Receives (g : Grammar) (spine : List (OpenNode α)) (op : String) : Prop :=
  ∀ n, spine.head? = some n → g.juxtapose n.op op = .ok .leftParent

/-- Shaping reads the tree as the last child of the open nodes: after its last operand the open nodes of
its own right edge stand on them, and these are closed by every operator that may have the tree as an
earlier child. -/
structure Reads (g : Grammar) (t : OpTree α) (first : α) (rest : List (String × α))
    (edge : List (OpenNode α)) (last : α) : Prop where
  reading : t.reading = written first rest
  closes : OpenNode.closeAll edge (.leaf last) = t
  root : ∀ q, t.op? = some q → g.isDeclared q
  known : ∀ n ∈ edge, g.isDeclared n.op
  above : ∀ n ∈ edge, ∀ op, g.Precedes op t → g.hasPriority op n.op
  run : ∀ outer more, (∀ q, t.op? = some q → g.Receives outer q) →
    g.shapeFrom outer (.leaf first) (rest ++ more) = g.shapeFrom (edge ++ outer) (.leaf last) more

theorem closeBefore_append (h : ∀ n ∈ spine, g.juxtapose n.op op = .ok .rightParent) :
    g.closeBefore op (spine ++ outer) current =
      g.closeBefore op outer (OpenNode.closeAll spine current) := by
  induction spine generalizing current with
  | nil => rfl
  | cons n spine ih =>
    rw [List.forall_mem_cons] at h
    rw [List.cons_append, closeBefore, h.1]
    exact ih h.2

theorem closeBefore_of_receives (h : g.Receives outer op) :
    g.closeBefore op outer current = .ok (outer, current) := by
  cases outer with
  | nil => rfl
  | cons n outer =>
    rw [closeBefore, h n rfl]
    rfl

theorem closeBefore_of_flattens {n : OpenNode α} (hg : g.Layered) (hop : g.isDeclared n.op)
    (hflat : g.flattens n.op) :
    g.closeBefore n.op (n :: outer) current = .ok (n :: outer, current) := by
  rw [closeBefore, hg.juxtapose_self hop hflat]
  rfl

theorem openOn_of_receives (hg : g.Layered) (h : g.Receives outer op) :
    g.openOn op outer t = ⟨op, [t]⟩ :: outer := by
  cases outer with
  | nil => rfl
  | cons n outer =>
    rw [openOn_cons, if_neg]
    rintro ⟨heq, hflat⟩
    exact not_leftParent_self hg.acyclic hflat (heq ▸ h n rfl)

theorem shapeFrom_cons {b : α} (more : List (String × α))
    (h : g.closeBefore op spine current = .ok (outer, t)) :
    g.shapeFrom spine current ((op, b) :: more) =
      g.shapeFrom (g.openOn op outer t) (.leaf b) more := by
  rw [shapeFrom, h]
  rfl

theorem written_append (first : α) (rest more : List (String × α)) :
    written first (rest ++ more) =
      written first rest ++ more.flatMap fun p => [.inr p.1, .inl p.2] := by
  simp [written]

namespace Reads

theorem closeBefore (h : g.Reads t first rest edge last) (hg : g.Layered) (hop : g.isDeclared op)
    (hprecedes : g.Precedes op t) :
    g.closeBefore op (edge ++ outer) (.leaf last) = g.closeBefore op outer t := by
  rw [closeBefore_append fun n hn => hg.juxtapose_of_hasPriority (h.known n hn) hop
    (h.above n hn op hprecedes), h.closes]

theorem run_first (h : g.Reads t first rest edge last) (hg : g.Layered) (hop : g.isDeclared op)
    (hprecedes : g.Precedes op t) (hreceives : g.Receives outer op) (b : α)
    (more : List (String × α)) : g.shapeFrom outer (.leaf first) (rest ++ (op, b) :: more) =
      g.shapeFrom (⟨op, [t]⟩ :: outer) (.leaf b) more := by
  have hroot : ∀ q, t.op? = some q → g.Receives outer q := fun q hq n hn =>
    have hn := hreceives n hn
    Grammar.juxtapose_of_hasPriority (isDeclared_of_juxtapose hn).1 (h.root q hq)
      (hg.hasPriority_left hn (hprecedes q hq))
  have hclose := (h.closeBefore hg hop hprecedes).trans (closeBefore_of_receives hreceives)
  rw [h.run outer _ hroot, shapeFrom_cons more hclose, openOn_of_receives hg hreceives]

/-- A later child is read, and the operator adds it to its node. -/
theorem run_next {children : List (OpTree α)} (h : g.Reads t first rest edge last) (hg : g.Layered)
    (hop : g.isDeclared op) (hprecedes : g.Precedes op t) (hflat : g.flattens op) (b : α)
    (more : List (String × α)) :
    g.shapeFrom (⟨op, children⟩ :: outer) (.leaf first) (rest ++ (op, b) :: more) =
      g.shapeFrom (⟨op, children ++ [t]⟩ :: outer) (.leaf b) more := by
  have hroot : ∀ q, t.op? = some q → g.Receives (⟨op, children⟩ :: outer) q := by
    rintro q hq _ ⟨⟩
    exact Grammar.juxtapose_of_hasPriority hop (h.root q hq) (hprecedes q hq)
  have hclose : g.closeBefore op (edge ++ ⟨op, children⟩ :: outer) (.leaf last) =
      .ok (⟨op, children⟩ :: outer, t) :=
    (h.closeBefore hg hop hprecedes).trans (closeBefore_of_flattens hg hop hflat)
  rw [h.run _ _ hroot, shapeFrom_cons more hclose, openOn_cons, if_pos ⟨rfl, hflat⟩]

end Reads

/-- All children of a node but the last are read up to an open node. -/
theorem exists_reads_init (hg : g.Layered) (hop : g.isDeclared op) {cs : List (OpTree α)}
    (hne : cs ≠ []) (hflat : 1 < cs.length → g.flattens op) (hprecedes : ∀ c ∈ cs, g.Precedes op c)
    (hreads : ∀ c ∈ cs, ∃ first rest edge last, g.Reads c first rest edge last) :
    ∃ first rest, (∀ b, OpenNode.lead ⟨op, cs⟩ ++ [.inl b] = written first (rest ++ [(op, b)])) ∧
      ∀ outer b more, g.Receives outer op → g.shapeFrom outer (.leaf first) (rest ++ (op, b) :: more) =
        g.shapeFrom (⟨op, cs⟩ :: outer) (.leaf b) more := by
  -- from the right, as the operator after a child closes what is open in this child only
  induction cs using List.reverseRecOn with
  | nil => exact absurd rfl hne
  | append_singleton cs c ih =>
    simp only [List.forall_mem_append, List.forall_mem_singleton] at hprecedes hreads
    obtain ⟨first', rest', edge, last, hc⟩ := hreads.2
    by_cases hnil : cs = []
    · subst hnil
      refine ⟨first', rest', fun b => ?_, fun outer b more h =>
        hc.run_first hg hop hprecedes.2 h b more⟩
      simp [OpenNode.lead, hc.reading, written]
    · have hlen : 0 < cs.length := List.length_pos_of_ne_nil hnil
      have hflat : g.flattens op := hflat (by simpa using hlen)
      obtain ⟨first, rest, hread, hrun⟩ := ih hnil (fun _ => hflat) hprecedes.1 hreads.1
      refine ⟨first, rest ++ (op, first') :: rest', fun b => ?_, fun outer b more h => ?_⟩
      · -- up to its first operand the child is part of what was read before
        have hsplit : OpenNode.lead ⟨op, cs ++ [c]⟩ ++ [.inl b] =
            OpenNode.lead ⟨op, cs⟩ ++ [.inl first'] ++
              ((rest' ++ [(op, b)]).flatMap fun p => [.inr p.1, .inl p.2]) := by
          simp [OpenNode.lead, hc.reading, written]
        rw [hsplit, hread first', ← written_append]
        simp
      · rw [List.append_assoc, List.cons_append, hrun outer first' _ h]
        exact hc.run_next hg hop hprecedes.2 hflat b more

/-- Every admissible tree of declared operators is read. -/
theorem exists_reads (hg : g.Layered) (h : t.Admissible g) (hknown : t.Known g) :
    ∃ first rest edge last, g.Reads t first rest edge last := by
  induction h with
  | leaf a =>
    refine ⟨a, [], [], a, rfl, rfl, ?_, ?_, ?_, fun _ _ _ => rfl⟩
    all_goals exact fun _ h => by cases h
  | @node op children _ hmany hflat hinit hlast ih =>
    obtain ⟨cs, c, rfl⟩ := (List.eq_nil_or_concat' children).resolve_left (by rintro rfl; simp at hmany)
    rw [List.dropLast_concat] at hinit
    simp only [List.length_append, List.length_singleton] at hmany hflat
    simp only [List.forall_mem_append, List.forall_mem_singleton] at ih
    have hne : cs ≠ [] := List.ne_nil_of_length_pos (by omega)
    have hlast : g.Follows op c := hlast c List.getLast?_concat
    have hread : (OpTree.node op (cs ++ [c])).reading = OpenNode.lead ⟨op, cs⟩ ++ c.reading :=
      OpenNode.reading_close ⟨op, cs⟩ c
    have hlead : ∀ c' ∈ cs, ∀ x, x ∈ c'.reading ∨ x = .inr op → x ∈ OpenNode.lead ⟨op, cs⟩ :=
      fun c' hc' x hx => List.mem_flatMap.2 ⟨c', hc', by simpa using hx⟩
    unfold OpTree.Known at hknown
    simp only [hread, List.mem_append] at hknown
    obtain ⟨c₀, hc₀⟩ := List.exists_mem_of_ne_nil cs hne
    have hop : g.isDeclared op := hknown op (.inl (hlead c₀ hc₀ _ (.inr rfl)))
    obtain ⟨first', rest', edge, last, hc⟩ := ih.2 fun q hq => hknown q (.inr hq)
    obtain ⟨first, rest, hreadInit, hrun⟩ := exists_reads_init hg hop hne (fun h => hflat (by omega)) hinit
      fun c' hc' => ih.1 c' hc' fun q hq => hknown q (.inl (hlead c' hc' _ (.inl hq)))
    -- the last child is not closed yet: what is open in it stands on the node itself
    refine ⟨first, rest ++ (op, first') :: rest', edge ++ [⟨op, cs⟩], last, ?_, ?_, ?_, ?_, ?_, ?_⟩
    · have hconcat : OpenNode.lead ⟨op, cs⟩ ++ c.reading = OpenNode.lead ⟨op, cs⟩ ++ [.inl first'] ++
          rest'.flatMap fun p => [.inr p.1, .inl p.2] := by
        simp [hc.reading, written]
      rw [hread, hconcat, hreadInit first', ← written_append]
      simp
    · rw [OpenNode.closeAll, List.foldl_append]
      change OpenNode.close ⟨op, cs⟩ (OpenNode.closeAll edge (.leaf last)) = _
      rw [hc.closes]
      rfl
    · rintro q ⟨⟩
      exact hop
    · exact List.forall_mem_append.2 ⟨hc.known, List.forall_mem_singleton.2 hop⟩
    · refine List.forall_mem_append.2 ⟨fun n hn q hq => hc.above n hn q fun q' hq' => ?_,
        List.forall_mem_singleton.2 fun q hq => hq op rfl⟩
      exact hg.hasPriority_right (hlast q' hq') (hq op rfl)
    · intro outer more h
      have hreceives : ∀ q, c.op? = some q → g.Receives (⟨op, cs⟩ :: outer) q := by
        rintro q hq _ ⟨⟩
        exact hlast q hq
      rw [List.append_assoc, List.cons_append, hrun outer first' _ (h op rfl), hc.run _ more hreceives,
        List.append_assoc]
      rfl

theorem written_inj {first first' : α} {rest rest' : List (String × α)}
    (h : written first rest = written first' rest') : first = first' ∧ rest = rest' := by
  obtain ⟨hfirst, hrest⟩ := List.cons.inj h
  refine ⟨Sum.inl.inj hfirst, ?_⟩
  clear h
  induction rest generalizing rest' with
  | nil =>
    cases rest' with
    | nil => rfl
    | cons p rest' => cases hrest
  | cons p rest ih =>
    cases rest' with
    | nil => cases hrest
    | cons p' rest' =>
      simp only [List.flatMap_cons, List.cons_append, List.nil_append, List.cons.injEq, Sum.inr.injEq,
        Sum.inl.injEq] at hrest
      rw [Prod.ext hrest.1 hrest.2.1, ih hrest.2.2]

theorem shape_reading (hg : g.Layered) (hknown : ∀ p ∈ rest, g.isDeclared p.1) (h : t.Admissible g)
    (hread : t.reading = written first rest) : g.shape first rest = .ok t := by
  have hops : t.Known g := fun op hop => by
    simp only [hread, written, List.mem_cons, reduceCtorEq, List.mem_flatMap, Sum.inr.injEq,
      List.not_mem_nil, or_false, false_or] at hop
    obtain ⟨p, hp, rfl⟩ := hop
    exact hknown p hp
  obtain ⟨first', rest', edge, last, hreads⟩ := exists_reads hg h hops
  obtain ⟨rfl, rfl⟩ := written_inj (hreads.reading.symm.trans hread)
  have hfind : rest'.find? (fun p => !g.isDeclared p.1) = none := by simpa using hknown
  have hrun := hreads.run [] [] fun _ _ _ hn => by cases hn
  rw [List.append_nil, List.append_nil] at hrun
  rw [shape, hfind]
  change g.shapeFrom [] (.leaf first') rest' = _
  rw [hrun, shapeFrom]
  exact congrArg Except.ok hreads.closes

/-- Where compatible operators are ordered or stand on one level, shaping a sequence of declared operators
gives its only admissible tree, and is refused if and only if there is none. -/
theorem shape_exact {draft : GrammarDraft} (hbuild : draft.build = .ok g) (hg : g.Levelled) (first : α)
    (rest : List (String × α)) (hknown : ∀ p ∈ rest, g.isDeclared p.1) :
    (∀ t, g.shape first rest = .ok t ↔ t.reading = written first rest ∧ t.Admissible g) ∧
    (∀ t t' : OpTree α, t.reading = written first rest → t.Admissible g →
      t'.reading = written first rest → t'.Admissible g → t = t') ∧
    ((∃ e, g.shape first rest = .error e) ↔
      ¬ ∃ t : OpTree α, t.reading = written first rest ∧ t.Admissible g) := by
  have hlayered := layered_of_build hbuild hg
  have hiff : ∀ t, g.shape first rest = .ok t ↔ t.reading = written first rest ∧ t.Admissible g := by
    intro t
    refine ⟨fun h => ?_, fun ⟨hread, h⟩ => shape_reading hlayered hknown h hread⟩
    have hfind : rest.find? (fun p => !g.isDeclared p.1) = none := by simpa using hknown
    rw [shape, hfind] at h
    obtain ⟨hshaped, -, hread⟩ := shapeFrom_ok hlayered.acyclic (.leaf first) rfl h
    exact ⟨hread, hshaped.admissible⟩
  refine ⟨hiff, fun t t' hread h hread' h' => ?_, fun ⟨e, he⟩ ⟨t, ht⟩ => ?_, fun hnone => ?_⟩
  · have heq := (hiff t).2 ⟨hread, h⟩
    rw [(hiff t').2 ⟨hread', h'⟩] at heq
    exact (Except.ok.inj heq).symm
  · rw [(hiff t).2 ht] at he
    cases he
  · cases hshape : g.shape first rest with
    | ok t => exact absurd ⟨t, (hiff t).1 hshape⟩ hnone
    | error e => exact ⟨e, rfl⟩

/-- Operators that were declared with the same lower and the same higher ones are on one level. -/
theorem sameLevel_of_build {draft : GrammarDraft} {a b : String} (h : draft.build = .ok g)
    (hlower : ∀ c, (c, a) ∈ draft.priorities ↔ (c, b) ∈ draft.priorities)
    (hhigher : ∀ c, (a, c) ∈ draft.priorities ↔ (b, c) ∈ draft.priorities) : g.SameLevel a b := by
  intro c
  simp only [GrammarDraft.hasPriority_iff_of_build h]
  constructor
  · simp only [Relation.TransGen.tail'_iff, hlower]
  · simp only [Relation.TransGen.head'_iff, hhigher]

/-- The sets of relations, the only compatible core operators, are all on one level. -/
theorem levelled_of_core (h : GrammarDraft.core.build = .ok g) : g.Levelled := by
  have hlower : ∀ p ∈ GrammarDraft.corePriorities, ∀ a ∈ GrammarDraft.relationSetIds,
      ∀ b ∈ GrammarDraft.relationSetIds, p.2 = a → (p.1, b) ∈ GrammarDraft.corePriorities := by
    decide +kernel
  have hhigher : ∀ p ∈ GrammarDraft.corePriorities, ∀ a ∈ GrammarDraft.relationSetIds,
      ∀ b ∈ GrammarDraft.relationSetIds, p.1 = a → (b, p.2) ∈ GrammarDraft.corePriorities := by
    decide +kernel
  intro a b _ hcompatible _ _
  rw [isCompatible, GrammarDraft.eq_of_build h, List.contains_iff_mem] at hcompatible
  obtain ⟨l, ha, hcompatible⟩ := List.mem_flatMap.1 hcompatible
  obtain ⟨r, hb, heq⟩ := List.mem_map.1 hcompatible
  obtain ⟨rfl, rfl⟩ := Prod.mk.inj heq
  refine sameLevel_of_build h (fun c => ⟨fun hc => ?_, fun hc => ?_⟩) fun c => ⟨fun hc => ?_, fun hc => ?_⟩
  · exact hlower _ hc _ ha _ hb rfl
  · exact hlower _ hc _ hb _ ha rfl
  · exact hhigher _ hc _ ha _ hb rfl
  · exact hhigher _ hc _ hb _ ha rfl

def coreGrammar : Grammar where
  shapes := GrammarDraft.coreShapes
  priorities := (Priorities.ofPairs GrammarDraft.corePriorities).closure
  compatibilities := GrammarDraft.core.compatibilities
  flattening := GrammarDraft.core.flattening

theorem build_core : GrammarDraft.core.build = .ok coreGrammar := by
  have hacyclic : (Priorities.ofPairs GrammarDraft.core.priorities).closure.firstCyclic? = none := by
    decide +kernel
  unfold GrammarDraft.build
  simp only [hacyclic]
  rfl

theorem shape_core : coreGrammar.Levelled ∧ ∃ tree,
    coreGrammar.shape 1 [("rel", 2), ("union", 3), ("union", 4), ("tfun", 5), ("mapsto", 6)] = .ok tree ∧
      tree.Admissible coreGrammar ∧ ∀ t : OpTree Nat, t.reading = tree.reading →
        t.Admissible coreGrammar → t = tree := by
  have hknown : ∀ p ∈ [("rel", 2), ("union", 3), ("union", 4), ("tfun", 5), ("mapsto", 6)],
      coreGrammar.isDeclared p.1 := by decide +kernel
  obtain ⟨hiff, hunique, -⟩ := shape_exact build_core (levelled_of_core build_core) 1 _ hknown
  refine ⟨levelled_of_core build_core, _, rfl, ?_⟩
  obtain ⟨hread, hadmissible⟩ := (hiff _).1 rfl
  exact ⟨hadmissible, fun t ht h => hunique t _ (ht.trans hread) h hread hadmissible⟩

end Grammar
end SetLang
