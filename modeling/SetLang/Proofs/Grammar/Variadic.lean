import SetLang.Proofs.Grammar.Drafted
import SetLang.Proofs.Language

/-! Operators that flatten. Only an operator that takes more than two children may be made to flatten, but it
stays so when it is declared anew. As long as none of them is declared anew with two children, the nodes
that flatten are those that take more children. -/

namespace SetLang

namespace GrammarDraft

variable {draft draft' : GrammarDraft} {id : String} {shape : OperatorShape} {e : Extension}

def Variadic (draft : GrammarDraft) : Prop :=
  ∀ id ∈ draft.flattening, draft.shape? id = some .associative

theorem variadic_core : Variadic .core := by
  unfold Variadic
  decide +kernel

theorem Variadic.of_adds (h : draft.Variadic) (hadds : draft.Adds draft') : draft'.Variadic := by
  intro id hid
  rw [hadds.shape?]
  exact (hadds.flattening id hid).elim (h id) fun hshape => hshape

/-- A new declaration must not take children away from an operator that flattens. -/
theorem Variadic.declare_iff (h : draft.Variadic) :
    (draft.declare id shape).Variadic ↔ (id ∈ draft.flattening → shape = .associative) := by
  constructor
  · intro hnew hid
    have hshape := hnew id hid
    rw [shape?_declare, if_pos rfl] at hshape
    exact Option.some.inj hshape
  · intro hshape id' hid
    rw [shape?_declare]
    split_ifs with heq
    · rw [hshape (heq ▸ hid)]
    · exact h id' hid

theorem Variadic.addAll (h : draft.Variadic) (ds : List GrammarConfiguration.Declaration) :
    (draft.addAll ds).1.Variadic := by
  induction ds generalizing draft with
  | nil => exact h
  | cons d ds ih =>
    unfold GrammarDraft.addAll
    cases hd : draft.add d with
    | error e => exact h
    | ok draft' => exact ih (h.of_adds (adds_of_add hd))

/-- Registration of an extension that is written between two operands declares its operator. -/
theorem Variadic.declareOperator (h : draft.Variadic) (hform : e.form = .binary → e.id ∉ draft.flattening)
    (hop : LanguageDraft.declareOperator draft e = .ok draft') : draft'.Variadic := by
  unfold LanguageDraft.declareOperator at hop
  split at hop
  case h_1 =>
    cases hop
    exact h
  case h_2 hbinary =>
    cases hop
    exact h.declare_iff.2 fun hid => absurd hid (hform hbinary)
  case h_3 => exact (h.declare_iff.2 fun _ => rfl).of_adds (adds_of_addFlattening hop)

end GrammarDraft

namespace LanguageDraft

variable {l l' : LanguageDraft} {e : Extension} {d : Datatype} {language : Language}

theorem declareOperator_of_register (h : l.register e = .ok l') :
    declareOperator l.grammar e = .ok l'.grammar := by
  unfold register at h
  cases hdup : l.extensions.any (·.id == e.id) with
  | true =>
    rw [hdup] at h
    cases h
  | false =>
    cases hlacks : lacksPatterns e with
    | true =>
      rw [hdup, hlacks] at h
      cases h
    | false =>
      cases hop : declareOperator l.grammar e with
      | error g =>
        rw [hdup, hlacks, hop] at h
        cases h
      | ok g =>
        rw [hdup, hlacks, hop] at h
        cases h
        rfl

theorem grammar_registerAll (es : List Extension) (hes : ∀ e ∈ es, e.form = .application) :
    (l.registerAll es).1.grammar = l.grammar := by
  induction es generalizing l with
  | nil => rfl
  | cons e es ih =>
    rw [List.forall_mem_cons] at hes
    unfold registerAll
    cases hr : l.register e with
    | error err => rfl
    | ok l' =>
      have hop := declareOperator_of_register hr
      rw [declareOperator, hes.1] at hop
      rw [ih hes.2, ← Except.ok.inj hop]

theorem grammar_registerDatatype (l : LanguageDraft) (d : Datatype) :
    (l.registerDatatype d).1.grammar = l.grammar := by
  have happlication : ∀ e ∈ d.extensions, e.form = .application := fun e he => by
    obtain ⟨symbol, n, role, rfl⟩ := Datatype.ofRole_of_mem_extensions he
    rfl
  have hall := grammar_registerAll (l := l) d.extensions happlication
  unfold registerDatatype
  split
  case h_1 l' hl' =>
    rw [hl'] at hall
    exact hall
  case h_2 => exact hall

/-- Drafts in whose making no operator that flattens is declared anew with two children. -/
inductive Steady : LanguageDraft → Prop
  | core (v : Version) : Steady ⟨v, [], [], .core⟩
  | declare {l : LanguageDraft} {id : String} {shape : OperatorShape} : Steady l →
    (shape = .binary → id ∉ l.grammar.flattening) →
    Steady { l with grammar := l.grammar.declare id shape }
  | add {l : LanguageDraft} {g : GrammarDraft} {d : GrammarConfiguration.Declaration} : Steady l →
    l.grammar.add d = .ok g → Steady { l with grammar := g }
  | configure {l : LanguageDraft} (c : GrammarConfiguration) : Steady l → Steady (l.configure c).1
  | register {l l' : LanguageDraft} {e : Extension} : Steady l →
    (e.form = .binary → e.id ∉ l.grammar.flattening) → l.register e = .ok l' → Steady l'
  | datatype {l : LanguageDraft} (d : Datatype) : Steady l → Steady (l.registerDatatype d).1

theorem Steady.variadic (h : l.Steady) : l.grammar.Variadic := by
  induction h with
  | core v => exact GrammarDraft.variadic_core
  | @declare l id shape _ hkeep ih =>
    refine ih.declare_iff.2 fun hid => ?_
    cases shape with
    | binary => exact absurd hid (hkeep rfl)
    | associative => rfl
  | add _ hadd ih => exact ih.of_adds (GrammarDraft.adds_of_add hadd)
  | configure c _ ih => exact ih.addAll c.declarations
  | register _ hkeep hr ih => exact ih.declareOperator hkeep (declareOperator_of_register hr)
  | datatype d _ ih =>
    rw [grammar_registerDatatype]
    exact ih

end LanguageDraft

/-- Only operators that take more than two children have them. -/
inductive OpTree.Counted {α : Type} (g : Grammar) : OpTree α → Prop
  | leaf (a : α) : Counted g (.leaf a)
  | node {op : String} {children : List (OpTree α)} : (∀ c ∈ children, Counted g c) →
    (2 < children.length → g.shape? op = some .associative) → Counted g (.node op children)

namespace Grammar

variable {α : Type} {g : Grammar} {first : α} {rest : List (String × α)} {tree : OpTree α}

theorem counted_of_shaped (hg : ∀ op, g.flattens op → g.shape? op = some .associative)
    (h : tree.Shaped g) : tree.Counted g := by
  induction h with
  | leaf a => exact .leaf a
  | node _ _ hflat _ _ _ ih => exact .node ih fun hmany => hg _ (hflat hmany)

theorem shaped_of_shape (hg : g.Acyclic) (h : g.shape first rest = .ok tree) : tree.Shaped g := by
  unfold shape at h
  split at h
  · cases h
  · exact (shapeFrom_ok hg (.leaf first) rfl h).1

/-- In the grammar of a language without such declarations, operators that flatten take more than two
children, and no others have them in the trees that are shaped. -/
theorem associative_of_flattens {l : LanguageDraft} {language : Language} (h : l.Steady)
    (hl : l.build = .ok language) :
    (∀ op, language.grammar.flattens op → language.grammar.shape? op = some .associative) ∧
    ∀ (first : α) (rest : List (String × α)) (tree : OpTree α),
      language.grammar.shape first rest = .ok tree → tree.Counted language.grammar := by
  unfold LanguageDraft.build at hl
  cases hg : l.grammar.build with
  | error e =>
    rw [hg] at hl
    cases hl
  | ok g =>
    rw [hg] at hl
    cases hl
    have hvariadic : ∀ op, g.flattens op → g.shape? op = some .associative := by
      intro op hop
      rw [GrammarDraft.eq_of_build hg] at hop ⊢
      exact h.variadic op (List.contains_iff_mem.1 hop)
    exact ⟨hvariadic, fun first rest tree htree =>
      counted_of_shaped hvariadic (shaped_of_shape (GrammarDraft.acyclic_of_build hg) htree)⟩

/-- An operator that flattens and is then declared anew with two children. -/
def redeclaredDraft : GrammarDraft where
  shapes := [("op", .binary), ("op", .associative)]
  priorities := []
  compatibilities := []
  flattening := ["op"]

/-- The condition is needed: the operator goes on flattening. -/
theorem shape_redeclared : redeclaredDraft.Drafted ∧ ∃ g, redeclaredDraft.build = .ok g ∧
    g.flattens "op" ∧ g.shape? "op" = some .binary ∧
      g.shape "a" [("op", "b"), ("op", "c")] = .ok (.node "op" [.leaf "a", .leaf "b", .leaf "c"]) :=
  ⟨.declare "op" .binary (.add (d := .flattening "op") (.declare "op" .associative .empty) rfl),
    _, rfl, rfl, rfl, rfl⟩

end Grammar
end SetLang
