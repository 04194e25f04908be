import Mathlib.Data.List.Forall2
import SetLang.Formula.Text
import SetLang.Proofs.Text.Reader

/-! What the reader does with the text of each kind of formula, once its parts are read. An expression that stands
before applications and images is read as the start of these; everything else is read up to what can follow it at
its level. -/

namespace SetLang

open Node

variable {n : Node} {scope : List String} {k m : Nat} {l : Link} {e x : Expr} {p : Pred} {f g : Formula}
  {fs : List Formula} {es : List Expr} {t t' cs cs' : List Char} {ts : List (List Char)} {c : Char} {w : String}

namespace Link

def text (l : Link) : List Char := ' ' :: (l.symbol.toList ++ [' '])

theorem next?_text (hl : l ∈ all) : next? (l.text ++ cs) = some (l, cs) := by
  have hall : ∀ l ∈ all, l.symbol.toList.length = 1 ∧
      all.find? (·.symbol.toList == l.symbol.toList) = some l := by decide
  obtain ⟨hlength, hfind⟩ := hall l hl
  obtain ⟨c, hc⟩ := List.length_eq_one_iff.1 hlength
  rw [hc] at hfind
  simp [text, hc, next?, hfind]

theorem binary_mem_all {op : BinaryOp} (h : op.isBetween = true) : binary op ∈ all := by
  have hall : ∀ op ∈ BinaryOp.all, op.isBetween = true → binary op ∈ all := by decide
  exact hall op (by cases op <;> decide) h

theorem assoc_mem_all (op : AssocOp) : assoc op ∈ all := by cases op <;> decide

theorem comparison_mem_all (op : Comparison) : comparison op ∈ all := by cases op <;> decide

theorem connective_mem_all (op : Connective) : connective op ∈ all := by cases op <;> decide

theorem junction_mem_all (op : Junction) : junction op ∈ all := by cases op <;> decide

theorem bar_mem_all : bar ∈ all := by decide

theorem level_pos (l : Link) : 0 < l.level := by cases l <;> simp [level]

end Link

/-- What can follow at a level: no word goes on, no application, image or converse, and no link of the level or of
those below. -/
structure EndsLevel (k : Nat) (cs : List Char) : Prop where
  word : EndsWord cs
  tail : cs.head? ≠ some '(' ∧ cs.head? ≠ some '[' ∧ cs.head? ≠ some '∼'
  link : ∀ l rest, Link.next? cs = some (l, rest) → k < l.level

namespace EndsLevel

theorem mono (h : EndsLevel m cs) (hk : k ≤ m) : EndsLevel k cs :=
  ⟨h.word, h.tail, fun l rest hl => Nat.lt_of_le_of_lt hk (h.link l rest hl)⟩

theorem nil : EndsLevel k [] := by
  refine ⟨endsWord_nil, by simp, fun l rest hl => ?_⟩
  cases hl

/-- Closing brackets, commas and dots end every level. -/
theorem close (hc : c ∈ [')', ']', '\x7d', ',', '·']) : EndsLevel k (c :: cs) := by
  have hother : isWordChar c = false ∧ c ≠ '(' ∧ c ≠ '[' ∧ c ≠ '∼' ∧ c ≠ ' ' := by
    simp only [List.mem_cons, List.not_mem_nil, or_false] at hc
    rcases hc with rfl | rfl | rfl | rfl | rfl <;> decide
  obtain ⟨hword, hparen, hbracket, hconverse, hblank⟩ := hother
  refine ⟨endsWord_cons.2 hword, by simp [hparen, hbracket, hconverse], fun l rest hl => ?_⟩
  rw [Link.next?] at hl
  · cases hl
  · rintro c' cs' heq
    exact hblank (List.cons.inj heq).1

theorem text (hl : l ∈ Link.all) (hk : k < l.level) : EndsLevel k (l.text ++ cs) := by
  refine ⟨endsWord_cons.2 (by decide), by simp [Link.text], fun l' rest hl' => ?_⟩
  rw [Link.next?_text hl] at hl'
  cases hl'
  exact hk

end EndsLevel

/-- A formula is read from the text at a level, up to what can follow there. -/
def Formula.ReadAt (n : Node) (scope : List String) (k : Nat) (t : List Char) (f : Formula) : Prop :=
  ∀ cs, EndsLevel k cs → readLevel n scope k (t ++ cs) = some (f, cs)

/-- An expression is read from the text, and what follows goes on from it. -/
def Expr.ReadFirst (n : Node) (scope : List String) (t : List Char) (e : Expr) : Prop :=
  ∀ cs, EndsWord cs → readLevel n scope 0 (t ++ cs) = readTail n scope (.expr e) cs

theorem readTail_of_endsLevel (h : EndsLevel k cs) : readTail n scope f cs = some (f, cs) := by
  obtain ⟨hparen, hbracket, hconverse⟩ := h.tail
  rw [readTail]
  · rintro _ _ - rfl
    exact hparen rfl
  · rintro _ _ - rfl
    exact hbracket rfl
  · rintro _ _ - rfl
    exact hconverse rfl

theorem Expr.ReadFirst.readAt (h : e.ReadFirst n scope t) : (Formula.expr e).ReadAt n scope 0 t := fun cs hcs =>
  (h cs hcs.word).trans (readTail_of_endsLevel hcs)

/-- Where no link of the next level goes on, it reads what the level reads. -/
theorem readLevel_succ (h : readLevel n scope k cs = some (f, cs')) (hcs : EndsLevel (k + 1) cs') :
    readLevel n scope (k + 1) cs = some (f, cs') := by
  rw [readLevel, h]
  cases hnext : Link.next? cs' with
  | none => simp [hnext]
  | some next =>
    have hlevel : next.1.level ≠ k + 1 := (Nat.ne_of_lt (hcs.link next.1 next.2 hnext)).symm
    simp [hnext, hlevel]

theorem readLevel_up (h : readLevel n scope k cs = some (f, cs')) (hk : k ≤ m) (hcs : EndsLevel m cs') :
    readLevel n scope m cs = some (f, cs') := by
  induction hk with
  | refl => exact h
  | step _ ih => exact readLevel_succ (ih (hcs.mono (Nat.le_succ _))) hcs

namespace Formula.ReadAt

theorem up (h : f.ReadAt n scope k t) (hk : k ≤ m) : f.ReadAt n scope m t := fun cs hcs =>
  readLevel_up (h cs (hcs.mono hk)) hk hcs

/-- A formula that is read before any tail and any link. -/
theorem of_head (h : ∀ cs, EndsLevel k cs → readHead n scope (t ++ cs) = some (f, cs)) : f.ReadAt n scope k t := by
  intro cs hcs
  have hlevel : readLevel n scope 0 (t ++ cs) = some (f, cs) := by
    rw [readLevel, h cs hcs]
    exact readTail_of_endsLevel hcs
  exact readLevel_up hlevel (Nat.zero_le k) hcs

theorem readExpr (h : (Formula.expr e).ReadAt n scope 1 t) (hcs : EndsLevel 1 cs) :
    readExpr n scope (t ++ cs) = some (e, cs) := by
  rw [Node.readExpr, h cs hcs]
  rfl

theorem readPred (h : (Formula.pred p).ReadAt n scope 3 t) (hcs : EndsLevel 3 cs) :
    readPred n scope (t ++ cs) = some (p, cs) := by
  rw [Node.readPred, h cs hcs]
  rfl

end Formula.ReadAt

theorem forall₂_map_of_forall_mem {α β γ : Type} {R : β → γ → Prop} {as : List α} {F : α → β} {G : α → γ}
    (h : ∀ a ∈ as, R (F a) (G a)) : List.Forall₂ R (as.map F) (as.map G) := by
  rw [List.forall₂_map_left_iff, List.forall₂_map_right_iff, List.forall₂_same]
  exact h

abbrev Link.ReadParts (l : Link) (n : Node) (scope : List String) : List Formula → List (List Char) → Prop :=
  List.Forall₂ fun f t => f.ReadAt n scope (l.level - 1) t

theorem readJoined_eq (hl : l ∈ Link.all) (h : l.ReadParts n scope (f :: fs) (t :: ts))
    (hcs : EndsLevel l.level cs) :
    readJoined n scope l (l.text.intercalate (t :: ts) ++ cs) = some (f :: fs, cs) := by
  have hpos := l.level_pos
  induction ts generalizing f fs t with
  | nil =>
    obtain ⟨hf, hfs⟩ := List.forall₂_cons.1 h
    obtain rfl := List.forall₂_nil_right_iff.1 hfs
    rw [List.intercalate_singleton, readJoined, hf cs (hcs.mono (Nat.sub_le ..))]
    cases hnext : Link.next? cs with
    | none => simp [hnext]
    | some next =>
      have hne : next.1 ≠ l := fun heq => Nat.lt_irrefl _ (heq ▸ hcs.link next.1 next.2 hnext)
      simp [hnext, hne]
  | cons t' ts ih =>
    obtain ⟨hf, hfs⟩ := List.forall₂_cons.1 h
    obtain ⟨f', fs', hf', hfs', rfl⟩ := List.forall₂_cons_right_iff.1 hfs
    have hlink : EndsLevel (l.level - 1) (l.text ++ (l.text.intercalate (t' :: ts) ++ cs)) :=
      .text hl (Nat.sub_lt hpos Nat.one_pos)
    rw [List.intercalate_cons_cons, List.append_assoc, List.append_assoc, readJoined, hf _ hlink]
    simp [Link.next?_text hl, ih (.cons hf' hfs')]

/-- Formulas with one link between all of them are joined. -/
theorem readAt_joined (hl : l ∈ Link.all) (hf : f.ReadAt n scope (l.level - 1) t)
    (h : l.ReadParts n scope fs (t' :: ts)) (hjoined : Formula.joined? n l (f :: fs) = some g) :
    g.ReadAt n scope l.level (t ++ (l.text ++ l.text.intercalate (t' :: ts))) := by
  obtain ⟨f', fs, hf', hfs, rfl⟩ := List.forall₂_cons_right_iff.1 h
  obtain ⟨k, hk⟩ := Nat.exists_eq_succ_of_ne_zero (Nat.ne_of_gt l.level_pos)
  intro cs hcs
  have hlink : EndsLevel (l.level - 1) (l.text ++ (l.text.intercalate (t' :: ts) ++ cs)) :=
    .text hl (Nat.sub_lt l.level_pos Nat.one_pos)
  have hfirst := hf _ hlink
  have hrest := readJoined_eq hl h hcs
  rw [hk, Nat.succ_sub_one] at hfirst
  rw [hk, List.append_assoc, List.append_assoc, readLevel, hfirst]
  simp [Link.next?_text hl, hk, hrest, hjoined]

/-! Heads: identifiers, atoms and what stands in brackets. -/

/-- Words that are not names, as the text uses them itself. -/
def reserved : List String := ["dom", "ran", "bool", "partition", "BOOL", "TRUE", "FALSE"]

def IsName (x : String) : Prop := IsWord x ∧ x ∉ reserved

instance (x : String) : Decidable (IsName x) := inferInstanceAs (Decidable (_ ∧ _))

theorem readHead_word (hw : IsWord w) (hcs : EndsWord cs) :
    readHead n scope (w.toList ++ cs) = readWord n scope w cs := by
  rw [readHead, splitWord_append hw hcs]
  exact if_neg hw.1

theorem readHead_symbol (hc : isWordChar c = false) :
    readHead n scope (c :: cs) = readSymbol n scope (c :: cs) := by
  rw [readHead, splitWord_of_endsWord (endsWord_cons.2 hc)]
  exact if_pos rfl

/-- An expression that is read before any tail. -/
theorem Expr.ReadFirst.of_head (h : ∀ cs, EndsWord cs → readHead n scope (t ++ cs) = some (.expr e, cs)) :
    e.ReadFirst n scope t := by
  intro cs hcs
  rw [readLevel, h cs hcs]
  rfl

/-- An expression that is a single word. -/
theorem Expr.ReadFirst.of_word (hw : IsWord w) (h : ∀ cs, readWord n scope w cs = some (.expr e, cs)) :
    e.ReadFirst n scope w.toList :=
  .of_head fun cs hcs => (readHead_word hw hcs).trans (h cs)

theorem readFirst_identifier (hw : IsName w) : (Formula.identifier n scope w).ReadFirst n scope w.toList := by
  have hne : ∀ x ∈ reserved, w = x → False := fun x hx heq => hw.2 (heq ▸ hx)
  refine .of_word hw.1 fun cs => ?_
  rw [readWord]
  all_goals exact hne _ (by decide)

theorem readFirst_atom (a : Atom) : (Expr.atom n a none).ReadFirst n scope a.text.toList := by
  cases a with
  | emptySet =>
    refine .of_head fun cs _ => ?_
    have hsymbol : readHead n scope ('∅' :: cs) = _ := readHead_symbol (by decide)
    rwa [readSymbol] at hsymbol
  | boolSet => exact .of_word (by decide) fun cs => by rw [Atom.text, readWord]
  | truth => exact .of_word (by decide) fun cs => by rw [Atom.text, readWord]
  | falsity => exact .of_word (by decide) fun cs => by rw [Atom.text, readWord]

/-- A formula in parentheses. -/
theorem readHead_parenthesised (h : f.ReadAt n scope 3 t) :
    readHead n scope ('(' :: (t ++ ')' :: cs)) = some (f, cs) := by
  rw [readHead_symbol (by decide), readSymbol, h _ (.close (by decide))]
  simp

theorem readFirst_parenthesised (h : (Formula.expr e).ReadAt n scope 1 t) :
    e.ReadFirst n scope ('(' :: (t ++ [')'])) := by
  refine .of_head fun cs _ => ?_
  simpa using readHead_parenthesised (h.up (by decide))

theorem readAt_parenthesised (h : (Formula.pred p).ReadAt n scope 3 t) :
    (Formula.pred p).ReadAt n scope 2 ('(' :: (t ++ [')'])) := by
  refine .of_head fun cs _ => ?_
  simpa using readHead_parenthesised h

theorem readArgument_eq (h : (Formula.expr e).ReadAt n scope 1 t) :
    readArgument n scope ('(' :: (t ++ ')' :: cs)) = some (e, cs) := by
  have hclose : EndsLevel 1 (')' :: cs) := .close (by decide)
  rw [readArgument, after_cons]
  simp [h.readExpr hclose]

/-- An operator that is written like a function. -/
theorem readFirst_unary {op : UnaryOp} (hop : op ≠ .converse) {s : String}
    (h : (Formula.expr e).ReadAt n scope 1 s.toList) :
    (Expr.unary n op e).ReadFirst n scope (op.wrap s).toList := by
  refine .of_head fun cs _ => ?_
  have hparen : EndsWord ('(' :: (s.toList ++ ')' :: cs)) := endsWord_cons.2 (by decide)
  cases op with
  | converse => exact absurd rfl hop
  | dom =>
    have hword : readHead n scope ("dom".toList ++ '(' :: (s.toList ++ ')' :: cs)) = _ :=
      readHead_word (by decide) hparen
    rw [readWord, readArgument_eq h] at hword
    simpa [UnaryOp.wrap] using hword
  | ran =>
    have hword : readHead n scope ("ran".toList ++ '(' :: (s.toList ++ ')' :: cs)) = _ :=
      readHead_word (by decide) hparen
    rw [readWord, readArgument_eq h] at hword
    simpa [UnaryOp.wrap] using hword
  | pow =>
    have hsymbol : readHead n scope ('ℙ' :: '(' :: (s.toList ++ ')' :: cs)) = _ :=
      readHead_symbol (by decide)
    rw [readSymbol, readArgument_eq h] at hsymbol
    simpa [UnaryOp.wrap] using hsymbol

theorem readFirst_bool (h : (Formula.pred p).ReadAt n scope 3 t) :
    (Expr.bool n p).ReadFirst n scope ("bool(".toList ++ (t ++ [')'])) := by
  refine .of_head fun cs _ => ?_
  have hparen : EndsWord ('(' :: (t ++ ')' :: cs)) := endsWord_cons.2 (by decide)
  have hclose : EndsLevel 3 (')' :: cs) := .close (by decide)
  have hword : readHead n scope ("bool".toList ++ '(' :: (t ++ ')' :: cs)) = _ :=
    readHead_word (by decide) hparen
  rw [readWord, after_cons] at hword
  simpa [h.readPred hclose] using hword

/-! Tails. -/

theorem readFirst_funImage (he : e.ReadFirst n scope t) (hx : (Formula.expr x).ReadAt n scope 1 t') :
    (Expr.binary n .funImage e x).ReadFirst n scope (t ++ '(' :: (t' ++ [')'])) := by
  intro cs hcs
  have hparen : EndsWord ('(' :: (t' ++ ')' :: cs)) := endsWord_cons.2 (by decide)
  have hclose : EndsLevel 1 (')' :: cs) := .close (by decide)
  have hfirst := he _ hparen
  rw [readTail, hx.readExpr hclose] at hfirst
  simpa using hfirst

theorem readFirst_relImage (he : e.ReadFirst n scope t) (hx : (Formula.expr x).ReadAt n scope 1 t') :
    (Expr.binary n .relImage e x).ReadFirst n scope (t ++ '[' :: (t' ++ [']'])) := by
  intro cs hcs
  have hbracket : EndsWord ('[' :: (t' ++ ']' :: cs)) := endsWord_cons.2 (by decide)
  have hclose : EndsLevel 1 (']' :: cs) := .close (by decide)
  have hfirst := he _ hbracket
  rw [readTail, hx.readExpr hclose] at hfirst
  simpa using hfirst

theorem readFirst_converse (he : e.ReadFirst n scope t) :
    (Expr.unary n .converse e).ReadFirst n scope (t ++ ['∼']) := by
  intro cs hcs
  have hfirst := he ('∼' :: cs) (endsWord_cons.2 (by decide))
  rw [readTail] at hfirst
  simpa using hfirst

/-! Members of sets and partitions. -/

abbrev ReadMembers (n : Node) (scope : List String) : List Expr → List (List Char) → Prop :=
  List.Forall₂ fun e t => (Formula.expr e).ReadAt n scope 1 t

theorem readMembers_eq (h : ReadMembers n scope (e :: es) (t :: ts)) (hc : c ∈ [')', '\x7d']) :
    readMembers n scope ([',', ' '].intercalate (t :: ts) ++ c :: cs) = some (e :: es, c :: cs) := by
  have hclose : EndsLevel 1 (c :: cs) := by
    rcases List.mem_pair.1 hc with rfl | rfl <;> exact .close (by decide)
  have hne : c ≠ ',' := by
    rintro rfl
    simp at hc
  induction ts generalizing e es t with
  | nil =>
    obtain ⟨he, hes⟩ := List.forall₂_cons.1 h
    obtain rfl := List.forall₂_nil_right_iff.1 hes
    rw [List.intercalate_singleton, readMembers, he.readExpr hclose]
    simp [hne]
  | cons t' ts ih =>
    obtain ⟨he, hes⟩ := List.forall₂_cons.1 h
    obtain ⟨e', es', he', hes', rfl⟩ := List.forall₂_cons_right_iff.1 hes
    have hcomma : EndsLevel 1 (',' :: ' ' :: ([',', ' '].intercalate (t' :: ts) ++ c :: cs)) := .close (by decide)
    rw [List.intercalate_cons_cons, List.append_assoc, List.append_assoc, readMembers]
    simp [he.readExpr hcomma, ih (.cons he' hes')]

/-- No expression starts with a closing brace. -/
theorem readExpr_brace : readExpr n scope ('\x7d' :: cs) = none := by
  have hhead : readHead n scope ('\x7d' :: cs) = none := by
    rw [readHead_symbol (by decide), readSymbol] <;> simp
  rw [readExpr, readLevel, readLevel, hhead]
  rfl

theorem readFirst_emptySet : (Expr.set n [] none).ReadFirst n scope ['\x7b', '\x7d'] := by
  refine .of_head fun cs _ => ?_
  have hsymbol : readHead n scope ('\x7b' :: '\x7d' :: cs) = _ := readHead_symbol (by decide)
  rwa [readSymbol, readBraced] at hsymbol

/-- A set with members. The first of them is followed by another one or by the end of the set. -/
theorem readFirst_set (h : ReadMembers n scope (e :: es) (t :: ts)) :
    (Expr.set n (e :: es) none).ReadFirst n scope
      ('\x7b' :: ([',', ' '].intercalate (t :: ts) ++ ['\x7d'])) := by
  refine .of_head fun cs _ => ?_
  obtain ⟨rest, hrest, hfollows⟩ : ∃ rest,
      readExpr n scope ([',', ' '].intercalate (t :: ts) ++ '\x7d' :: cs) = some (e, rest) ∧
      (rest.head? = some '\x7d' ∨ rest.take 2 = [',', ' ']) := by
    obtain ⟨he, -⟩ := List.forall₂_cons.1 h
    cases ts with
    | nil =>
      have hclose : EndsLevel 1 ('\x7d' :: cs) := .close (by decide)
      exact ⟨_, by simpa using he.readExpr hclose, .inl rfl⟩
    | cons t' ts =>
      have hcomma : EndsLevel 1 (',' :: ' ' :: ([',', ' '].intercalate (t' :: ts) ++ '\x7d' :: cs)) :=
        .close (by decide)
      exact ⟨_, by simpa using he.readExpr hcomma, .inr rfl⟩
  have hmembers : readMembers n scope ([',', ' '].intercalate (t :: ts) ++ '\x7d' :: cs) = _ :=
    readMembers_eq h (by decide)
  have hsymbol : readHead n scope ('\x7b' :: ([',', ' '].intercalate (t :: ts) ++ '\x7d' :: cs)) = _ :=
    readHead_symbol (by decide)
  rw [readSymbol, readBraced] at hsymbol
  · simpa [hrest, hfollows, hmembers] using hsymbol
  · intro cs' heq
    rw [heq, readExpr_brace] at hrest
    cases hrest

theorem readAt_partition (h : ReadMembers n scope (e :: es) (t :: ts)) :
    (Formula.pred (.partition n (e :: es))).ReadAt n scope 2
      ("partition(".toList ++ ([',', ' '].intercalate (t :: ts) ++ [')'])) := by
  refine .of_head fun cs _ => ?_
  have hparen : EndsWord ('(' :: ([',', ' '].intercalate (t :: ts) ++ ')' :: cs)) := endsWord_cons.2 (by decide)
  have hmembers : readMembers n scope ([',', ' '].intercalate (t :: ts) ++ ')' :: cs) = _ :=
    readMembers_eq h (by decide)
  have hword : readHead n scope ("partition".toList ++ '(' :: ([',', ' '].intercalate (t :: ts) ++ ')' :: cs)) = _ :=
    readHead_word (by decide) hparen
  rw [readWord, after_cons] at hword
  simpa [hmembers] using hword

/-! Binders. -/

def namesText (xs : List String) : List Char := [','].intercalate (xs.map String.toList)

theorem namesText_eq (ds : List Declaration) : (Declaration.names ds).toList = namesText (ds.map (·.name)) := by
  simp [Declaration.names, namesText]

theorem mem_namesText {xs : List String} (h : c ∈ namesText xs) : c = ',' ∨ ∃ x ∈ xs, c ∈ x.toList := by
  induction xs with
  | nil => cases h
  | cons x xs ih =>
    cases xs with
    | nil => exact .inr ⟨x, List.mem_cons_self, by simpa [namesText] using h⟩
    | cons y ys =>
      rw [namesText, List.map_cons, List.map_cons, List.intercalate_cons_cons, List.append_assoc,
        List.mem_append, List.mem_append, List.mem_singleton] at h
      rcases h with h | h | h
      · exact .inr ⟨x, List.mem_cons_self, h⟩
      · exact .inl h
      · exact (ih h).imp_right fun ⟨z, hz, hc⟩ => ⟨z, List.mem_cons_of_mem _ hz, hc⟩

theorem IsWord.isWordChar (h : IsWord w) (hc : c ∈ w.toList) : isWordChar c = true := List.all_eq_true.1 h.2 c hc

/-- Neither commas nor dots belong to names. -/
theorem splitNames_eq {xs : List String} (hxs : ∀ x ∈ xs, IsWord x) (hne : xs ≠ []) :
    splitNames (namesText xs ++ '·' :: cs) = (xs, cs) := by
  have hdot : ∀ c ∈ namesText xs, (c != '·') = true := by
    intro c hc
    rw [bne_iff_ne]
    rintro rfl
    rcases mem_namesText hc with hcomma | ⟨x, hx, hmem⟩
    · exact absurd hcomma (by decide)
    · exact absurd ((hxs x hx).isWordChar hmem) (by decide)
  have hcomma : ∀ t ∈ xs.map String.toList, ',' ∉ t := by
    intro t ht hmem
    obtain ⟨x, hx, rfl⟩ := List.mem_map.1 ht
    exact absurd ((hxs x hx).isWordChar hmem) (by decide)
  have hsplit : (namesText xs).splitOn ',' = xs.map String.toList :=
    List.splitOn_intercalate ',' hcomma (by simpa using hne)
  rw [splitNames, List.takeWhile_append_of_pos hdot, List.dropWhile_append_of_pos hdot]
  simp [hsplit, Function.comp_def]

def binderText (xs : List String) (t t' : List Char) : List Char :=
  namesText xs ++ '·' :: (t ++ (Link.bar.text ++ t'))

/-- Condition and body are read where the names are in scope. -/
theorem readBinder_eq {op : SetBinder} {xs : List String} (hxs : ∀ x ∈ xs, IsWord x) (hne : xs ≠ [])
    (hp : (Formula.pred p).ReadAt n (xs.reverse ++ scope) 3 t)
    (he : (Formula.expr e).ReadAt n (xs.reverse ++ scope) 1 t') (hcs : EndsLevel 1 cs) :
    readBinder n scope op (binderText xs t t' ++ cs) = some (.quantified n op (xs.map (⟨·, 0⟩)) p e, cs) := by
  have hbar : EndsLevel 3 (Link.bar.text ++ (t' ++ cs)) := .text Link.bar_mem_all (by decide)
  rw [readBinder, binderText, List.append_assoc, List.cons_append, splitNames_eq hxs hne]
  simp [hp.readPred hbar, Link.next?_text Link.bar_mem_all, he.readExpr hcs]

def SetBinder.opening : SetBinder → Char
  | comprehension => '\x7b'
  | union => '⋃'
  | inter => '⋂'

def Quantifier.opening : Quantifier → Char
  | all => '∀'
  | exist => '∃'

/-- A quantified union or intersection. -/
theorem readAt_binder {op : SetBinder} (hop : op ≠ .comprehension) {xs : List String} (hxs : ∀ x ∈ xs, IsWord x)
    (hne : xs ≠ []) (hp : (Formula.pred p).ReadAt n (xs.reverse ++ scope) 3 t)
    (he : (Formula.expr e).ReadAt n (xs.reverse ++ scope) 1 t') :
    (Formula.expr (.quantified n op (xs.map (⟨·, 0⟩)) p e)).ReadAt n scope 1
      (op.opening :: binderText xs t t') := by
  refine .of_head fun cs hcs => ?_
  rw [List.cons_append, readHead_symbol (by cases op <;> decide)]
  cases op with
  | comprehension => exact absurd rfl hop
  | union =>
    rw [SetBinder.opening, readSymbol, readBinder_eq hxs hne hp he hcs]
    rfl
  | inter =>
    rw [SetBinder.opening, readSymbol, readBinder_eq hxs hne hp he hcs]
    rfl

theorem readAt_quantified (op : Quantifier) {xs : List String} (hxs : ∀ x ∈ xs, IsWord x) (hne : xs ≠ [])
    (hp : (Formula.pred p).ReadAt n (xs.reverse ++ scope) 3 t) :
    (Formula.pred (.quantified n op (xs.map (⟨·, 0⟩)) p)).ReadAt n scope 3
      (op.opening :: (namesText xs ++ '·' :: t)) := by
  refine .of_head fun cs hcs => ?_
  have hquantified : readQuantified n scope op (namesText xs ++ '·' :: (t ++ cs)) =
      some (.pred (.quantified n op (xs.map (⟨·, 0⟩)) p), cs) := by
    rw [readQuantified, splitNames_eq hxs hne]
    simp [hp.readPred hcs]
  rw [List.cons_append, List.append_assoc, List.cons_append, readHead_symbol (by cases op <;> decide)]
  cases op with
  | all => rw [Quantifier.opening, readSymbol, hquantified]
  | exist => rw [Quantifier.opening, readSymbol, hquantified]

theorem exists_namesText (x : String) (xs : List String) : ∃ t, namesText (x :: xs) = x.toList ++ t := by
  cases xs with
  | nil => exact ⟨[], by simp [namesText]⟩
  | cons y ys => exact ⟨_, by simp [namesText]; rfl⟩

theorem IsWord.exists_head (h : IsWord w) : ∃ c t, w.toList = c :: t ∧ SetLang.isWordChar c = true := by
  obtain ⟨c, t, ht⟩ := List.exists_cons_of_ne_nil (l := w.toList) (by simpa using h.1)
  exact ⟨c, t, ht, h.isWordChar (ht ▸ List.mem_cons_self)⟩

/-- What follows the first of some names does not go on like a set. -/
theorem exists_after_name (y : String) (cs : List Char) {xs : List String} (hxs : ∀ x ∈ xs, IsWord x) : ∃ rest,
    namesText (y :: xs) ++ '·' :: cs = y.toList ++ rest ∧ EndsLevel 1 rest ∧
      ¬ (rest.head? = some '\x7d' ∨ rest.take 2 = [',', ' ']) := by
  cases xs with
  | nil => exact ⟨'·' :: cs, by simp [namesText], .close (by decide), by simp⟩
  | cons z zs =>
    obtain ⟨t, ht⟩ := exists_namesText z zs
    obtain ⟨c, t', hz, hc⟩ := (hxs z List.mem_cons_self).exists_head
    have hblank : c ≠ ' ' := by
      rintro rfl
      exact absurd hc (by decide)
    refine ⟨',' :: (namesText (z :: zs) ++ '·' :: cs), by simp [namesText], .close (by decide), ?_⟩
    simp [ht, hz, hblank]

theorem readFirst_comprehension {xs : List String} (hxs : ∀ x ∈ xs, IsName x) (hne : xs ≠ [])
    (hp : (Formula.pred p).ReadAt n (xs.reverse ++ scope) 3 t)
    (he : (Formula.expr e).ReadAt n (xs.reverse ++ scope) 1 t') :
    (Expr.quantified n .comprehension (xs.map (⟨·, 0⟩)) p e).ReadFirst n scope
      ('\x7b' :: (binderText xs t t' ++ ['\x7d'])) := by
  refine .of_head fun cs _ => ?_
  have hclose : EndsLevel 1 ('\x7d' :: cs) := .close (by decide)
  have hwords : ∀ x ∈ xs, IsWord x := fun x hx => (hxs x hx).1
  have hbinder : readBinder n scope .comprehension (binderText xs t t' ++ '\x7d' :: cs) = _ :=
    readBinder_eq hwords hne hp he hclose
  -- the first name is read as an identifier, and it is no member of a set
  obtain ⟨y, rest, hfirst, hother⟩ : ∃ y rest,
      readExpr n scope (binderText xs t t' ++ '\x7d' :: cs) = some (y, rest) ∧
      ¬ (rest.head? = some '\x7d' ∨ rest.take 2 = [',', ' ']) := by
    obtain ⟨x, xs, rfl⟩ := List.exists_cons_of_ne_nil hne
    obtain ⟨rest, htext, hends, hother⟩ := exists_after_name x (t ++ (Link.bar.text ++ t') ++ '\x7d' :: cs)
      (List.forall_mem_cons.1 hwords).2
    have hname : (Formula.expr (Formula.identifier n scope x)).ReadAt n scope 1 x.toList :=
      (readFirst_identifier (hxs x List.mem_cons_self)).readAt.up (Nat.zero_le 1)
    refine ⟨Formula.identifier n scope x, rest, ?_, hother⟩
    rw [binderText, List.append_assoc, List.cons_append, htext]
    exact hname.readExpr hends
  rw [List.cons_append, readHead_symbol (by decide), readSymbol, List.append_assoc, List.singleton_append, readBraced]
  · simp [hfirst, hother, hbinder]
  · intro cs' heq
    rw [heq, readExpr_brace] at hfirst
    cases hfirst

/-! Predicates. -/

theorem readAt_literal (b : Bool) : (Formula.pred (.literal n b)).ReadAt n scope 2 [if b then '⊤' else '⊥'] := by
  refine .of_head fun cs _ => ?_
  cases b with
  | true =>
    have hsymbol : readHead n scope ('⊤' :: cs) = _ := readHead_symbol (by decide)
    rwa [readSymbol] at hsymbol
  | false =>
    have hsymbol : readHead n scope ('⊥' :: cs) = _ := readHead_symbol (by decide)
    rwa [readSymbol] at hsymbol

theorem readAt_not (h : (Formula.pred p).ReadAt n scope 2 t) :
    (Formula.pred (.not n p)).ReadAt n scope 2 ('¬' :: t) := by
  refine .of_head fun cs hcs => ?_
  have hsymbol : readHead n scope ('¬' :: (t ++ cs)) = _ := readHead_symbol (by decide)
  rw [readSymbol, h cs hcs] at hsymbol
  simpa [Formula.pred?] using hsymbol

/-! Formulas with links between them. -/

/-- Two formulas with a link between them are joined. -/
theorem readAt_pair {f' : Formula} (hl : l ∈ Link.all) (hf : f.ReadAt n scope (l.level - 1) t)
    (hf' : f'.ReadAt n scope (l.level - 1) t') (hjoined : Formula.joined? n l [f, f'] = some g) :
    g.ReadAt n scope l.level (t ++ (l.text ++ t')) := by
  simpa using readAt_joined hl hf (.cons hf' .nil) hjoined

theorem mapM_expr? (es : List Expr) : (es.map Formula.expr).mapM Formula.expr? = some es := by
  induction es with
  | nil => rfl
  | cons e es ih => simp [Formula.expr?, ih]

theorem mapM_pred? (ps : List Pred) : (ps.map Formula.pred).mapM Formula.pred? = some ps := by
  induction ps with
  | nil => rfl
  | cons p ps ih => simp [Formula.pred?, ih]

end SetLang
