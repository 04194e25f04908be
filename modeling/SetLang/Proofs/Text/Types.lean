import SetLang.Proofs.Text.Words
import SetLang.Proofs.Encoding.Supported
import SetLang.Proofs.Typing.Scheme
import SetLang.Ty.Text

/-! Reading types. A type is read back from its text once it is known which words are names of datatypes. -/

namespace SetLang

abbrev DataNames := String → Bool

namespace DataNames

mutual

def read (isData : DataNames) (cs : List Char) : Option (GroundTy × List Char) := do
  let (t, cs) ← isData |>.readFactor cs
  isData |>.readProduct t cs
partial_fixpoint

/-- The products that go on from a type. -/
def readProduct (isData : DataNames) (t : GroundTy) : List Char → Option (GroundTy × List Char)
  | ' ' :: '×' :: ' ' :: cs => do
    let (u, cs) ← isData |>.readFactor cs
    isData |>.readProduct (.product t u) cs
  | cs => some (t, cs)
partial_fixpoint

/-- A type that is no product, or one in parentheses. -/
def readFactor (isData : DataNames) (cs : List Char) : Option (GroundTy × List Char) :=
  let (w, rest) := splitWord cs
  if w = "" then isData |>.readBracketed cs else isData |>.readNamed w rest
partial_fixpoint

def readBracketed (isData : DataNames) : List Char → Option (GroundTy × List Char)
  | 'ℙ' :: '(' :: cs => do
    let (t, cs) ← isData |>.read cs
    return (.power t, ← after ')' cs)
  | '(' :: cs => do
    let (t, cs) ← isData |>.read cs
    return (t, ← after ')' cs)
  | _ => none
partial_fixpoint

def readNamed (isData : DataNames) (w : String) (cs : List Char) : Option (GroundTy × List Char) :=
  if w = "BOOL" then some (.boolean, cs)
  else if isData w then
    match cs with
    | '(' :: cs => do
      let (ts, cs) ← isData |>.readArgs cs
      return (.data w ts, ← after ')' cs)
    | cs => some (.data w [], cs)
  else some (.given w, cs)
partial_fixpoint

def readArgs (isData : DataNames) (cs : List Char) : Option (List GroundTy × List Char) := do
  let (t, cs) ← isData |>.read cs
  match cs with
  | ',' :: ' ' :: cs => do
    let (ts, cs) ← isData |>.readArgs cs
    return (t :: ts, cs)
  | cs => return ([t], cs)
partial_fixpoint

end

end DataNames

namespace TypeTree

/-- Whether products at the top go on without parentheses. -/
def isProduct {D V : Type} : TypeTree D V → Bool
  | product _ _ => true
  | _ => false

theorem textAll_eq {V : Type} (leafText : V → String) (as : List (TypeTree Datatype V)) :
    textAll leafText as = as.map (text leafText) := by
  induction as with
  | nil => rfl
  | cons a as ih => rw [textAll, ih, List.map_cons]

end TypeTree

namespace Ty

variable {isData : DataNames} {t u : Ty} {cs cs' : List Char}

/-- The names in a type are words, by which datatypes are told from given types. -/
structure Legible (isData : DataNames) (t : Ty) : Prop where
  givens : ∀ x ∈ t.givens, IsWord x ∧ x ≠ "BOOL" ∧ isData x = false
  applications : ∀ x ∈ t.applications, IsWord x.1.name ∧ x.1.name ≠ "BOOL" ∧ isData x.1.name = true

namespace Legible

theorem power {a : Ty} (h : Legible isData (.power a)) : a.Legible isData := ⟨h.givens, h.applications⟩

theorem product {a b : Ty} (h : Legible isData (.product a b)) : a.Legible isData ∧ b.Legible isData := by
  obtain ⟨hgivens, happs⟩ := h
  rw [TypeTree.givens, List.forall_mem_append] at hgivens
  rw [TypeTree.applications, List.forall_mem_append] at happs
  exact ⟨⟨hgivens.1, happs.1⟩, hgivens.2, happs.2⟩

theorem data {d : Datatype} {as : List Ty} (h : Legible isData (.data d as)) :
    (IsWord d.name ∧ d.name ≠ "BOOL" ∧ isData d.name = true) ∧ ∀ a ∈ as, a.Legible isData := by
  obtain ⟨hgivens, happs⟩ := h
  rw [TypeTree.applications, TypeTree.applicationsAll_eq, List.forall_mem_cons] at happs
  rw [TypeTree.givens, TypeTree.givensAll_eq] at hgivens
  refine ⟨happs.1, fun a ha => ⟨fun x hx => ?_, fun x hx => ?_⟩⟩
  · exact hgivens x (List.mem_flatMap.2 ⟨a, ha, hx⟩)
  · exact happs.2 x (List.mem_flatMap.2 ⟨a, ha, hx⟩)

end Legible

/-! The texts as they are read, before what follows them. -/

theorem toList_text_power (a : Ty) :
    (text (.power a)).toList ++ cs = 'ℙ' :: '(' :: (a.text.toList ++ ')' :: cs) := by
  simp [text, TypeTree.text]

theorem toList_text_product {a b : Ty} (h : b.isProduct = false) : (text (.product a b)).toList ++ cs =
    a.text.toList ++ ' ' :: '×' :: ' ' :: (b.text.toList ++ cs) := by
  cases b with
  | product => cases h
  | _ => simp [text, TypeTree.text]

theorem toList_text_product_product {a b : Ty} (h : b.isProduct = true) : (text (.product a b)).toList ++ cs =
    a.text.toList ++ ' ' :: '×' :: ' ' :: '(' :: (b.text.toList ++ ')' :: cs) := by
  cases b with
  | product => simp [text, TypeTree.text]
  | _ => cases h

def argsText (a : Ty) (as : List Ty) : List Char := (", ".intercalate ((a :: as).map text)).toList

theorem argsText_nil (a : Ty) : argsText a [] ++ cs = a.text.toList ++ cs := by simp [argsText]

theorem argsText_cons (a b : Ty) (as : List Ty) :
    argsText a (b :: as) ++ cs = a.text.toList ++ ',' :: ' ' :: (argsText b as ++ cs) := by
  simp [argsText]

theorem toList_text_data_nil (d : Datatype) : (text (.data d [])).toList = d.name.toList := by
  simp [text, TypeTree.text]

theorem toList_text_data_cons (d : Datatype) (a : Ty) (as : List Ty) :
    (text (.data d (a :: as))).toList ++ cs = d.name.toList ++ '(' :: (argsText a as ++ ')' :: cs) := by
  simp [text, TypeTree.text, TypeTree.textAll_eq, argsText, Function.comp_def]

/-- What can follow a type: no word and no arguments go on. -/
def Ends (cs : List Char) : Prop := EndsWord cs ∧ cs.head? ≠ some '('

end Ty

namespace DataNames

open Ty

variable {isData : DataNames} {t u : Ty} {cs cs' : List Char}

def Reads (isData : DataNames) (t : Ty) : Prop :=
  ∀ cs, Ends cs → read isData (t.text.toList ++ cs) = readProduct isData t.named cs

def ReadsFactor (isData : DataNames) (t : Ty) : Prop :=
  ∀ cs, Ends cs → readFactor isData (t.text.toList ++ cs) = some (t.named, cs)

theorem ReadsFactor.reads (h : ReadsFactor isData t) : Reads isData t := by
  intro cs hcs
  rw [read, h cs hcs]
  rfl

/-- Where no product goes on, a type is read to its end. -/
theorem Reads.read_eq (h : Reads isData t) (hcs : Ends cs) (hend : cs.head? ≠ some ' ') :
    read isData (t.text.toList ++ cs) = some (t.named, cs) := by
  rw [h cs hcs, readProduct]
  rintro cs' rfl
  exact hend rfl

theorem readFactor_word {w : String} (hw : IsWord w) (hcs : EndsWord cs) :
    readFactor isData (w.toList ++ cs) = readNamed isData w cs := by
  rw [readFactor, splitWord_append hw hcs]
  exact if_neg hw.1

theorem readFactor_bracketed (hcs : EndsWord cs) : readFactor isData cs = readBracketed isData cs := by
  rw [readFactor, splitWord_of_endsWord hcs]
  exact if_pos rfl

theorem readNamed_given {x : String} (hbool : x ≠ "BOOL") (hdata : isData x = false) :
    readNamed isData x cs = some (.given x, cs) := by
  rw [readNamed.eq_def, if_neg hbool, hdata]
  rfl

theorem readNamed_data {x : String} (hbool : x ≠ "BOOL") (hdata : isData x = true) (hcs : cs.head? ≠ some '(') :
    readNamed isData x cs = some (.data x [], cs) := by
  rw [readNamed.eq_def, if_neg hbool, if_pos hdata]
  split
  · simp at hcs
  · rfl

theorem readNamed_args {x : String} (hbool : x ≠ "BOOL") (hdata : isData x = true) {ts : List GroundTy}
    (hargs : readArgs isData cs = some (ts, ')' :: cs')) :
    readNamed isData x ('(' :: cs) = some (.data x ts, cs') := by
  rw [readNamed.eq_def, if_neg hbool, if_pos hdata]
  simp [hargs]

theorem ends_cons {c : Char} (hc : isWordChar c = false ∧ c ≠ '(') : Ends (c :: cs) := by
  simpa [Ends] using hc

/-- A type that is followed by a closing parenthesis. -/
theorem Reads.read_close (h : Reads isData t) :
    read isData (t.text.toList ++ ')' :: cs) = some (t.named, ')' :: cs) :=
  h.read_eq (ends_cons (by decide)) (by simp)

theorem readsFactor_boolean : ReadsFactor isData .boolean := by
  intro cs hcs
  rw [text, TypeTree.text, readFactor_word (by decide) hcs.1, readNamed.eq_def, if_pos rfl]
  rfl

theorem readsFactor_given {x : String} (hx : IsWord x ∧ x ≠ "BOOL" ∧ isData x = false) :
    ReadsFactor isData (.given x) := by
  obtain ⟨hword, hbool, hdata⟩ := hx
  intro cs hcs
  rw [text, TypeTree.text, readFactor_word hword hcs.1, readNamed_given hbool hdata]
  rfl

theorem readsFactor_power {a : Ty} (h : Reads isData a) : ReadsFactor isData (.power a) := by
  intro cs hcs
  have hbracket : EndsWord ('ℙ' :: '(' :: (a.text.toList ++ ')' :: cs)) := endsWord_cons.2 (by decide)
  rw [toList_text_power, readFactor_bracketed hbracket, readBracketed, h.read_close]
  simp

/-- A type in parentheses. -/
theorem readFactor_parenthesised {a : Ty} (h : Reads isData a) :
    readFactor isData ('(' :: (a.text.toList ++ ')' :: cs)) = some (a.named, cs) := by
  have hbracket : EndsWord ('(' :: (a.text.toList ++ ')' :: cs)) := endsWord_cons.2 (by decide)
  rw [readFactor_bracketed hbracket, readBracketed, h.read_close]
  simp

/-- After its first factor, a product goes on with the second. -/
theorem reads_product {a b : Ty} (ha : Reads isData a) (hb : Reads isData b)
    (hfactor : b.isProduct = false → ReadsFactor isData b) : Reads isData (.product a b) := by
  intro cs hcs
  cases hproduct : b.isProduct with
  | false =>
    rw [toList_text_product hproduct, ha _ (ends_cons (by decide)), readProduct, hfactor hproduct cs hcs]
    rfl
  | true =>
    rw [toList_text_product_product hproduct, ha _ (ends_cons (by decide)), readProduct,
      readFactor_parenthesised hb]
    rfl

theorem readArgs_eq {as : List Ty} {a : Ty} (h : ∀ b ∈ a :: as, Reads isData b) :
    readArgs isData (argsText a as ++ ')' :: cs) = some ((a :: as).map TypeTree.named, ')' :: cs) := by
  induction as generalizing a with
  | nil =>
    rw [argsText_nil, readArgs, (h a List.mem_cons_self).read_close]
    rfl
  | cons b as ih =>
    have hcomma : Ends (',' :: ' ' :: (argsText b as ++ ')' :: cs)) := ends_cons (by decide)
    rw [argsText_cons, readArgs, (h a List.mem_cons_self).read_eq hcomma (by simp)]
    simp [ih fun c hc => h c (List.mem_cons_of_mem _ hc)]

theorem readsFactor_data {d : Datatype} {as : List Ty}
    (hd : IsWord d.name ∧ d.name ≠ "BOOL" ∧ isData d.name = true) (has : ∀ a ∈ as, Reads isData a) :
    ReadsFactor isData (.data d as) := by
  obtain ⟨hword, hbool, hdata⟩ := hd
  intro cs hcs
  cases as with
  | nil =>
    rw [toList_text_data_nil, readFactor_word hword hcs.1, readNamed_data hbool hdata hcs.2]
    rfl
  | cons a as =>
    have hbracket : EndsWord ('(' :: (argsText a as ++ ')' :: cs)) := endsWord_cons.2 (by decide)
    rw [toList_text_data_cons, readFactor_word hword hbracket, readNamed_args hbool hdata (readArgs_eq has)]
    simp

/-- Every type is read back, and as a factor if it is no product. -/
theorem reads (h : t.Legible isData) : Reads isData t ∧ (t.isProduct = false → ReadsFactor isData t) := by
  have hfactor : ∀ {t : Ty}, ReadsFactor isData t →
      Reads isData t ∧ (t.isProduct = false → ReadsFactor isData t) := fun h => ⟨h.reads, fun _ => h⟩
  induction t using TypeTree.ind with
  | leaf v => exact v.elim
  | boolean => exact hfactor readsFactor_boolean
  | given x => exact hfactor (readsFactor_given (h.givens x (List.mem_singleton_self x)))
  | power a ih => exact hfactor (readsFactor_power (ih h.power).1)
  | product a b iha ihb =>
    obtain ⟨ha, hb⟩ := h.product
    exact ⟨reads_product (iha ha).1 (ihb hb).1 (ihb hb).2, fun h => by cases h⟩
  | data d as ih =>
    obtain ⟨hd, has⟩ := h.data
    exact hfactor (readsFactor_data hd fun a ha => (ih a ha (has a ha)).1)

end DataNames

namespace Ty

/-- The text of a type determines the type. A reader that knows which words are names of datatypes recovers
every type from its text, as far as datatypes are known by name; so types with one text are the same, if their
given types and their datatypes have words for names and no given type is named like a datatype. -/
theorem text_determines :
    (∀ (isData : DataNames) (t : Ty), t.Legible isData →
      DataNames.read isData t.text.toList = some (t.named, [])) ∧
    ∀ t u : Ty, (∀ x ∈ t.givens ++ u.givens, IsWord x ∧ x ≠ "BOOL") →
      (∀ y ∈ t.applications ++ u.applications, IsWord y.1.name ∧ y.1.name ≠ "BOOL") →
      (∀ x ∈ t.givens ++ u.givens, ∀ y ∈ t.applications ++ u.applications, x ≠ y.1.name) →
      t.text = u.text → (t == u) = true := by
  have hread : ∀ (isData : DataNames) (t : Ty), t.Legible isData →
      DataNames.read isData t.text.toList = some (t.named, []) := fun isData t h => by
    have hend : Ends [] := ⟨endsWord_nil, by simp⟩
    simpa using (DataNames.reads h).1.read_eq hend (by simp)
  refine ⟨hread, fun t u hgivens happs hapart htext => ?_⟩
  simp only [List.forall_mem_append] at hgivens happs hapart
  -- the words that are read as datatypes are the names of those in the two types
  let isData : DataNames := fun x => (t.applications ++ u.applications).any (·.1.name == x)
  have hdata : ∀ y ∈ t.applications ++ u.applications, isData y.1.name = true := fun y hy =>
    List.any_eq_true.2 ⟨y, hy, beq_self_eq_true _⟩
  have hgiven : ∀ x, (∀ y ∈ t.applications ++ u.applications, x ≠ y.1.name) → isData x = false := by
    intro x hx
    rw [List.any_eq_false]
    exact fun y hy heq => hx y hy (eq_of_beq heq).symm
  rw [List.forall_mem_append] at hdata
  have ht : t.Legible isData :=
    ⟨fun x hx => ⟨(hgivens.1 x hx).1, (hgivens.1 x hx).2, hgiven x (List.forall_mem_append.2 (hapart.1 x hx))⟩,
      fun y hy => ⟨(happs.1 y hy).1, (happs.1 y hy).2, hdata.1 y hy⟩⟩
  have hu : u.Legible isData :=
    ⟨fun x hx => ⟨(hgivens.2 x hx).1, (hgivens.2 x hx).2, hgiven x (List.forall_mem_append.2 (hapart.2 x hx))⟩,
      fun y hy => ⟨(happs.2 y hy).1, (happs.2 y hy).2, hdata.2 y hy⟩⟩
  have hboth := (hread isData t ht).symm.trans (htext ▸ hread isData u hu)
  exact (TypeTree.beq_iff_named t u).2 (Prod.ext_iff.1 (Option.some_inj.1 hboth)).1

/-- Two products with products on their right, over datatypes of one name. -/
theorem text_determines_products :
    (.product (.given "A") (.product (.given "B") (.data ⟨"D", [], []⟩ [.boolean])) ==
      (.product (.given "A") (.product (.given "B") (.data ⟨"D", ["T"], []⟩ [.boolean])) : Ty)) = true :=
  text_determines.2 _ _ (by decide) (by decide) (by decide) rfl

end Ty

end SetLang
