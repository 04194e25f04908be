import Mathlib.Data.List.TakeWhile
import Mathlib.Tactic.Common

/-! Words in texts. A word is read up to the first character that does not belong to one. -/

namespace SetLang

variable {w : String} {c : Char} {cs : List Char}

/-- The characters of words: letters, digits and the underscore, all of ASCII. -/
def isWordChar (c : Char) : Bool := c.isAlphanum || c == '_'

def IsWord (w : String) : Prop := w ≠ "" ∧ w.toList.all isWordChar = true

instance (w : String) : Decidable (IsWord w) := inferInstanceAs (Decidable (_ ∧ _))

/-- The word at the start of a text, which may be empty, and what follows it. -/
def splitWord (cs : List Char) : String × List Char :=
  (String.ofList (cs.takeWhile isWordChar), cs.dropWhile isWordChar)

def EndsWord (cs : List Char) : Prop := ∀ c ∈ cs.head?, isWordChar c = false

@[simp] theorem endsWord_nil : EndsWord [] := fun _ h => by cases h

@[simp] theorem endsWord_cons : EndsWord (c :: cs) ↔ isWordChar c = false := by simp [EndsWord]

theorem splitWord_of_endsWord (h : EndsWord cs) : splitWord cs = ("", cs) := by
  cases cs with
  | nil => rfl
  | cons c cs => simp [splitWord, endsWord_cons.1 h]

/-- A word is read from a text that starts with it. -/
theorem splitWord_append (hw : IsWord w) (h : EndsWord cs) : splitWord (w.toList ++ cs) = (w, cs) := by
  have hnone : cs.takeWhile isWordChar = [] ∧ cs.dropWhile isWordChar = cs := by
    cases cs with
    | nil => exact ⟨rfl, rfl⟩
    | cons c cs => simp [endsWord_cons.1 h]
  have hall := List.all_eq_true.1 hw.2
  rw [splitWord, List.takeWhile_append_of_pos hall, List.dropWhile_append_of_pos hall, hnone.1, hnone.2,
    List.append_nil, String.ofList_toList]

def after (c : Char) : List Char → Option (List Char)
  | d :: cs => if d = c then some cs else none
  | [] => none

@[simp] theorem after_cons : after c (c :: cs) = some cs := if_pos rfl

end SetLang
