import SetLang.Grammar
import SetLang.Json

/-! Configuration texts of a grammar: additional priorities, compatibilities and operators that
flatten, written in JSON. -/

namespace SetLang

structure GrammarConfiguration where
  priorities : List (String × String) := []
  compatibilities : List (String × String) := []
  flattening : List String := []

namespace GrammarConfiguration

def name? : Json → Option String
  | .string s => s
  | _ => none

def pair? : Json → Option (String × String)
  | .array [a, b] => (·, ·) <$> name? a <*> name? b
  | _ => none

def list? {α : Type} (item? : Json → Option α) : Json → Option (List α)
  | .array items => items.mapM item?
  | _ => none

/-- The values of the members with this key; `none` when the key is written twice or its value
cannot be read. A missing key stands for no declaration. -/
def field? {α : Type} (members : List (String × Json)) (key : String)
    (item? : Json → Option α) : Option (List α) :=
  match members.filter (·.1 == key) with
  | [] => some []
  | [(_, v)] => list? item? v
  | _ => none

/-- An object with the three keys, of which any may be missing and to which others may be added, or
an array of up to three items in the same order. -/
def ofJson? : Json → Option GrammarConfiguration
  | .object members => do
    let members ← members.mapM fun (key, v) => key.map (·, v)
    return {
      priorities := ← field? members "priorities" pair?
      compatibilities := ← field? members "compatibilities" pair?
      flattening := ← field? members "associative" name?
    }
  | .array items => do
    if 3 < items.length then none
    return {
      priorities := ← ((items[0]?).elim (some []) (list? pair?))
      compatibilities := ← ((items[1]?).elim (some []) (list? pair?))
      flattening := ← ((items[2]?).elim (some []) (list? name?))
    }
  | _ => none

def ofText? (text : String) : Option GrammarConfiguration := (Json.ofText? text).bind ofJson?

inductive Declaration where
  | priority (lower higher : String)
  | compatibility (left right : String)
  | flattening (id : String)

def declarations (c : GrammarConfiguration) : List Declaration :=
  c.priorities.map (fun p => .priority p.1 p.2)
    ++ c.compatibilities.map (fun p => .compatibility p.1 p.2)
    ++ c.flattening.map .flattening

end GrammarConfiguration

namespace GrammarDraft

def add (g : GrammarDraft) : GrammarConfiguration.Declaration → Except GrammarError GrammarDraft
  | .priority lower higher => g.addPriority lower higher
  | .compatibility left right => g.addCompatibility left right
  | .flattening id => g.addFlattening id

/-- Adds declarations up to the first that is refused, with its error if there is one. -/
def addAll (g : GrammarDraft) :
    List GrammarConfiguration.Declaration → GrammarDraft × Option GrammarError
  | [] => (g, none)
  | d :: rest =>
    match g.add d with
    | .ok g => g.addAll rest
    | .error e => (g, some e)

/-- Adds what a configuration declares. -/
def configure (g : GrammarDraft) (c : GrammarConfiguration) : GrammarDraft × Option GrammarError :=
  g.addAll c.declarations

end GrammarDraft
end SetLang
