import SetLang.Extension
import SetLang.Grammar.Configuration
import SetLang.Grammar.Core
import SetLang.Misuse

/-! Factories. A language is a version with registered extensions and datatypes and an operator
grammar; it is assembled as a `LanguageDraft`. A factory is a language with an identity, so that
formulas of two factories are never mixed. -/

namespace SetLang

inductive Version where
  | v1
  | v2
deriving DecidableEq, Inhabited

namespace Version

def text : Version → String
  | v1 => "V1"
  | v2 => "V2"

end Version

inductive LanguageError where
  | duplicateExtension (id : String)
  | missingArgumentTypes (id : String)
  | grammar (e : GrammarError)
deriving DecidableEq

namespace LanguageError

def message : LanguageError → String
  | duplicateExtension id => s!"extension {id} is already registered"
  | missingArgumentTypes id =>
    s!"extension {id} takes expressions but declares no argument types"
  | grammar e => e.message

end LanguageError

/-- A language: extensions in the order of their ids, datatypes in order of registration. -/
structure Language where
  version : Version
  extensions : List Extension
  datatypes : List Datatype
  grammar : Grammar

structure LanguageDraft where
  version : Version
  extensions : List Extension
  datatypes : List Datatype
  grammar : GrammarDraft

structure Factory extends Language where
  id : Nat

namespace LanguageDraft

def core : LanguageDraft := ⟨.v2, [], [], .core⟩

def place (e : Extension) : List Extension → List Extension
  | [] => [e]
  | f :: rest => if e.id < f.id then e :: f :: rest else f :: place e rest

/-- Whether an extension takes expressions and has no pattern for them. -/
def lacksPatterns (e : Extension) : Bool :=
  match e.typing with
  | .rule args _ => args.isEmpty && e.arity.expressions ≠ .exactly 0
  | .ofDatatype _ _ => false

def declareOperator (g : GrammarDraft) (e : Extension) : Except GrammarError GrammarDraft :=
  match e.form with
  | .application => .ok g
  | .binary => .ok (g.declare e.id .binary)
  | .associative => (g.declare e.id .associative).addFlattening e.id

/-- Registers an extension, and its operator if it is not written as an application. -/
def register (l : LanguageDraft) (e : Extension) : Except LanguageError LanguageDraft := do
  if l.extensions.any (·.id == e.id) then throw (.duplicateExtension e.id)
  if lacksPatterns e then throw (.missingArgumentTypes e.id)
  match declareOperator l.grammar e with
  | .ok g => return { l with grammar := g, extensions := place e l.extensions }
  | .error err => throw (.grammar err)

/-- Registers extensions up to the first that is refused, with its error if there is one. -/
def registerAll (l : LanguageDraft) : List Extension → LanguageDraft × Option LanguageError
  | [] => (l, none)
  | e :: rest =>
    match l.register e with
    | .ok l => l.registerAll rest
    | .error err => (l, some err)

/-- Registers the extensions of a datatype and then, if none was refused, the datatype. -/
def registerDatatype (l : LanguageDraft) (d : Datatype) : LanguageDraft × Option LanguageError :=
  match l.registerAll d.extensions with
  | (l, none) => ({ l with datatypes := l.datatypes ++ [d] }, none)
  | refused => refused

def configure (l : LanguageDraft) (c : GrammarConfiguration) :
    LanguageDraft × Option LanguageError :=
  let (g, error) := l.grammar.configure c
  ({ l with grammar := g }, error.map .grammar)

def build (l : LanguageDraft) : Except LanguageError Language :=
  match l.grammar.build with
  | .ok g => .ok ⟨l.version, l.extensions, l.datatypes, g⟩
  | .error e => .error (.grammar e)

end LanguageDraft

namespace Language

def extension? (l : Language) (id : String) : Option Extension :=
  l.extensions.find? (·.id == id)

def extensionIds (l : Language) : List String := l.extensions.map (·.id)

def hasDatatype (l : Language) (d : Datatype) : Bool := l.datatypes.contains d

/-- The extension that applies a registered datatype to type arguments. -/
def typeConstructor (l : Language) (d : Datatype) : Except Misuse Extension :=
  match (l.extension? d.name).filter (·.isTypeConstructor) with
  | some e => .ok e
  | none => .error (.unregisteredDatatype d.name)

def withoutDatatypes (l : Language) : Language :=
  { l with extensions := l.extensions.filter (·.role?.isNone), datatypes := [] }

/-- Checks that an extension may build a formula of a kind over so many children. -/
def accept (l : Language) (e : Extension) (kind : ExtensionKind) (expressions predicates : Nat) :
    Except Misuse Unit := do
  if (l.extension? e.id).isNone then throw (.unregisteredExtension e.id)
  if e.kind ≠ kind then throw (.wrongKind e.id)
  if !e.arity.expressions.admits expressions then
    throw (.expressionCount e.id e.arity.expressions expressions)
  if !e.arity.predicates.admits predicates then
    throw (.predicateCount e.id e.arity.predicates predicates)

end Language
end SetLang
