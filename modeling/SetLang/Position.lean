/-! Positions: paths of child indices from a formula to one of its parts. They are ordered
lexicographically, a path before its extensions. -/

namespace SetLang

structure Position where
  indexes : List Nat
deriving DecidableEq, Inhabited

namespace Position

def root : Position := ⟨[]⟩

def child (p : Position) (i : Nat) : Position := ⟨p.indexes ++ [i]⟩

/-- The position without its last index; the root has none. -/
def parent? (p : Position) : Option Position :=
  if p.indexes.isEmpty then none else some ⟨p.indexes.dropLast⟩

def isRoot (p : Position) : Bool := p.indexes.isEmpty

def text (p : Position) : String :=
  if p.isRoot then "root" else ".".intercalate (p.indexes.map toString)

/-- Whether `p` is `q` or comes before it. -/
def precedes (p q : Position) : Bool := !q.indexes.lex p.indexes Nat.blt

def sort (ps : List Position) : List Position := ps.mergeSort precedes

end Position
end SetLang
