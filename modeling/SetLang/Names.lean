/-! Finite sets of names, kept as lists in increasing order without repetition. -/

namespace SetLang

/-- Names in increasing order. -/
abbrev Names := List String

namespace Names

def insert (s : String) : Names → Names
  | [] => [s]
  | t :: rest => if s < t then s :: t :: rest else if s = t then t :: rest else t :: insert s rest

def insertAll (new : List String) (names : Names) : Names :=
  new.foldl (fun ns s => insert s ns) names

def ofList (names : List String) : Names := insertAll names []

end Names
end SetLang
