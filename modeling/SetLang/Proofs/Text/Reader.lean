import SetLang.Formula
import SetLang.Proofs.Text.Words

/-! A reader of formulas over core operators. Operators that are written between formulas join them at three
levels: operators on expressions, comparisons, and connectives with junctions. A level reads what the level below
reads, as often as one and the same operator goes on. A name is that of the innermost declaration that has it, and
of a free identifier if there is none. All nodes that are read are one node, and no types are given. -/

namespace SetLang

/-- What stands between formulas, with a blank on both sides. -/
inductive Link where
  | binary (op : BinaryOp)
  | assoc (op : AssocOp)
  | comparison (op : Comparison)
  | connective (op : Connective)
  | junction (op : Junction)
  | bar
deriving DecidableEq

namespace Link

def symbol : Link → String
  | binary op => op.symbol
  | assoc op => op.symbol
  | comparison op => op.symbol
  | connective op => op.symbol
  | junction op => op.symbol
  | bar => "∣"

def level : Link → Nat
  | binary _ | assoc _ => 1
  | comparison _ => 2
  | connective _ | junction _ => 3
  | bar => 4

def all : List Link :=
  (BinaryOp.all.filter BinaryOp.isBetween).map binary ++ AssocOp.all.map assoc ++
    [.eq, .ne, .mem, .notMem, .subset, .subsetEq, .notSubset, .notSubsetEq].map comparison ++
    Connective.all.map connective ++ Junction.all.map junction ++ [bar]

def next? : List Char → Option (Link × List Char)
  | ' ' :: c :: ' ' :: cs => (all.find? (·.symbol.toList == [c])).map (·, cs)
  | _ => none

end Link

/-- The names of declarations up to the dot, and what follows it. -/
def splitNames (cs : List Char) : List String × List Char :=
  (((cs.takeWhile (· != '·')).splitOn ',').map String.ofList, (cs.dropWhile (· != '·')).tail)

namespace Formula

def expr? : Formula → Option Expr
  | expr e => some e
  | _ => none

def pred? : Formula → Option Pred
  | pred p => some p
  | _ => none

def joined? (n : Node) : Link → List Formula → Option Formula
  | .binary op, [expr l, expr r] => some (expr (.binary n op l r))
  | .assoc op, fs => (fs.mapM expr?).map fun es => expr (.assoc n op es)
  | .comparison op, [expr l, expr r] => some (pred (.comparison n op l r))
  | .connective op, [pred p, pred q] => some (pred (.connective n op p q))
  | .junction op, fs => (fs.mapM pred?).map fun ps => pred (.junction n op ps)
  | _, _ => none

def identifier (n : Node) (scope : List String) (x : String) : Expr :=
  if x ∈ scope then .bound n (scope.idxOf x) none else .free n x none

end Formula

namespace Node

open Formula

mutual

/-- The formula that a level finds at the start of a text, and what follows it. -/
def readLevel (n : Node) (scope : List String) : Nat → List Char → Option (Formula × List Char)
  | 0, cs => do
    let (f, cs) ← n |>.readHead scope cs
    n |>.readTail scope f cs
  | k + 1, cs => do
    let (f, cs) ← n |>.readLevel scope k cs
    match Link.next? cs with
    | some (l, rest) =>
      if l.level = k + 1 then
        let (fs, cs) ← n |>.readJoined scope l rest
        return (← joined? n l (f :: fs), cs)
      else return (f, cs)
    | none => return (f, cs)
partial_fixpoint

/-- The formulas that go on behind a link, as long as it is repeated. -/
def readJoined (n : Node) (scope : List String) (l : Link) (cs : List Char) :
    Option (List Formula × List Char) := do
  let (f, cs) ← n |>.readLevel scope (l.level - 1) cs
  match Link.next? cs with
  | some (l', rest) =>
    if l' = l then
      let (fs, cs) ← n |>.readJoined scope l rest
      return (f :: fs, cs)
    else return ([f], cs)
  | none => return ([f], cs)
partial_fixpoint

/-- The applications, images and converses that go on from an expression. -/
def readTail (n : Node) (scope : List String) : Formula → List Char → Option (Formula × List Char)
  | .expr f, '(' :: cs => do
    let (x, cs) ← n |>.readExpr scope cs
    n |>.readTail scope (.expr (.binary n .funImage f x)) (← after ')' cs)
  | .expr r, '[' :: cs => do
    let (s, cs) ← n |>.readExpr scope cs
    n |>.readTail scope (.expr (.binary n .relImage r s)) (← after ']' cs)
  | .expr r, '∼' :: cs => n |>.readTail scope (.expr (.unary n .converse r)) cs
  | f, cs => some (f, cs)
partial_fixpoint

def readExpr (n : Node) (scope : List String) (cs : List Char) : Option (Expr × List Char) := do
  let (f, cs) ← n |>.readLevel scope 1 cs
  return (← f.expr?, cs)
partial_fixpoint

def readPred (n : Node) (scope : List String) (cs : List Char) : Option (Pred × List Char) := do
  let (f, cs) ← n |>.readLevel scope 3 cs
  return (← f.pred?, cs)
partial_fixpoint

def readMembers (n : Node) (scope : List String) (cs : List Char) : Option (List Expr × List Char) := do
  let (e, cs) ← n |>.readExpr scope cs
  match cs with
  | ',' :: ' ' :: cs => do
    let (es, cs) ← n |>.readMembers scope cs
    return (e :: es, cs)
  | cs => return ([e], cs)
partial_fixpoint

def readArgument (n : Node) (scope : List String) (cs : List Char) : Option (Expr × List Char) := do
  let (e, cs) ← n |>.readExpr scope (← after '(' cs)
  return (e, ← after ')' cs)
partial_fixpoint

/-- A binder from its declarations to the end of its body. -/
def readBinder (n : Node) (scope : List String) (op : SetBinder) (cs : List Char) :
    Option (Expr × List Char) := do
  let (xs, cs) := splitNames cs
  let (p, cs) ← n |>.readPred (xs.reverse ++ scope) cs
  match Link.next? cs with
  | some (.bar, cs) => do
    let (e, cs) ← n |>.readExpr (xs.reverse ++ scope) cs
    return (.quantified n op (xs.map (⟨·, 0⟩)) p e, cs)
  | _ => none
partial_fixpoint

def readQuantified (n : Node) (scope : List String) (op : Quantifier) (cs : List Char) :
    Option (Formula × List Char) := do
  let (xs, cs) := splitNames cs
  let (p, cs) ← n |>.readPred (xs.reverse ++ scope) cs
  return (.pred (.quantified n op (xs.map (⟨·, 0⟩)) p), cs)
partial_fixpoint

/-- A set in braces. If its first member is followed neither by another one nor by the end of the set, then it is no
member but the name of a declaration. -/
def readBraced (n : Node) (scope : List String) : List Char → Option (Expr × List Char)
  | '\x7d' :: cs => some (.set n [] none, cs)
  | cs => do
    let (_, rest) ← n |>.readExpr scope cs
    if rest.head? = some '\x7d' ∨ rest.take 2 = [',', ' '] then
      let (es, cs) ← n |>.readMembers scope cs
      return (.set n es none, ← after '\x7d' cs)
    else
      let (e, cs) ← n |>.readBinder scope .comprehension cs
      return (e, ← after '\x7d' cs)
partial_fixpoint

/-- The formula before any tail and any link. -/
def readHead (n : Node) (scope : List String) (cs : List Char) : Option (Formula × List Char) :=
  let (w, rest) := splitWord cs
  if w = "" then n |>.readSymbol scope cs else n |>.readWord scope w rest
partial_fixpoint

def readSymbol (n : Node) (scope : List String) : List Char → Option (Formula × List Char)
  | '(' :: cs => do
    let (f, cs) ← n |>.readLevel scope 3 cs
    return (f, ← after ')' cs)
  | '∅' :: cs => some (.expr (.atom n .emptySet none), cs)
  | 'ℙ' :: cs => do
    let (e, cs) ← n |>.readArgument scope cs
    return (.expr (.unary n .pow e), cs)
  | '\x7b' :: cs => do
    let (e, cs) ← n |>.readBraced scope cs
    return (.expr e, cs)
  | '⋃' :: cs => do
    let (e, cs) ← n |>.readBinder scope .union cs
    return (.expr e, cs)
  | '⋂' :: cs => do
    let (e, cs) ← n |>.readBinder scope .inter cs
    return (.expr e, cs)
  | '⊤' :: cs => some (.pred (.literal n true), cs)
  | '⊥' :: cs => some (.pred (.literal n false), cs)
  | '¬' :: cs => do
    let (f, cs) ← n |>.readLevel scope 2 cs
    return (.pred (.not n (← f.pred?)), cs)
  | '∀' :: cs => n |>.readQuantified scope .all cs
  | '∃' :: cs => n |>.readQuantified scope .exist cs
  | _ => none
partial_fixpoint

def readWord (n : Node) (scope : List String) (w : String) (cs : List Char) : Option (Formula × List Char) :=
  match w with
  | "BOOL" => some (.expr (.atom n .boolSet none), cs)
  | "TRUE" => some (.expr (.atom n .truth none), cs)
  | "FALSE" => some (.expr (.atom n .falsity none), cs)
  | "dom" => do
    let (e, cs) ← n |>.readArgument scope cs
    return (.expr (.unary n .dom e), cs)
  | "ran" => do
    let (e, cs) ← n |>.readArgument scope cs
    return (.expr (.unary n .ran e), cs)
  | "bool" => do
    let (p, cs) ← n |>.readPred scope (← after '(' cs)
    return (.expr (.bool n p), ← after ')' cs)
  | "partition" => do
    let (es, cs) ← n |>.readMembers scope (← after '(' cs)
    return (.pred (.partition n es), ← after ')' cs)
  | x => some (.expr (identifier n scope x), cs)
partial_fixpoint

end

end Node

end SetLang
