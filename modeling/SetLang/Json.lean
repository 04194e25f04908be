/-! JSON texts, read strictly: no comments, no trailing commas, no raw controls in strings. A string
may hold escaped UTF-16 units that do not pair up; such a string is part of a well-formed text but
has no characters to read. -/

namespace SetLang

/-- A JSON value. Strings that cannot be read are `none`; members keep their order and may repeat
a key. -/
inductive Json where
  | null
  | bool (b : Bool)
  | number (digits : String)
  | string (s : Option String)
  | array (items : List Json)
  | object (members : List (Option String × Json))

namespace Json

def skipBlanks (cs : List Char) : List Char :=
  cs.dropWhile fun c => c = ' ' || c = '\t' || c = '\n' || c = '\r'

def after? : List Char → List Char → Option (List Char)
  | [], cs => some cs
  | e :: es, c :: cs => if e = c then after? es cs else none
  | _ :: _, [] => none

def hexDigit? (c : Char) : Option Nat :=
  if '0' ≤ c ∧ c ≤ '9' then some (c.toNat - '0'.toNat)
  else if 'a' ≤ c ∧ c ≤ 'f' then some (c.toNat - 'a'.toNat + 10)
  else if 'A' ≤ c ∧ c ≤ 'F' then some (c.toNat - 'A'.toNat + 10)
  else none

/-- One element of a string: a character, or a UTF-16 unit written by its number. -/
inductive Unit16 where
  | char (c : Char)
  | unit (n : Nat)

def simpleEscape? : Char → Option Char
  | '"' => some '"'
  | '\\' => some '\\'
  | '/' => some '/'
  | 'b' => some '\x08'
  | 'f' => some '\x0c'
  | 'n' => some '\n'
  | 'r' => some '\r'
  | 't' => some '\t'
  | _ => none

/-- The elements of a string up to its closing quote, and what follows the quote. -/
def stringBody? : List Char → Option (List Unit16 × List Char)
  | [] => none
  | '"' :: rest => some ([], rest)
  | '\\' :: 'u' :: a :: b :: c :: d :: rest => do
    let n := (((← hexDigit? a) * 16 + (← hexDigit? b)) * 16 + (← hexDigit? c)) * 16
      + (← hexDigit? d)
    let (units, rest) ← stringBody? rest
    return (.unit n :: units, rest)
  | '\\' :: e :: rest => do
    let c ← simpleEscape? e
    let (units, rest) ← stringBody? rest
    return (.char c :: units, rest)
  | c :: rest => do
    if c.toNat < 0x20 || c = '\\' then none
    let (units, rest) ← stringBody? rest
    return (.char c :: units, rest)

/-- The characters that the elements of a string stand for, if its surrogates pair up. -/
def characters? : List Unit16 → Option (List Char)
  | [] => some []
  | .char c :: rest => (c :: ·) <$> characters? rest
  | .unit n :: rest =>
    if n < 0xD800 ∨ 0xDFFF < n then (Char.ofNat n :: ·) <$> characters? rest
    else
      match rest with
      | .unit l :: rest =>
        if n < 0xDC00 ∧ 0xDC00 ≤ l ∧ l ≤ 0xDFFF then
          (Char.ofNat (0x10000 + (n - 0xD800) * 0x400 + (l - 0xDC00)) :: ·) <$> characters? rest
        else none
      | _ => none

def stringTail? (cs : List Char) : Option (Option String × List Char) := do
  let (units, rest) ← stringBody? cs
  return ((characters? units).map String.ofList, rest)

def digits? (cs : List Char) : Option (List Char × List Char) :=
  match cs.takeWhile Char.isDigit with
  | [] => none
  | ds => some (ds, cs.dropWhile Char.isDigit)

/-- A whole part: a zero alone, or digits that do not start with zero. -/
def whole? : List Char → Option (List Char × List Char)
  | '0' :: rest => some (['0'], rest)
  | cs => digits? cs

def fraction? : List Char → Option (List Char × List Char)
  | '.' :: rest => do
    let (ds, rest) ← digits? rest
    return ('.' :: ds, rest)
  | cs => some ([], cs)

def exponent? : List Char → Option (List Char × List Char)
  | e :: rest =>
    if e = 'e' ∨ e = 'E' then
      let (sign, rest) := match rest with
        | '+' :: rest => (['+'], rest)
        | '-' :: rest => (['-'], rest)
        | rest => ([], rest)
      (digits? rest).map fun (ds, rest) => (e :: sign ++ ds, rest)
    else some ([], e :: rest)
  | [] => some ([], [])

def number? (cs : List Char) : Option (Json × List Char) := do
  let (sign, cs) := match cs with
    | '-' :: rest => (['-'], rest)
    | cs => ([], cs)
  let (w, cs) ← whole? cs
  let (f, cs) ← fraction? cs
  let (e, cs) ← exponent? cs
  return (.number (String.ofList (sign ++ w ++ f ++ e)), cs)

mutual

/-- A value at the start of a text, and what follows it. The first argument bounds the number of
values and of places between values that are entered one inside another. -/
def value? : Nat → List Char → Option (Json × List Char)
  | 0, _ => none
  | n + 1, cs =>
    match skipBlanks cs with
    | '"' :: rest => do
      let (s, rest) ← stringTail? rest
      return (.string s, rest)
    | '[' :: rest =>
      match skipBlanks rest with
      | ']' :: rest => some (.array [], rest)
      | rest => do
        let (items, rest) ← items? n rest
        return (.array items, rest)
    | '\x7b' :: rest =>
      match skipBlanks rest with
      | '\x7d' :: rest => some (.object [], rest)
      | rest => do
        let (members, rest) ← members? n rest
        return (.object members, rest)
    | 'n' :: rest => (after? ['u', 'l', 'l'] rest).map (.null, ·)
    | 't' :: rest => (after? ['r', 'u', 'e'] rest).map (.bool true, ·)
    | 'f' :: rest => (after? ['a', 'l', 's', 'e'] rest).map (.bool false, ·)
    | rest => number? rest

def items? : Nat → List Char → Option (List Json × List Char)
  | 0, _ => none
  | n + 1, cs => do
    let (item, rest) ← value? n cs
    match skipBlanks rest with
    | ',' :: rest => do
      let (items, rest) ← items? n rest
      return (item :: items, rest)
    | ']' :: rest => return ([item], rest)
    | _ => none

def members? : Nat → List Char → Option (List (Option String × Json) × List Char)
  | 0, _ => none
  | n + 1, cs => do
    let '"' :: rest := skipBlanks cs | none
    let (key, rest) ← stringTail? rest
    let ':' :: rest := skipBlanks rest | none
    let (item, rest) ← value? n rest
    match skipBlanks rest with
    | ',' :: rest => do
      let (members, rest) ← members? n rest
      return ((key, item) :: members, rest)
    | '\x7d' :: rest => return ([(key, item)], rest)
    | _ => none

end

def ofText? (text : String) : Option Json := do
  let cs := text.toList
  let (v, rest) ← value? (2 * cs.length + 2) cs
  if (skipBlanks rest).isEmpty then return v else none

end Json
end SetLang
