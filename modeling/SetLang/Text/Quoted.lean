import SetLang.Text.Unprintable

/-! Quoted text. Quotes and backslashes follow a backslash, a few controls have letters, and other
characters that cannot be seen are written by their number. -/

namespace SetLang

namespace Quoted

def hexDigits (n : Nat) : String := String.ofList (Nat.toDigits 16 n)

def char (c : Char) : String :=
  match c with
  | '"' => "\\\""
  | '\\' => "\\\\"
  | '\n' => "\\n"
  | '\r' => "\\r"
  | '\t' => "\\t"
  | '\x00' => "\\0"
  | c => if isUnprintable c then "\\u\x7b" ++ hexDigits c.toNat ++ "\x7d" else c.toString

def text (s : String) : String := "\"" ++ String.join (s.toList.map char) ++ "\""

end Quoted
end SetLang
