import Lox.Text.Printable

/-!
# Quoted texts

Names and paths are shown between double quotes, with what cannot be seen written as its code.
-/

namespace Lox.Text

def hexCode (c : Char) : String :=
  "\\u\x7b" ++ String.ofList (Nat.toDigits 16 c.toNat) ++ "\x7d"

def escape (c : Char) : String :=
  match c with
  | '\x00' => "\\0"
  | '\t' => "\\t"
  | '\r' => "\\r"
  | '\n' => "\\n"
  | '\\' => "\\\\"
  | '"' => "\\\""
  | c => if isPrintable c then String.ofList [c] else hexCode c

def quoted (s : String) : String := "\"" ++ String.join (s.toList.map escape) ++ "\""

end Lox.Text
