import Lox.Numeral.Layout
import Lox.Text.Json
import Lox.Token

/-!
# Texts of tokens

A token is listed as its kind, its lexeme and its literal, or written as a JSON object.
-/

namespace Lox

/-- The literal of a kind as it is listed; kinds without one have `null`. -/
def Kind.literalText : Kind → String
  | .string contents => contents
  | .number value => Numeral.literal value
  | _ => "null"

def Kind.json : Kind → String
  | .string contents => "\x7b\"STRING\":" ++ Text.jsonString contents ++ "\x7d"
  | .number value => "\x7b\"NUMBER\":" ++ Numeral.json value ++ "\x7d"
  | k => Text.jsonString k.name

namespace Token

def text (t : Token) : String :=
  t.kind.name ++ " " ++ t.lexeme ++ " " ++ t.kind.literalText

def json (t : Token) : String :=
  "\x7b\"token_type\":" ++ t.kind.json ++ ",\"lexeme\":" ++ Text.jsonString t.lexeme ++ ",\"line\":" ++
    Nat.repr t.line ++ "\x7d"

end Token
end Lox
