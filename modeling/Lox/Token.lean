/-!
# Tokens

A token is a kind, the text it was read from, and the line on which that text ends. The literal of
a number or a string belongs to the kind. Two kinds are `alike` when they differ at most in their
literals, and token equality looks no further than that.
-/

namespace Lox

/-- The words that are no names. -/
inductive Keyword where
  | andKw | breakKw | classKw | elseKw | executeKw | falseKw | funKw | forKw | ifKw | nilKw | orKw
  | printKw | returnKw | superKw | thisKw | trueKw | varKw | whileKw
  deriving Repr, DecidableEq

namespace Keyword

def all : List Keyword :=
  [andKw, breakKw, classKw, elseKw, executeKw, falseKw, funKw, forKw, ifKw, nilKw, orKw, printKw,
    returnKw, superKw, thisKw, trueKw, varKw, whileKw]

/-- The word as it is written. -/
def word : Keyword → String
  | andKw => "and" | breakKw => "break" | classKw => "class" | elseKw => "else"
  | executeKw => "execute" | falseKw => "false" | funKw => "fun" | forKw => "for" | ifKw => "if"
  | nilKw => "nil" | orKw => "or" | printKw => "print" | returnKw => "return" | superKw => "super"
  | thisKw => "this" | trueKw => "true" | varKw => "var" | whileKw => "while"

def ofWord? (w : String) : Option Keyword := all.find? (·.word == w)

end Keyword

/-- The marks of one or two characters. -/
inductive Symbol where
  | leftParen | rightParen | leftBrace | rightBrace | comma | dot | minus | plus | semicolon
  | slash | star | bang | bangEqual | equal | equalEqual | greater | greaterEqual | less | lessEqual
  deriving Repr, DecidableEq

inductive Kind where
  | symbol (s : Symbol)
  | identifier
  | string (contents : String)
  | number (value : Float)
  | keyword (k : Keyword)
  | eof
  deriving DecidableEq

structure Token where
  kind : Kind
  lexeme : String
  line : Nat
  deriving DecidableEq

def Symbol.name : Symbol → String
  | leftParen => "LEFT_PAREN" | rightParen => "RIGHT_PAREN" | leftBrace => "LEFT_BRACE"
  | rightBrace => "RIGHT_BRACE" | comma => "COMMA" | dot => "DOT" | minus => "MINUS"
  | plus => "PLUS" | semicolon => "SEMICOLON" | slash => "SLASH" | star => "STAR" | bang => "BANG"
  | bangEqual => "BANG_EQUAL" | equal => "EQUAL" | equalEqual => "EQUAL_EQUAL"
  | greater => "GREATER" | greaterEqual => "GREATER_EQUAL" | less => "LESS"
  | lessEqual => "LESS_EQUAL"

def Symbol.all : List Symbol :=
  [leftParen, rightParen, leftBrace, rightBrace, comma, dot, minus, plus, semicolon, slash, star,
    bang, bangEqual, equal, equalEqual, greater, greaterEqual, less, lessEqual]

def Keyword.name : Keyword → String
  | andKw => "AND" | breakKw => "BREAK" | classKw => "CLASS" | elseKw => "ELSE"
  | executeKw => "EXECUTE" | falseKw => "FALSE" | funKw => "FUN" | forKw => "FOR" | ifKw => "IF"
  | nilKw => "NIL" | orKw => "OR" | printKw => "PRINT" | returnKw => "RETURN" | superKw => "SUPER"
  | thisKw => "THIS" | trueKw => "TRUE" | varKw => "VAR" | whileKw => "WHILE"

namespace Kind

/-- The name of the kind, without its literal. -/
def name : Kind → String
  | symbol s => s.name
  | identifier => "IDENTIFIER"
  | string _ => "STRING"
  | number _ => "NUMBER"
  | keyword k => k.name
  | eof => "EOF"

/-- Equal up to literals. -/
def alike : Kind → Kind → Bool
  | symbol s, symbol t => s = t
  | identifier, identifier => true
  | string _, string _ => true
  | number _, number _ => true
  | keyword j, keyword k => j = k
  | eof, eof => true
  | _, _ => false

@[simp] theorem alike_refl (k : Kind) : k.alike k = true := by cases k <;> simp [alike]

end Kind

/-- Token equality, which leaves literals out. -/
def Token.alike (t u : Token) : Bool :=
  t.kind.alike u.kind && t.lexeme == u.lexeme && t.line == u.line

@[simp] theorem Token.alike_refl (t : Token) : t.alike t = true := by simp [Token.alike]

end Lox
