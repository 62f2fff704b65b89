import Lox.Token

/-!
# Diagnostics

An error is a fault with the place it was found at. Each stage has its own type of faults, and
each type its own wording; `custom` is the wording of a host that reports a fault of its own.
`Error.text` is the line that a user sees.
-/

namespace Lox

/-- Where in the program a fault was found. -/
inductive Place where
  | atEnd
  | at (lexeme : String)
  deriving Repr, DecidableEq

def Place.text : Place → String
  | .atEnd => " at end"
  | .at lexeme => " at '" ++ lexeme ++ "'"

def Token.place (t : Token) : Place :=
  match t.kind with
  | .eof => .atEnd
  | _ => .at t.lexeme

/-- Faults of single characters. -/
inductive LexicalFault where
  | unexpectedCharacter (c : Char)
  | unterminatedString
  | custom (wording : String)
  deriving Repr, DecidableEq

def LexicalFault.message : LexicalFault → String
  | unexpectedCharacter c => "Unexpected character: " ++ String.ofList [c]
  | unterminatedString => "Unterminated string."
  | custom wording => wording

inductive RoutineKind where
  | function
  | method
  deriving Repr, DecidableEq

def RoutineKind.word : RoutineKind → String
  | function => "function"
  | method => "method"

/-- What the grammar asks for at a place where something else stands. -/
inductive Expected where
  | expression
  | className
  | superclassName
  | classBody
  | classEnd
  | routineName (kind : RoutineKind)
  | parameterList (kind : RoutineKind)
  | parameterName
  | parameterListEnd
  | routineBody (kind : RoutineKind)
  | variableName
  | variableEnd
  | forClauses
  | loopConditionEnd
  | forClausesEnd
  | ifCondition
  | ifConditionEnd
  | whileCondition
  | whileConditionEnd
  | printEnd
  | breakEnd
  | executeEnd
  | returnEnd
  | expressionEnd
  | blockEnd
  | propertyName
  | argumentsEnd
  | superDot
  | superMethodName
  | groupEnd
  deriving Repr, DecidableEq

def Expected.text : Expected → String
  | expression => "expression"
  | className => "class name"
  | superclassName => "superclass name"
  | classBody => "'\x7b' before class body"
  | classEnd => "'\x7d' after class body"
  | routineName kind => kind.word ++ " name"
  | parameterList kind => "'(' after " ++ kind.word ++ " name"
  | parameterName => "parameter name"
  | parameterListEnd => "')' after parameters"
  | routineBody kind => "'\x7b' before " ++ kind.word ++ " body"
  | variableName => "variable name"
  | variableEnd => "';' after variable declaration"
  | forClauses => "'(' after 'for'"
  | loopConditionEnd => "';' after loop condition"
  | forClausesEnd => "')' after for clauses"
  | ifCondition => "'(' after 'if'"
  | ifConditionEnd => "')' after if condition"
  | whileCondition => "'(' after 'while'"
  | whileConditionEnd => "')' after condition"
  | printEnd => "';' after value"
  | breakEnd => "';' after 'break'"
  | executeEnd => "';' after execute path"
  | returnEnd => "';' after return value"
  | expressionEnd => "';' after expression"
  | blockEnd => "'\x7d' after block"
  | propertyName => "property name after '.'"
  | argumentsEnd => "')' after arguments"
  | superDot => "'.' after 'super'"
  | superMethodName => "superclass method name"
  | groupEnd => "')' after expression"

/-- Faults of the grammar. -/
inductive SyntaxFault where
  | expected (what : Expected)
  | tooManyParameters
  | tooManyArguments
  | invalidTarget
  | custom (wording : String)
  deriving Repr, DecidableEq

def SyntaxFault.message : SyntaxFault → String
  | expected what => "Expected " ++ what.text ++ "."
  | tooManyParameters => "Cannot have more than 8 parameters."
  | tooManyArguments => "Cannot have more than 8 arguments."
  | invalidTarget => "Invalid assignment target."
  | custom wording => wording

/-- Faults of a program that reads well but cannot mean anything. -/
inductive ScopeFault where
  | alreadyDeclared
  | readInOwnInitializer
  | breakOutsideLoop
  | returnOutsideFunction
  | initializerReturnsValue
  | thisOutsideClass
  | superOutsideClass
  | superWithoutSuperclass
  | inheritsFromItself
  | superclassNotNamed
  | custom (wording : String)
  deriving Repr, DecidableEq

def ScopeFault.message : ScopeFault → String
  | alreadyDeclared => "Variable with this name already declared in this scope."
  | readInOwnInitializer => "Cannot read local variable in its own initializer."
  | breakOutsideLoop => "Cannot break outside of loop."
  | returnOutsideFunction => "Cannot return from top-level code."
  | initializerReturnsValue => "Cannot return a value from an initializer."
  | thisOutsideClass => "Cannot use 'this' outside of a class."
  | superOutsideClass => "Cannot use 'super' outside of a class."
  | superWithoutSuperclass => "Cannot use 'super' in a class with no superclass."
  | inheritsFromItself => "A class cannot inherit from itself."
  | superclassNotNamed => "Superclass must be a class name."
  | custom wording => wording

/-- Faults of a running program. -/
inductive RuntimeFault where
  | undefinedVariable (name : String)
  | undefinedProperty (name : String)
  | operandNotNumber
  | operandsNotNumbers
  | operandsNotAddable
  | invalidUnary
  | invalidBinary
  | notCallable
  | arity (expected given : Nat)
  | noProperties
  | noFields
  | superclassNotClass
  | pathNotString
  | noLoader
  | unboundInitializer
  | custom (wording : String)
  deriving Repr, DecidableEq

def RuntimeFault.message : RuntimeFault → String
  | undefinedVariable name => "Undefined variable '" ++ name ++ "'."
  | undefinedProperty name => "Undefined property '" ++ name ++ "'."
  | operandNotNumber => "Operand must be a number."
  | operandsNotNumbers => "Operands must be numbers."
  | operandsNotAddable => "Operands must be two numbers or at least one string."
  | invalidUnary => "Invalid unary operator."
  | invalidBinary => "Invalid binary operator."
  | notCallable => "Can only call functions and classes."
  | arity expected given =>
    "Expected " ++ Nat.repr expected ++ " arguments but got " ++ Nat.repr given ++ "."
  | noProperties => "Only instances have properties."
  | noFields => "Only instances have fields."
  | superclassNotClass => "Superclass must be a class."
  | pathNotString => "Execute path must be a string."
  | noLoader => "No script loader available."
  | unboundInitializer => "Initializer is not bound to an instance."
  | custom wording => wording

/-- Faults of the world outside. -/
inductive IoFault where
  | notFound
  | isDirectory
  | notDirectory
  | nameTooLong
  | nulInPath
  | notUtf8
  | custom (wording : String)
  deriving Repr, DecidableEq

def IoFault.message : IoFault → String
  | notFound => "No such file or directory (os error 2)"
  | isDirectory => "Is a directory (os error 21)"
  | notDirectory => "Not a directory (os error 20)"
  | nameTooLong => "File name too long (os error 36)"
  | nulInPath => "file name contained an unexpected NUL byte"
  | notUtf8 => "stream did not contain valid UTF-8"
  | custom wording => wording

inductive Error where
  | lexical (line : Nat) (fault : LexicalFault)
  | syntactic (line : Nat) (place : Place) (fault : SyntaxFault)
  | scoping (line : Nat) (place : Place) (fault : ScopeFault)
  | runtime (line : Nat) (fault : RuntimeFault)
  | script (path : String) (errors : List Error)
  | io (fault : IoFault)

namespace Error

def syntacticAt (t : Token) (fault : SyntaxFault) : Error := .syntactic t.line t.place fault
def scopingAt (t : Token) (fault : ScopeFault) : Error := .scoping t.line t.place fault
def runtimeAt (t : Token) (fault : RuntimeFault) : Error := .runtime t.line fault

/-- The errors that are found before anything runs. -/
def isStatic : Error → Bool
  | lexical .. | syntactic .. | scoping .. => true
  | runtime .. | script .. | io .. => false

end Error

def atLine (line : Nat) (rest : String) : String := "[line " ++ Nat.repr line ++ "] " ++ rest

mutual

def Error.text : Error → String
  | .lexical line fault => atLine line ("Error: " ++ fault.message)
  | .syntactic line place fault => atLine line ("Error" ++ place.text ++ ": " ++ fault.message)
  | .scoping line place fault => atLine line ("Error" ++ place.text ++ ": " ++ fault.message)
  | .runtime line fault => atLine line ("RuntimeError: " ++ fault.message)
  | .script path errors => "Failed to execute '" ++ path ++ "':" ++ Error.nestedText errors
  | .io fault => fault.message

/-- The errors of a script, each on a line of its own below the script's name. -/
def Error.nestedText : List Error → String
  | [] => ""
  | e :: rest => "\n  " ++ Error.text e ++ Error.nestedText rest

end

inductive WarningCause where
  | unusedVariable (name : String)
  | custom (wording : String)
  deriving Repr, DecidableEq

def WarningCause.message : WarningCause → String
  | unusedVariable name => "Variable '" ++ name ++ "' declared but never used."
  | custom wording => wording

structure Warning where
  line : Nat
  cause : WarningCause
  deriving Repr, DecidableEq

def Warning.text (w : Warning) : String := atLine w.line ("Warning: " ++ w.cause.message)

end Lox
