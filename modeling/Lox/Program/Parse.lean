import Lox.Diagnostic
import Lox.Program

/-!
# Reading tokens into a program

Recursive descent. A fault that ends a declaration is recorded and reading goes on at the next place where a statement
may start; a fault that does not is recorded in passing. Identities are handed out in the order in which expressions
are completed.

The rules say nothing of where the tokens come from: that is up to a `Source`. Here it is the list of the tokens
before the first `eof`.

Every function takes a bound on its depth. Each nested call either reads a token or goes on to one
of a fixed number of grammar rules, so `Parse.depth` is more than enough for a given number of tokens.
-/

namespace Lox

/-- The largest number of parameters or arguments that passes without a report. -/
def maxArity : Nat := 8

namespace Parse

/-- Why a rule ends without a result. -/
inductive Halt where
  | reject (e : Error)
  | exhausted

/-- States from which tokens are read, and what a rule can do with them. -/
class Source (ε : outParam Type) (σ : Type) where
  halt : Halt → ε
  /-- The token that is looked at: the next one, or `eof`. -/
  peek : EStateM ε σ Token
  atEnd : EStateM ε σ Bool
  /-- Whether the next token is of kind `k`. There is none at the end. -/
  sees (k : Kind) : EStateM ε σ Bool
  /-- Reads the next token if it satisfies `p`. -/
  readIf (p : Kind → Bool) : EStateM ε σ (Option Token)
  /-- Goes past the next token. -/
  skip : EStateM ε σ Unit
  /-- Records a fault and goes on. -/
  report (t : Token) (fault : SyntaxFault) : EStateM ε σ Unit
  freshId : EStateM ε σ Nat
  /-- Records the fault that ended `p` and goes on at the next statement. -/
  recovering {α : Type} (p : EStateM ε σ α) : EStateM ε σ (Option α)

export Source (peek atEnd sees readIf skip report freshId recovering)

section

variable {ε σ : Type} [Source ε σ]

def exhausted {α : Type} : EStateM ε σ α := throw (Source.halt σ .exhausted)

def reject {α : Type} (fault : SyntaxFault) : EStateM ε σ α := do
  throw (Source.halt σ (.reject (.syntacticAt (← peek) fault)))

def accept (k : Kind) : EStateM ε σ (Option Token) := readIf (·.alike k)

def expect (k : Kind) (what : Expected) : EStateM ε σ Token := do
  match ← accept k with
  | some t => return t
  | none => reject (.expected what)

end

/-! ## Expressions -/

/-- The binary operators by how tightly they bind, loosest first. -/
inductive Level where
  | or | and | equality | comparison | term | factor
  deriving Repr, DecidableEq

def Level.tighter? : Level → Option Level
  | or => some and
  | and => some equality
  | equality => some comparison
  | comparison => some term
  | term => some factor
  | factor => none

def Level.has : Level → Kind → Bool
  | or, .keyword .orKw => true
  | and, .keyword .andKw => true
  | equality, .symbol s => s = .bangEqual || s = .equalEqual
  | comparison, .symbol s => s = .greater || s = .greaterEqual || s = .less || s = .lessEqual
  | term, .symbol s => s = .minus || s = .plus
  | factor, .symbol s => s = .star || s = .slash
  | _, _ => false

def Level.join : Level → Expr → Token → Expr → Expr
  | or => .logical
  | and => .logical
  | _ => .binary

def isUnary : Kind → Bool
  | .symbol s => s = .bang || s = .minus
  | _ => false

section

variable {ε σ : Type} [Source ε σ]

/-- The target of an assignment with the value it is given. Only a variable or a property can be
assigned to; anything else is reported and stands for the whole. -/
def assignTo (target : Expr) (equals : Token) (value : Expr) : EStateM ε σ Expr := do
  match target with
  | .var _ name => return .assign (← freshId) name value
  | .get object name => return .set object name value
  | other =>
    report equals .invalidTarget
    return other

def superReference (keyword : Token) : EStateM ε σ Expr := do
  let _ ← expect (.symbol .dot) .superDot
  let method ← expect .identifier .superMethodName
  return .superRef (← freshId) keyword method

mutual

def expression : Nat → EStateM ε σ Expr
  | 0 => exhausted
  | n + 1 => do
    let target ← operation n .or
    match ← accept (.symbol .equal) with
    | none => return target
    | some equals =>
      let value ← expression n
      assignTo target equals value

/-- Operands of the tighter level, joined from the left. -/
def operation : Nat → Level → EStateM ε σ Expr
  | 0, _ => exhausted
  | n + 1, level => do
    let left ← operand n level
    operationRest n level left

def operand : Nat → Level → EStateM ε σ Expr
  | 0, _ => exhausted
  | n + 1, level =>
    match level.tighter? with
    | some tighter => operation n tighter
    | none => unary n

def operationRest : Nat → Level → Expr → EStateM ε σ Expr
  | 0, _, _ => exhausted
  | n + 1, level, left => do
    match ← readIf level.has with
    | none => return left
    | some op =>
      let right ← operand n level
      operationRest n level (level.join left op right)

def unary : Nat → EStateM ε σ Expr
  | 0 => exhausted
  | n + 1 => do
    match ← readIf isUnary with
    | none => suffixed n
    | some op => return .unary op (← unary n)

/-- A primary expression with the calls and properties that follow it. -/
def suffixed : Nat → EStateM ε σ Expr
  | 0 => exhausted
  | n + 1 => do
    let e ← primary n
    suffixes n e

def suffixes : Nat → Expr → EStateM ε σ Expr
  | 0, _ => exhausted
  | n + 1, e => do
    match ← accept (.symbol .leftParen) with
    | some _ =>
      let args ← if ← sees (.symbol .rightParen) then pure [] else arguments n 0
      let paren ← expect (.symbol .rightParen) .argumentsEnd
      suffixes n (.call e paren args)
    | none =>
      match ← accept (.symbol .dot) with
      | some _ =>
        let name ← expect .identifier .propertyName
        suffixes n (.get e name)
      | none => return e

/-- One or more arguments, `count` having been read before them. -/
def arguments : Nat → Nat → EStateM ε σ (List Expr)
  | 0, _ => exhausted
  | n + 1, count => do
    if maxArity ≤ count then report (← peek) .tooManyArguments
    let first ← expression n
    match ← accept (.symbol .comma) with
    | some _ => return first :: (← arguments n (count + 1))
    | none => return [first]

def primary : Nat → EStateM ε σ Expr
  | 0 => exhausted
  | n + 1 => do
    let t ← peek
    match t.kind with
    | .keyword .falseKw => skip; return .literal (.bool false)
    | .keyword .trueKw => skip; return .literal (.bool true)
    | .keyword .nilKw => skip; return .literal .nil
    | .number x => skip; return .literal (.number x)
    | .string s => skip; return .literal (.string s)
    | .keyword .superKw => skip; superReference t
    | .keyword .thisKw => skip; return .thisRef (← freshId) t
    | .identifier => skip; return .var (← freshId) t
    | .symbol .leftParen =>
      skip
      let inner ← expression n
      let _ ← expect (.symbol .rightParen) .groupEnd
      return .group inner
    | _ => reject (.expected .expression)

end

/-! ## Statements -/

/-- An expression, unless the next token is of kind `k`. -/
def expressionUnless (n : Nat) (k : Kind) : EStateM ε σ (Option Expr) := do
  if ← sees k then return none else return some (← expression n)

def semicolon (what : Expected) : EStateM ε σ Unit := discard (expect (.symbol .semicolon) what)

/-- What follows the word `var`. -/
def varDeclaration (n : Nat) : EStateM ε σ Stmt := do
  let name ← expect .identifier .variableName
  let init ← match ← accept (.symbol .equal) with
    | some _ => some <$> expression n
    | none => pure none
  semicolon .variableEnd
  return .varDecl name init

def expressionStatement (n : Nat) : EStateM ε σ Stmt := do
  let e ← expression n
  semicolon .expressionEnd
  return .expr e

/-- One or more parameters, `count` having been read before them. -/
def parameters : Nat → Nat → EStateM ε σ (List Token)
  | 0, _ => exhausted
  | n + 1, count => do
    if maxArity ≤ count then report (← peek) .tooManyParameters
    let first ← expect .identifier .parameterName
    match ← accept (.symbol .comma) with
    | some _ => return first :: (← parameters n (count + 1))
    | none => return [first]

/-- The loop that stands for a `for` statement. -/
def forLoop (init : Option Stmt) (cond increment : Option Expr) (body : Stmt) : Stmt :=
  let body := match increment with
    | some e => .block [body, .expr e]
    | none => body
  let loop := .loop (cond.getD (.literal (.bool true))) body
  match init with
  | some first => .block [first, loop]
  | none => loop

def startsStatement : Kind → Bool
  | .keyword k =>
    match k with
    | .classKw | .funKw | .varKw | .forKw | .ifKw | .whileKw | .printKw | .returnKw | .breakKw
    | .executeKw => true
    | _ => false
  | _ => false

mutual

/-- A declaration, or nothing if it had a fault. -/
def declaration : Nat → EStateM ε σ (Option Stmt)
  | 0 => exhausted
  | n + 1 => recovering do
    match ← accept (.keyword .classKw) with
    | some _ => classDeclaration n
    | none =>
      match ← accept (.keyword .funKw) with
      | some _ => return .function (← routine n .function)
      | none =>
        match ← accept (.keyword .varKw) with
        | some _ => varDeclaration n
        | none => statement n

def classDeclaration : Nat → EStateM ε σ Stmt
  | 0 => exhausted
  | n + 1 => do
    let name ← expect .identifier .className
    let superclass ← match ← accept (.symbol .less) with
      | some _ => do
        let superName ← expect .identifier .superclassName
        pure (some (.var (← freshId) superName))
      | none => pure none
    let _ ← expect (.symbol .leftBrace) .classBody
    let methods ← methods n
    let _ ← expect (.symbol .rightBrace) .classEnd
    return .classDecl name superclass methods

def methods : Nat → EStateM ε σ (List Routine)
  | 0 => exhausted
  | n + 1 => do
    if (← sees (.symbol .rightBrace)) || (← atEnd) then return []
    let first ← routine n .method
    return first :: (← methods n)

def routine : Nat → RoutineKind → EStateM ε σ Routine
  | 0, _ => exhausted
  | n + 1, kind => do
    let name ← expect .identifier (.routineName kind)
    let _ ← expect (.symbol .leftParen) (.parameterList kind)
    let params ← if ← sees (.symbol .rightParen) then pure [] else parameters n 0
    let _ ← expect (.symbol .rightParen) .parameterListEnd
    let _ ← expect (.symbol .leftBrace) (.routineBody kind)
    return ⟨name, params, ← block n⟩

/-- The declarations up to a closing brace, which is read too. -/
def block : Nat → EStateM ε σ (List Stmt)
  | 0 => exhausted
  | n + 1 => do
    if (← sees (.symbol .rightBrace)) || (← atEnd) then
      let _ ← expect (.symbol .rightBrace) .blockEnd
      return []
    match ← declaration n with
    | some first => return first :: (← block n)
    | none => block n

def statement : Nat → EStateM ε σ Stmt
  | 0 => exhausted
  | n + 1 => do
    let t ← peek
    match t.kind with
    | .keyword .forKw => skip; forStatement n
    | .keyword .ifKw => skip; ifStatement n
    | .keyword .printKw =>
      skip
      let e ← expression n
      semicolon .printEnd
      return .print e
    | .keyword .breakKw =>
      skip
      semicolon .breakEnd
      return .breakLoop t
    | .keyword .executeKw =>
      skip
      let path ← expression n
      semicolon .executeEnd
      return .execute t path
    | .keyword .returnKw =>
      skip
      let value ← expressionUnless n (.symbol .semicolon)
      semicolon .returnEnd
      return .returnWith t value
    | .keyword .whileKw =>
      skip
      let _ ← expect (.symbol .leftParen) .whileCondition
      let cond ← expression n
      let _ ← expect (.symbol .rightParen) .whileConditionEnd
      return .loop cond (← statement n)
    | .symbol .leftBrace => skip; return .block (← block n)
    | _ => expressionStatement n

def forStatement : Nat → EStateM ε σ Stmt
  | 0 => exhausted
  | n + 1 => do
    let _ ← expect (.symbol .leftParen) .forClauses
    let init ← match ← accept (.symbol .semicolon) with
      | some _ => pure none
      | none =>
        match ← accept (.keyword .varKw) with
        | some _ => some <$> varDeclaration n
        | none => some <$> expressionStatement n
    let cond ← expressionUnless n (.symbol .semicolon)
    semicolon .loopConditionEnd
    let increment ← expressionUnless n (.symbol .rightParen)
    let _ ← expect (.symbol .rightParen) .forClausesEnd
    return forLoop init cond increment (← statement n)

def ifStatement : Nat → EStateM ε σ Stmt
  | 0 => exhausted
  | n + 1 => do
    let _ ← expect (.symbol .leftParen) .ifCondition
    let cond ← expression n
    let _ ← expect (.symbol .rightParen) .ifConditionEnd
    let yes ← statement n
    match ← accept (.keyword .elseKw) with
    | some _ => return .branch cond yes (some (← statement n))
    | none => return .branch cond yes none

end

/-- Declarations up to the end. -/
def program : Nat → EStateM ε σ (List Stmt)
  | 0 => exhausted
  | n + 1 => do
    if ← atEnd then return []
    match ← declaration n with
    | some first => return first :: (← program n)
    | none => program n

end

/-- A depth that no list of `tokens` tokens reaches. -/
def depth (tokens : Nat) : Nat := 32 * (tokens + 1)

def isEof (t : Token) : Bool := t.kind.alike .eof

/-- The token that ends the program: the first `eof`, or one on the line of the last token. -/
def endOf (tokens : List Token) : Token :=
  match tokens.find? isEof with
  | some t => t
  | none => ⟨.eof, "", (tokens.getLast?.map (·.line)).getD 1⟩

/-- The tokens with an `eof` behind them, if they do not end in one. -/
def ended (tokens : List Token) : List Token :=
  if tokens.getLast?.any isEof then tokens
  else tokens ++ [⟨.eof, "", (tokens.getLast?.map (·.line)).getD 1⟩]

/-! ## A list of tokens -/

structure State where
  rest : List Token
  eof : Token
  nextId : Nat
  errors : List Error := []

end Parse

abbrev Parse := EStateM Parse.Halt Parse.State

namespace Parse

/-- The tokens from the next statement on: after a semicolon or before a word that starts one.
`last` is the token before `rest`. -/
def resume (last : Token) : List Token → List Token
  | [] => []
  | t :: rest =>
    if last.kind.alike (.symbol .semicolon) || startsStatement t.kind then t :: rest
    else resume t rest

/-- Leaves out the token at fault, so that reading goes on in any case. -/
def skipFault : List Token → List Token
  | [] => []
  | t :: rest => resume t rest

instance : Source Halt State where
  halt := id
  peek := do return (← get).rest.headD (← get).eof
  atEnd := return (← get).rest.isEmpty
  sees k := do
    match (← get).rest with
    | [] => return false
    | t :: _ => return t.kind.alike k
  readIf p s :=
    match s.rest with
    | [] => .ok none s
    | t :: rest => if p t.kind then .ok (some t) { s with rest := rest } else .ok none s
  skip := modify fun s => { s with rest := s.rest.tail }
  report t fault := modify fun s => { s with errors := s.errors ++ [.syntacticAt t fault] }
  freshId := modifyGet fun s => (s.nextId, { s with nextId := s.nextId + 1 })
  recovering p s :=
    match p s with
    | .ok a s => .ok (some a) s
    | .error (.reject e) s => .ok none { s with errors := s.errors ++ [e], rest := skipFault s.rest }
    | .error .exhausted s => .error .exhausted s

theorem readIf_apply (p : Kind → Bool) (s : State) : readIf p s =
    match s.rest with
    | [] => .ok none s
    | t :: rest => if p t.kind then .ok (some t) { s with rest := rest } else .ok none s := rfl

theorem recovering_apply {α : Type} (p : Parse α) (s : State) : recovering p s =
    match p s with
    | .ok a s => .ok (some a) s
    | .error (.reject e) s => .ok none { s with errors := s.errors ++ [e], rest := skipFault s.rest }
    | .error .exhausted s => .error .exhausted s := rfl

/-- Where reading starts. What is behind the first `eof` is left out here; `Parser` keeps it. -/
def start (tokens : List Token) (nextId : Nat) : State where
  rest := tokens.takeWhile (!isEof ·)
  eof := endOf tokens
  nextId := nextId

end Parse

/-- The program that `tokens` spell, or all their faults, and the next unused identity. -/
def Stmt.parse (tokens : List Token) (nextId : Nat) : Except (List Error) (List Stmt) × Nat :=
  match Parse.program (Parse.depth tokens.length) (Parse.start tokens nextId) with
  | .ok stmts s => (if s.errors.isEmpty then .ok stmts else .error s.errors, s.nextId)
  | .error _ s => (.error s.errors, s.nextId)

end Lox
