import Lox.Program.Parse

/-!
# Reading a vector of tokens

`Parser.parse` reads the language of `Stmt.parse` out of a vector that holds all the tokens, also those behind the
first `eof`. A place in the vector says how far it has been read. The place goes forward by one token, and only
where that token is no `eof`; a token is looked at by its place, and where there is none the reading is over, with
`noToken`. Unlike a fault of the text this is nothing to recover from.
-/

namespace Lox

/-- The tokens, the place of the next one, and what else a parser knows. -/
structure Parser where
  tokens : Array Token
  current : Nat := 0
  nextId : Nat
  errors : List Error := []

namespace Parser

/-- Why a rule ends without a result. -/
inductive Halt where
  | rule (halt : Parse.Halt)
  | noToken (place : Nat)

end Parser

abbrev Parsing := EStateM Parser.Halt Parser

namespace Parser
open Parse (isEof startsStatement)

/-! ## Tokens -/

def tokenAt (place : Nat) : Parsing Token := do
  match (← get).tokens[place]? with
  | some t => return t
  | none => throw (.noToken place)

def peek : Parsing Token := do tokenAt (← get).current

/-- The token that was read last, or the first if none was. -/
def previous : Parsing Token := do tokenAt ((← get).current - 1)

def atEnd : Parsing Bool := return isEof (← peek)

/-- Goes past the next token, unless it is an `eof`. -/
def advance : Parsing Token := do
  if ← atEnd then previous
  else
    modify fun p => { p with current := p.current + 1 }
    previous

/-- Whether the next token is of a kind that satisfies `is`. No `eof` is. -/
def check (is : Kind → Bool) : Parsing Bool := do
  if ← atEnd then return false else return is (← peek).kind

/-- Goes forward to a place where a statement may start. Each round reads a token, so that as many rounds as there are
tokens are enough. -/
def synchronizeLoop : Nat → Parsing Unit
  | 0 => throw (.rule .exhausted)
  | rounds + 1 => do
    if ← atEnd then return
    else if (← previous).kind.alike (.symbol .semicolon) then return
    else if startsStatement (← peek).kind then return
    else
      let _ ← advance
      synchronizeLoop rounds

/-- Leaves the token at fault behind, and all up to the next statement. -/
def synchronize : Parsing Unit := do
  let _ ← advance
  synchronizeLoop (← get).tokens.size

instance : Parse.Source Halt Parser where
  halt := .rule
  peek := peek
  atEnd := atEnd
  sees k := check (·.alike k)
  readIf is := do if ← check is then return some (← advance) else return none
  skip := discard advance
  report t fault := modify fun p => { p with errors := p.errors ++ [.syntacticAt t fault] }
  freshId := modifyGet fun p => (p.nextId, { p with nextId := p.nextId + 1 })
  recovering act p :=
    match act p with
    | .ok a p => .ok (some a) p
    | .error (.rule (.reject e)) p => (do synchronize; return none) { p with errors := p.errors ++ [e] }
    | .error halt p => .error halt p

theorem tokenAt_apply (place : Nat) (p : Parser) : tokenAt place p =
    (match p.tokens[place]? with
    | some t => pure t
    | none => throw (.noToken place) : Parsing Token) p := rfl

theorem recovering_apply {α : Type} (act : Parsing α) (p : Parser) : Parse.recovering act p =
    match act p with
    | .ok a p => .ok (some a) p
    | .error (.rule (.reject e)) p => (do synchronize; return none) { p with errors := p.errors ++ [e] }
    | .error halt p => .error halt p := rfl

/-! ## Programs -/

/-- A parser at the first of all the tokens. If they do not end in an `eof`, one is put behind them. -/
def new (tokens : List Token) (nextId : Nat) : Parser where
  tokens := (Parse.ended tokens).toArray
  nextId := nextId

/-- The program that the tokens spell, or all their faults, and the next unused identity; or why there is no such
result. -/
def parse (tokens : List Token) (nextId : Nat) : Except Halt (Except (List Error) (List Stmt) × Nat) :=
  match Parse.program (Parse.depth tokens.length) (new tokens nextId) with
  | .ok stmts p => .ok (if p.errors.isEmpty then .ok stmts else .error p.errors, p.nextId)
  | .error halt _ => .error halt

end Parser
end Lox
