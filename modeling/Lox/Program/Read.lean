import Lox.Program.Parse
import Lox.Token.Scan

/-!
# Reading text into a program

Characters are read into tokens and tokens into statements, and the faults of both are reported
together. What could not be read as a token is left out before the tokens are parsed.
-/

namespace Lox

/-- The program that a text spells, or all its lexical faults and then all its syntax faults; with
the next unused identity. -/
def Stmt.read (source : String) (nextId : Nat) : Except (List Error) (List Stmt) × Nat :=
  let items := Token.scan source
  let lexical := Item.errors items
  match Stmt.parse (Item.tokens items) nextId with
  | (.error es, nextId) => (.error (lexical ++ es), nextId)
  | (.ok program, nextId) => (if lexical.isEmpty then .ok program else .error lexical, nextId)

end Lox
