import Lox.Numeral.Layout
import Lox.Program

/-!
# Program listings

A statement is listed as a bracketed form: the word for the construct, then its parts.
-/

namespace Lox

/-- The parts of a form, divided by blanks, in brackets. -/
def form (parts : List String) : String := "(" ++ String.intercalate " " parts ++ ")"

def Literal.listing : Literal → String
  | nil => "nil"
  | bool true => "true"
  | bool false => "false"
  | number x => Numeral.listing x
  | string s => s

mutual

def Expr.listing : Expr → String
  | .literal v => v.listing
  | .group e => form ["group", e.listing]
  | .unary op e => form [op.lexeme, e.listing]
  | .binary l op r => form [op.lexeme, l.listing, r.listing]
  | .logical l op r => form [op.lexeme, l.listing, r.listing]
  | .var _ name => name.lexeme
  | .assign _ name e => form ["=", name.lexeme, e.listing]
  | .call callee _ args => form ("call" :: callee.listing :: Expr.listings args)
  | .get object name => form [".", object.listing, name.lexeme]
  | .set object name e => form ["=", form [".", object.listing, name.lexeme], e.listing]
  | .thisRef _ _ => "this"
  | .superRef _ _ method => form ["super", method.lexeme]

def Expr.listings : List Expr → List String
  | [] => []
  | e :: rest => e.listing :: Expr.listings rest

end

def Expr.optionListing : Option Expr → List String
  | none => []
  | some e => [e.listing]

mutual

def Stmt.listing : Stmt → String
  | .expr e => form [";", e.listing]
  | .print e => form ["print", e.listing]
  | .varDecl name init => form ("var" :: name.lexeme :: Expr.optionListing init)
  | .block body => form ("block" :: Stmt.listings body)
  | .branch cond yes none => form ["if", cond.listing, yes.listing]
  | .branch cond yes (some no) => form ["if", cond.listing, yes.listing, no.listing]
  | .loop cond body => form ["while", cond.listing, body.listing]
  | .breakLoop _ => "(break)"
  | .function decl => decl.listing
  | .returnWith _ value => form ("return" :: Expr.optionListing value)
  | .classDecl name superclass methods =>
    form ("class" :: name.lexeme ::
      (Expr.optionListing superclass).flatMap (["<", ·]) ++ Routine.listings methods)
  | .execute _ path => form ["execute", path.listing]

def Stmt.listings : List Stmt → List String
  | [] => []
  | s :: rest => s.listing :: Stmt.listings rest

def Routine.listing : Routine → String
  | ⟨name, params, body⟩ =>
    form ("fun" :: name.lexeme :: form (params.map (·.lexeme)) :: Stmt.listings body)

def Routine.listings : List Routine → List String
  | [] => []
  | r :: rest => r.listing :: Routine.listings rest

end

end Lox
