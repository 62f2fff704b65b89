import Lox.Token

/-!
# Programs

A program is a list of statements. Every expression that names a variable carries a number of its
own, by which scope analysis speaks about it. Operators and names are kept as tokens,
so that a fault can be placed.
-/

namespace Lox

/-- The values that can be written down. -/
inductive Literal where
  | nil
  | bool (b : Bool)
  | number (x : Float)
  | string (s : String)
  deriving DecidableEq

inductive Expr where
  | literal (value : Literal)
  | group (inner : Expr)
  | unary (op : Token) (right : Expr)
  | binary (left : Expr) (op : Token) (right : Expr)
  | logical (left : Expr) (op : Token) (right : Expr)
  | var (id : Nat) (name : Token)
  | assign (id : Nat) (name : Token) (value : Expr)
  | call (callee : Expr) (paren : Token) (args : List Expr)
  | get (object : Expr) (name : Token)
  | set (object : Expr) (name : Token) (value : Expr)
  | thisRef (id : Nat) (keyword : Token)
  | superRef (id : Nat) (keyword : Token) (method : Token)

mutual

inductive Stmt where
  | expr (e : Expr)
  | print (e : Expr)
  | varDecl (name : Token) (init : Option Expr)
  | block (body : List Stmt)
  | branch (cond : Expr) (yes : Stmt) (no : Option Stmt)
  | loop (cond : Expr) (body : Stmt)
  | breakLoop (keyword : Token)
  | function (decl : Routine)
  | returnWith (keyword : Token) (value : Option Expr)
  | classDecl (name : Token) (superclass : Option Expr) (methods : List Routine)
  | execute (keyword : Token) (path : Expr)

/-- A declared function or method. -/
structure Routine where
  name : Token
  params : List Token
  body : List Stmt

end

def Routine.arity (r : Routine) : Nat := r.params.length

/-- Numbers compare as numbers, so not-a-number is unlike itself. -/
def Literal.alike : Literal → Literal → Bool
  | nil, nil => true
  | bool b, bool c => b == c
  | number x, number y => x == y
  | string s, string t => s == t
  | _, _ => false

mutual

/-- Equality of trees: identities and tokens count, the literals of tokens do not. -/
def Expr.alike : Expr → Expr → Bool
  | .literal v, .literal w => v.alike w
  | .group e, .group f => e.alike f
  | .unary op e, .unary op' f => op.alike op' && e.alike f
  | .binary l op r, .binary l' op' r' => l.alike l' && op.alike op' && r.alike r'
  | .logical l op r, .logical l' op' r' => l.alike l' && op.alike op' && r.alike r'
  | .var i n, .var j m => i == j && n.alike m
  | .assign i n e, .assign j m f => i == j && n.alike m && e.alike f
  | .call c p as, .call d q bs => c.alike d && p.alike q && Expr.allAlike as bs
  | .get o n, .get p m => o.alike p && n.alike m
  | .set o n e, .set p m f => o.alike p && n.alike m && e.alike f
  | .thisRef i k, .thisRef j l => i == j && k.alike l
  | .superRef i k m, .superRef j l n => i == j && k.alike l && m.alike n
  | _, _ => false

def Expr.allAlike : List Expr → List Expr → Bool
  | [], [] => true
  | e :: es, f :: fs => e.alike f && Expr.allAlike es fs
  | _, _ => false

end

def Expr.optionAlike : Option Expr → Option Expr → Bool
  | none, none => true
  | some e, some f => e.alike f
  | _, _ => false

def Token.allAlike : List Token → List Token → Bool
  | [], [] => true
  | t :: ts, u :: us => t.alike u && Token.allAlike ts us
  | _, _ => false

mutual

def Stmt.alike : Stmt → Stmt → Bool
  | .expr e, .expr f => e.alike f
  | .print e, .print f => e.alike f
  | .varDecl n e, .varDecl m f => n.alike m && Expr.optionAlike e f
  | .block b, .block c => Stmt.allAlike b c
  | .branch c y none, .branch d z none => c.alike d && y.alike z
  | .branch c y (some n), .branch d z (some m) => c.alike d && y.alike z && n.alike m
  | .loop c b, .loop d e => c.alike d && b.alike e
  | .breakLoop k, .breakLoop l => k.alike l
  | .function r, .function s => r.alike s
  | .returnWith k e, .returnWith l f => k.alike l && Expr.optionAlike e f
  | .classDecl n e rs, .classDecl m f ss =>
    n.alike m && Expr.optionAlike e f && Routine.allAlike rs ss
  | .execute k e, .execute l f => k.alike l && e.alike f
  | _, _ => false

def Stmt.allAlike : List Stmt → List Stmt → Bool
  | [], [] => true
  | s :: ss, t :: ts => s.alike t && Stmt.allAlike ss ts
  | _, _ => false

def Routine.alike : Routine → Routine → Bool
  | ⟨n, ps, b⟩, ⟨m, qs, c⟩ => n.alike m && Token.allAlike ps qs && Stmt.allAlike b c

def Routine.allAlike : List Routine → List Routine → Bool
  | [], [] => true
  | r :: rs, s :: ss => r.alike s && Routine.allAlike rs ss
  | _, _ => false

end

end Lox
