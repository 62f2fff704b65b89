import Std.Data.TreeMap
import Lox.Diagnostic
import Lox.Program
import Lox.Table

/-!
# Scope analysis

A walk over a program before it runs. It keeps the scopes that enclose the present place, innermost
first, and records for every expression that names a local variable how many scopes out that
variable is. Globals are bound late and have no distance. On the way it reports the faults that
can be told without running, and warns of local variables that nothing mentions.
-/

namespace Lox

/-- How many scopes out a named variable is, by the identity of the expression that names it. -/
abbrev Distances := Std.TreeMap Nat Nat

namespace Scoping

structure Binding where
  defined : Bool
  used : Bool
  line : Nat
  deriving Repr, DecidableEq

abbrev Scope := Table Binding

inductive RoutineRole where
  | topLevel | function | method | initializer
  deriving Repr, DecidableEq

inductive ClassRole where
  | outside | plain | derived
  deriving Repr, DecidableEq

/-- What encloses the present place. -/
structure Context where
  routine : RoutineRole := .topLevel
  inClass : ClassRole := .outside
  inLoop : Bool := false
  deriving Repr, DecidableEq

structure Analysis where
  scopes : List Scope := []
  distances : Distances
  errors : List Error := []
  warnings : List Warning := []

namespace Analysis

def fail (t : Token) (fault : ScopeFault) (a : Analysis) : Analysis :=
  { a with errors := a.errors ++ [.scopingAt t fault] }

def failIf (cond : Bool) (t : Token) (fault : ScopeFault) (a : Analysis) : Analysis :=
  if cond then a.fail t fault else a

def openScope (a : Analysis) : Analysis := { a with scopes := [] :: a.scopes }

/-- The bindings that nothing mentions, by line and then by name. -/
def unused (scope : Scope) : List Warning :=
  let idle := (scope.filter (!·.2.used)).mergeSort fun x y =>
    x.2.line < y.2.line || (x.2.line = y.2.line && !decide (y.1 < x.1))
  idle.map fun (name, binding) => ⟨binding.line, .unusedVariable name⟩

def closeScope (a : Analysis) : Analysis :=
  match a.scopes with
  | [] => a
  | scope :: rest => { a with scopes := rest, warnings := a.warnings ++ unused scope }

/-- A name that is declared twice in one scope keeps its first declaration. -/
def declare (name : Token) (a : Analysis) : Analysis :=
  match a.scopes with
  | [] => a
  | scope :: rest =>
    if scope.has name.lexeme then a.fail name .alreadyDeclared
    else { a with scopes := scope.insert name.lexeme ⟨false, false, name.line⟩ :: rest }

def define (name : Token) (a : Analysis) : Analysis :=
  match a.scopes with
  | [] => a
  | scope :: rest =>
    match scope.get? name.lexeme with
    | none => a
    | some b => { a with scopes := scope.insert name.lexeme { b with defined := true } :: rest }

def declareAll (names : List Token) (a : Analysis) : Analysis :=
  names.foldl (fun a name => (a.declare name).define name) a

/-- A name that every method finds in scope without declaring it. -/
def provide (name : String) (line : Nat) (a : Analysis) : Analysis :=
  match a.scopes with
  | [] => a
  | scope :: rest => { a with scopes := scope.insert name ⟨true, true, line⟩ :: rest }

/-- The distance to the innermost scope that binds `name`, and the scopes with that binding marked
as used. -/
def markUsed (name : String) : List Scope → Option (Nat × List Scope)
  | [] => none
  | scope :: rest =>
    match scope.get? name with
    | some b => some (0, scope.insert name { b with used := true } :: rest)
    | none => (markUsed name rest).map fun (depth, rest) => (depth + 1, scope :: rest)

def refer (id : Nat) (name : String) (a : Analysis) : Analysis :=
  match markUsed name a.scopes with
  | none => a
  | some (depth, scopes) => { a with scopes := scopes, distances := a.distances.insert id depth }

/-- Whether the innermost scope has declared `name` and not yet given it a value. -/
def initializing (name : String) (a : Analysis) : Bool :=
  match a.scopes with
  | [] => false
  | scope :: _ =>
    match scope.get? name with
    | some b => !b.defined
    | none => false

end Analysis
end Scoping

open Scoping

mutual

def Expr.resolve (ctx : Context) : Expr → Analysis → Analysis
  | .literal _, a => a
  | .group e, a => e.resolve ctx a
  | .unary _ e, a => e.resolve ctx a
  | .binary l _ r, a => r.resolve ctx (l.resolve ctx a)
  | .logical l _ r, a => r.resolve ctx (l.resolve ctx a)
  | .var id name, a =>
    (a.failIf (a.initializing name.lexeme) name .readInOwnInitializer).refer id name.lexeme
  | .assign id name e, a => (e.resolve ctx a).refer id name.lexeme
  | .call callee _ args, a => Expr.resolveAll ctx args (callee.resolve ctx a)
  | .get object _, a => object.resolve ctx a
  | .set object _ e, a => object.resolve ctx (e.resolve ctx a)
  | .thisRef id keyword, a =>
    match ctx.inClass with
    | .outside => a.fail keyword .thisOutsideClass
    | _ => a.refer id keyword.lexeme
  | .superRef id keyword _, a =>
    match ctx.inClass with
    | .outside => a.fail keyword .superOutsideClass
    | .plain => a.fail keyword .superWithoutSuperclass
    | .derived => a.refer id keyword.lexeme

def Expr.resolveAll (ctx : Context) : List Expr → Analysis → Analysis
  | [], a => a
  | e :: rest, a => Expr.resolveAll ctx rest (e.resolve ctx a)

end

def Expr.resolveOption (ctx : Context) : Option Expr → Analysis → Analysis
  | none, a => a
  | some e, a => e.resolve ctx a

/-- Only a name can be inherited from, and not the class's own. -/
def Scoping.checkSuperclass (name : Token) (superclass : Expr) (a : Analysis) : Analysis :=
  match superclass with
  | .var _ superName => a.failIf (superName.lexeme == name.lexeme) superName .inheritsFromItself
  | _ => a.fail name .superclassNotNamed

def Scoping.methodRole (name : Token) : RoutineRole :=
  if name.lexeme = "init" then .initializer else .method

mutual

def Stmt.resolve (ctx : Context) : Stmt → Analysis → Analysis
  | .expr e, a => e.resolve ctx a
  | .print e, a => e.resolve ctx a
  | .varDecl name init, a => (Expr.resolveOption ctx init (a.declare name)).define name
  | .block body, a => (Stmt.resolveAll ctx body a.openScope).closeScope
  | .branch cond yes none, a => yes.resolve ctx (cond.resolve ctx a)
  | .branch cond yes (some no), a => no.resolve ctx (yes.resolve ctx (cond.resolve ctx a))
  | .loop cond body, a => body.resolve { ctx with inLoop := true } (cond.resolve ctx a)
  | .breakLoop keyword, a => a.failIf (!ctx.inLoop) keyword .breakOutsideLoop
  | .function decl, a =>
    decl.resolve { ctx with routine := .function } ((a.declare decl.name).define decl.name)
  | .returnWith keyword value, a =>
    let a := a.failIf (ctx.routine = .topLevel) keyword .returnOutsideFunction
    let a := a.failIf (value.isSome && ctx.routine = .initializer) keyword .initializerReturnsValue
    Expr.resolveOption ctx value a
  | .classDecl name none methods, a =>
    let a := ((a.declare name).define name).openScope.provide "this" name.line
    (Routine.resolveMethods { ctx with inClass := .plain } methods a).closeScope
  | .classDecl name (some superclass) methods, a =>
    let ctx := { ctx with inClass := .derived }
    let a := checkSuperclass name superclass ((a.declare name).define name)
    let a := (superclass.resolve ctx a).openScope.provide "super" name.line
    let a := a.openScope.provide "this" name.line
    (Routine.resolveMethods ctx methods a).closeScope.closeScope
  | .execute _ path, a => path.resolve ctx a

def Stmt.resolveAll (ctx : Context) : List Stmt → Analysis → Analysis
  | [], a => a
  | s :: rest, a => Stmt.resolveAll ctx rest (s.resolve ctx a)

/-- The parameters and the body share one scope, and no loop reaches into it. -/
def Routine.resolve (ctx : Context) : Routine → Analysis → Analysis
  | ⟨_, params, body⟩, a =>
    (Stmt.resolveAll { ctx with inLoop := false } body (a.openScope.declareAll params)).closeScope

def Routine.resolveMethods (ctx : Context) : List Routine → Analysis → Analysis
  | [], a => a
  | r :: rest, a =>
    Routine.resolveMethods ctx rest (r.resolve { ctx with routine := methodRole r.name } a)

end

/-- The analysis of a whole program, with its warnings by line. Distances are added to those of
the programs before it. -/
def Stmt.analyse (program : List Stmt) (distances : Distances) : Analysis :=
  let a := Stmt.resolveAll {} program { distances := distances }
  { a with warnings := a.warnings.mergeSort fun v w => v.line ≤ w.line }

end Lox
