import Lox.Scoping

/-!
# Where the analysis comes by

The analysis looks at every expression that names a variable once. A `Visit` says what it has around
it at that moment: the scopes it keeps, and the pieces of the program that opened them. `visits` lists the
visits of a walk in their order. It only follows `resolve`, which does the work.
-/

namespace Lox
namespace Scoping

/-- A piece of a program that has a scope of its own. -/
inductive Site where
  | block (body : List Stmt)
  /-- The parameters and the body of a function or method. -/
  | routine (decl : Routine)
  /-- The object that a method is called on. -/
  | receiver (decl : Routine)
  /-- The superclass that the methods of a class see. -/
  | parent (methods : List Routine)

inductive Access where
  | read | write | receiver | parent
  deriving Repr, DecidableEq

/-- An expression that names a variable. -/
structure Reference where
  access : Access
  id : Nat
  name : Token
  deriving DecidableEq

structure Visit where
  ref : Reference
  inClass : ClassRole
  sites : List Site
  scopes : List Scope

/-- Whether the reference is allowed in such a class. -/
def Access.allowedIn : Access → ClassRole → Bool
  | read, _ | write, _ => true
  | receiver, role => role ≠ .outside
  | parent, role => role = .derived

/-- How many scopes out the analysis finds the name. It does not look for one that is not allowed. -/
def Visit.distance (v : Visit) : Option Nat :=
  if v.ref.access.allowedIn v.inClass then
    (Analysis.markUsed v.ref.name.lexeme v.scopes).map (·.1)
  else none

/-- Whether the innermost scope has declared the name and not yet given it a value. -/
def Visit.initializing (v : Visit) : Bool :=
  match v.scopes with
  | [] => false
  | scope :: _ => (scope.get? v.ref.name.lexeme).any (!·.defined)

end Scoping

open Scoping

mutual

def Expr.visits (ctx : Context) (sites : List Site) : Expr → Analysis → List Visit
  | .literal _, _ => []
  | .group e, a => e.visits ctx sites a
  | .unary _ e, a => e.visits ctx sites a
  | .binary l _ r, a => l.visits ctx sites a ++ r.visits ctx sites (l.resolve ctx a)
  | .logical l _ r, a => l.visits ctx sites a ++ r.visits ctx sites (l.resolve ctx a)
  | .var id name, a => [⟨⟨.read, id, name⟩, ctx.inClass, sites, a.scopes⟩]
  | .assign id name e, a =>
    e.visits ctx sites a ++ [⟨⟨.write, id, name⟩, ctx.inClass, sites, (e.resolve ctx a).scopes⟩]
  | .call callee _ args, a =>
    callee.visits ctx sites a ++ Expr.visitsAll ctx sites args (callee.resolve ctx a)
  | .get object _, a => object.visits ctx sites a
  | .set object _ e, a => e.visits ctx sites a ++ object.visits ctx sites (e.resolve ctx a)
  | .thisRef id keyword, a => [⟨⟨.receiver, id, keyword⟩, ctx.inClass, sites, a.scopes⟩]
  | .superRef id keyword _, a => [⟨⟨.parent, id, keyword⟩, ctx.inClass, sites, a.scopes⟩]

def Expr.visitsAll (ctx : Context) (sites : List Site) : List Expr → Analysis → List Visit
  | [], _ => []
  | e :: rest, a => e.visits ctx sites a ++ Expr.visitsAll ctx sites rest (e.resolve ctx a)

end

def Expr.visitsOption (ctx : Context) (sites : List Site) : Option Expr → Analysis → List Visit
  | none, _ => []
  | some e, a => e.visits ctx sites a

namespace Scoping

/-- The analysis where the methods of a class without a superclass begin. -/
def Analysis.enterClass (name : Token) (a : Analysis) : Analysis :=
  ((a.declare name).define name).openScope.provide "this" name.line

/-- The analysis where the name of a superclass is looked up. -/
def Analysis.enterSubclass (name : Token) (superclass : Expr) (a : Analysis) : Analysis :=
  checkSuperclass name superclass ((a.declare name).define name)

/-- The analysis where the methods of a class with a superclass begin. -/
def Analysis.enterMethods (name : Token) (a : Analysis) : Analysis :=
  (a.openScope.provide "super" name.line).openScope.provide "this" name.line

end Scoping

mutual

def Stmt.visits (ctx : Context) (sites : List Site) : Stmt → Analysis → List Visit
  | .expr e, a => e.visits ctx sites a
  | .print e, a => e.visits ctx sites a
  | .varDecl name init, a => Expr.visitsOption ctx sites init (a.declare name)
  | .block body, a => Stmt.visitsAll ctx (.block body :: sites) body a.openScope
  | .branch cond yes none, a =>
    cond.visits ctx sites a ++ yes.visits ctx sites (cond.resolve ctx a)
  | .branch cond yes (some no), a =>
    cond.visits ctx sites a ++ (yes.visits ctx sites (cond.resolve ctx a) ++
      no.visits ctx sites (yes.resolve ctx (cond.resolve ctx a)))
  | .loop cond body, a =>
    cond.visits ctx sites a ++ body.visits { ctx with inLoop := true } sites (cond.resolve ctx a)
  | .breakLoop _, _ => []
  | .function decl, a =>
    decl.visits { ctx with routine := .function } sites ((a.declare decl.name).define decl.name)
  | .returnWith keyword value, a =>
    let a := a.failIf (ctx.routine = .topLevel) keyword .returnOutsideFunction
    let a := a.failIf (value.isSome && ctx.routine = .initializer) keyword .initializerReturnsValue
    Expr.visitsOption ctx sites value a
  | .classDecl name none methods, a =>
    Routine.visitsMethods { ctx with inClass := .plain } sites methods (a.enterClass name)
  | .classDecl name (some superclass) methods, a =>
    let ctx := { ctx with inClass := .derived }
    let a := a.enterSubclass name superclass
    superclass.visits ctx sites a ++ Routine.visitsMethods ctx (.parent methods :: sites) methods
      ((superclass.resolve ctx a).enterMethods name)
  | .execute _ path, a => path.visits ctx sites a

def Stmt.visitsAll (ctx : Context) (sites : List Site) : List Stmt → Analysis → List Visit
  | [], _ => []
  | s :: rest, a => s.visits ctx sites a ++ Stmt.visitsAll ctx sites rest (s.resolve ctx a)

def Routine.visits (ctx : Context) (sites : List Site) : Routine → Analysis → List Visit
  | ⟨name, params, body⟩, a =>
    Stmt.visitsAll { ctx with inLoop := false } (.routine ⟨name, params, body⟩ :: sites) body
      (a.openScope.declareAll params)

/-- Every method sees a receiver of its own. -/
def Routine.visitsMethods (ctx : Context) (sites : List Site) :
    List Routine → Analysis → List Visit
  | [], _ => []
  | r :: rest, a =>
    r.visits { ctx with routine := methodRole r.name } (.receiver r :: sites) a ++
      Routine.visitsMethods ctx sites rest (r.resolve { ctx with routine := methodRole r.name } a)

end

/-- All visits of the analysis of a program. -/
def Stmt.visitsProgram (program : List Stmt) (distances : Distances) : List Visit :=
  Stmt.visitsAll {} [] program { distances := distances }

end Lox
