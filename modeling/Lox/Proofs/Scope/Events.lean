import Lox.Proofs.Scope.Analysis

/-!
# Programs and what stands around each place

The rules for scopes can be told without a walk that keeps anything in mind. An `Event` is something in a program that
they speak about, with all that stands around it: the loops, functions and classes that it is in, and the scopes with
the names that they have there. What stands around a part of a statement is got from what stands around the statement,
and what stands around the next one from that and the names that the statement declares. `Event.fault?` tells from this
alone whether an event is at fault.

The analysis goes from one event to the next, so that what is true of every run of events is true of it. The distances
that it records come from the visits among them.
-/

namespace Lox
namespace Scoping

/-! ## Surroundings -/

inductive Ancestor where
  | loop
  | function
  | method (name : Token)
  | classBody (derived : Bool)

namespace Ancestor

/-! All lists have the nearest first. -/

/-- Whether there is a loop, and no function in between. -/
def inLoop : List Ancestor → Bool
  | [] => false
  | loop :: _ => true
  | function :: _ | method _ :: _ => false
  | classBody _ :: rest => inLoop rest

/-- What the nearest function is. -/
def routine : List Ancestor → RoutineRole
  | [] => .topLevel
  | function :: _ => .function
  | method name :: _ => if name.lexeme = "init" then .initializer else .method
  | loop :: rest | classBody _ :: rest => routine rest

/-- What the nearest class is. -/
def inClass : List Ancestor → ClassRole
  | [] => .outside
  | classBody derived :: _ => if derived then .derived else .plain
  | loop :: rest | function :: rest | method _ :: rest => inClass rest

end Ancestor

/-- A scope: its number in the order in which scopes are opened, and the names that it has so far. -/
structure Level where
  number : Nat
  names : List String

/-- The scopes around a place. -/
structure Nest where
  /-- The innermost first. What is in none of them is global. -/
  levels : List Level := []
  /-- How many scopes have been opened so far. -/
  opened : Nat := 0
  /-- The local variable in whose initializer the place is. -/
  initializing : Option String := none

structure Surroundings extends Nest where
  ancestors : List Ancestor := []

namespace Nest

/-- A name that is there already is not declared again. -/
def declare (name : String) (n : Nest) : Nest :=
  match n.levels with
  | [] => n
  | level :: rest =>
    if name ∈ level.names then n
    else { n with
      levels := { level with names := name :: level.names } :: rest
      initializing := some name }

def define (n : Nest) : Nest := { n with initializing := none }

def bindAll (names : List String) (n : Nest) : Nest :=
  names.foldl (fun n name => (n.declare name).define) n

def openScope (names : List String) (n : Nest) : Nest :=
  { n with levels := ⟨n.opened, names⟩ :: n.levels, opened := n.opened + 1 }

def closeScope (n : Nest) : Nest := { n with levels := n.levels.tail }

end Nest

namespace Surroundings

def context (sur : Surroundings) : Context where
  routine := Ancestor.routine sur.ancestors
  inClass := Ancestor.inClass sur.ancestors
  inLoop := Ancestor.inLoop sur.ancestors

def inside (ancestor : Ancestor) (sur : Surroundings) : Surroundings :=
  { sur with ancestors := ancestor :: sur.ancestors }

/-- The same pieces of the program, with other scopes. -/
def withNest (sur : Surroundings) (f : Nest → Nest) : Surroundings :=
  { sur with toNest := f sur.toNest }

end Surroundings

/-! ## Events -/

inductive Act where
  | refer (ref : Reference)
  | declare (name : Token)
  /-- The name that was declared has its value. -/
  | define (name : Token)
  | inherit (name : Token) (superclass : Expr)
  | breakLoop (keyword : Token)
  | returnWith (keyword : Token) (value : Bool)
  /-- A scope is opened that may have a name which no declaration gives it. -/
  | openScope (provided : Option (String × Nat))
  | closeScope

structure Event where
  act : Act
  within : Surroundings

/-- The one reason why an event can be at fault. -/
def Event.fault? (e : Event) : Option Error :=
  match e.act with
  | .refer ref =>
    match ref.access, Ancestor.inClass e.within.ancestors with
    | .read, _ =>
      if e.within.initializing = some ref.name.lexeme then
        some (.scopingAt ref.name .readInOwnInitializer)
      else none
    | .write, _ => none
    | .receiver, .outside => some (.scopingAt ref.name .thisOutsideClass)
    | .receiver, _ => none
    | .parent, .outside => some (.scopingAt ref.name .superOutsideClass)
    | .parent, .plain => some (.scopingAt ref.name .superWithoutSuperclass)
    | .parent, .derived => none
  | .declare name =>
    match e.within.levels with
    | [] => none
    | level :: _ =>
      if name.lexeme ∈ level.names then some (.scopingAt name .alreadyDeclared) else none
  | .inherit name (.var _ superName) =>
    if superName.lexeme = name.lexeme then some (.scopingAt superName .inheritsFromItself) else none
  | .breakLoop keyword =>
    if Ancestor.inLoop e.within.ancestors then none
    else some (.scopingAt keyword .breakOutsideLoop)
  | .returnWith keyword value =>
    match Ancestor.routine e.within.ancestors with
    | .topLevel => some (.scopingAt keyword .returnOutsideFunction)
    | .initializer => if value then some (.scopingAt keyword .initializerReturnsValue) else none
    | _ => none
  | _ => none

namespace Surroundings

def refers (refs : List Reference) (sur : Surroundings) : List Event :=
  refs.map fun ref => ⟨.refer ref, sur⟩

/-- A name that has its value at once. -/
def binds (name : Token) (sur : Surroundings) : List Event :=
  [⟨.declare name, sur⟩, ⟨.define name, sur.withNest (.declare name.lexeme)⟩]

def bindsAll : List Token → Surroundings → List Event
  | [], _ => []
  | name :: rest, sur => sur.binds name ++ bindsAll rest (sur.withNest (.bindAll [name.lexeme]))

end Surroundings
end Scoping

open Scoping

mutual

/-- The expressions that name a variable, in the order in which the analysis comes by. -/
def Expr.references : Expr → List Reference
  | .literal _ => []
  | .group e => e.references
  | .unary _ e => e.references
  | .binary l _ r => l.references ++ r.references
  | .logical l _ r => l.references ++ r.references
  | .var id name => [⟨.read, id, name⟩]
  | .assign id name e => e.references ++ [⟨.write, id, name⟩]
  | .call callee _ args => callee.references ++ Expr.referencesAll args
  | .get object _ => object.references
  | .set object _ e => e.references ++ object.references
  | .thisRef id keyword => [⟨.receiver, id, keyword⟩]
  | .superRef id keyword _ => [⟨.parent, id, keyword⟩]

def Expr.referencesAll : List Expr → List Reference
  | [] => []
  | e :: rest => e.references ++ Expr.referencesAll rest

end

def Expr.referencesOption : Option Expr → List Reference
  | none => []
  | some e => e.references

mutual

/-- How many scopes a statement opens. -/
def Stmt.scopeCount : Stmt → Nat
  | .block body => Stmt.scopeCountAll body + 1
  | .branch _ yes none => yes.scopeCount
  | .branch _ yes (some no) => yes.scopeCount + no.scopeCount
  | .loop _ body => body.scopeCount
  | .function decl => decl.scopeCount
  | .classDecl _ none methods => Routine.scopeCountAll methods + 1
  | .classDecl _ (some _) methods => Routine.scopeCountAll methods + 2
  | _ => 0

def Stmt.scopeCountAll : List Stmt → Nat
  | [] => 0
  | s :: rest => s.scopeCount + Stmt.scopeCountAll rest

def Routine.scopeCount : Routine → Nat
  | ⟨_, _, body⟩ => Stmt.scopeCountAll body + 1

def Routine.scopeCountAll : List Routine → Nat
  | [] => 0
  | r :: rest => r.scopeCount + Routine.scopeCountAll rest

end

namespace Scoping.Nest

def skip (scopes : Nat) (n : Nest) : Nest := { n with opened := n.opened + scopes }

/-- What follows a statement. -/
def after (s : Stmt) (n : Nest) : Nest := (n.bindAll s.declared).skip s.scopeCount

def afterAll (ss : List Stmt) (n : Nest) : Nest :=
  (n.bindAll (Stmt.declaredAll ss)).skip (Stmt.scopeCountAll ss)

end Scoping.Nest

mutual

def Stmt.events (sur : Surroundings) : Stmt → List Event
  | .expr e => sur.refers e.references
  | .print e => sur.refers e.references
  | .varDecl name init =>
    let inner := sur.withNest (.declare name.lexeme)
    ⟨.declare name, sur⟩ :: (inner.refers (Expr.referencesOption init) ++ [⟨.define name, inner⟩])
  | .block body =>
    let inner := sur.withNest (.openScope [])
    ⟨.openScope none, sur⟩ ::
      (Stmt.eventsAll inner body ++ [⟨.closeScope, inner.withNest (.afterAll body)⟩])
  | .branch cond yes none => sur.refers cond.references ++ yes.events sur
  | .branch cond yes (some no) =>
    sur.refers cond.references ++ (yes.events sur ++ no.events (sur.withNest (.after yes)))
  | .loop cond body => sur.refers cond.references ++ body.events (sur.inside .loop)
  | .breakLoop keyword => [⟨.breakLoop keyword, sur⟩]
  | .function decl =>
    sur.binds decl.name ++
      decl.events ((sur.withNest (.bindAll [decl.name.lexeme])).inside .function)
  | .returnWith keyword value =>
    ⟨.returnWith keyword value.isSome, sur⟩ :: sur.refers (Expr.referencesOption value)
  | .classDecl name none methods =>
    let around := (sur.withNest (.bindAll [name.lexeme])).inside (.classBody false)
    let inner := around.withNest (.openScope ["this"])
    sur.binds name ++ ⟨.openScope (some ("this", name.line)), around⟩ ::
      (Routine.eventsAll inner methods ++
        [⟨.closeScope, inner.withNest (.skip (Routine.scopeCountAll methods))⟩])
  | .classDecl name (some superclass) methods =>
    let around := (sur.withNest (.bindAll [name.lexeme])).inside (.classBody true)
    let middle := around.withNest (.openScope ["super"])
    let inner := middle.withNest (.openScope ["this"])
    let last := inner.withNest (.skip (Routine.scopeCountAll methods))
    sur.binds name ++ ⟨.inherit name superclass, around⟩ ::
      (around.refers superclass.references ++
        ⟨.openScope (some ("super", name.line)), around⟩ ::
        ⟨.openScope (some ("this", name.line)), middle⟩ ::
          (Routine.eventsAll inner methods ++
            [⟨.closeScope, last⟩, ⟨.closeScope, last.withNest .closeScope⟩]))
  | .execute _ path => sur.refers path.references

def Stmt.eventsAll (sur : Surroundings) : List Stmt → List Event
  | [] => []
  | s :: rest => s.events sur ++ Stmt.eventsAll (sur.withNest (.after s)) rest

def Routine.events (sur : Surroundings) : Routine → List Event
  | ⟨_, params, body⟩ =>
    let around := sur.withNest (.openScope [])
    let inner := around.withNest (.bindAll (params.map (·.lexeme)))
    ⟨.openScope none, sur⟩ :: (around.bindsAll params ++
      (Stmt.eventsAll inner body ++ [⟨.closeScope, inner.withNest (.afterAll body)⟩]))

/-- The methods of a class. -/
def Routine.eventsAll (sur : Surroundings) : List Routine → List Event
  | [] => []
  | r :: rest =>
    r.events (sur.inside (.method r.name)) ++
      Routine.eventsAll (sur.withNest (.skip r.scopeCount)) rest

end

/-! ## The analysis goes from event to event -/

namespace Scoping.Analysis

/-- The analysis at a reference, in such a class. -/
def reference (role : ClassRole) (a : Analysis) (ref : Reference) : Analysis :=
  match ref.access, role with
  | .read, _ =>
    (a.failIf (a.initializing ref.name.lexeme) ref.name .readInOwnInitializer).refer ref.id
      ref.name.lexeme
  | .receiver, .outside => a.fail ref.name .thisOutsideClass
  | .parent, .outside => a.fail ref.name .superOutsideClass
  | .parent, .plain => a.fail ref.name .superWithoutSuperclass
  | _, _ => a.refer ref.id ref.name.lexeme

/-- The analysis at an event. It knows its context, and scopes from what it keeps. -/
def step (a : Analysis) (e : Event) : Analysis :=
  match e.act with
  | .refer ref => a.reference e.within.context.inClass ref
  | .declare name => a.declare name
  | .define name => a.define name
  | .inherit name superclass => checkSuperclass name superclass a
  | .breakLoop keyword => a.failIf (!e.within.context.inLoop) keyword .breakOutsideLoop
  | .returnWith keyword value =>
    (a.failIf (e.within.context.routine = .topLevel) keyword .returnOutsideFunction).failIf
      (value && e.within.context.routine = .initializer) keyword .initializerReturnsValue
  | .openScope none => a.openScope
  | .openScope (some (name, line)) => a.openScope.provide name line
  | .closeScope => a.closeScope

end Scoping.Analysis

open Analysis

namespace Scoping

/-- The visit at an event that names a variable. Events do not tell the pieces of the program. -/
def Event.visit? (e : Event) (a : Analysis) : Option Visit :=
  match e.act with
  | .refer ref => some ⟨ref, e.within.context.inClass, [], a.scopes⟩
  | _ => none

/-- The visits of a run of events. -/
def sights : List Event → Analysis → List Visit
  | [], _ => []
  | e :: rest, a => (e.visit? a).toList ++ sights rest (a.step e)

theorem sights_append (es fs : List Event) (a : Analysis) :
    sights (es ++ fs) a = sights es a ++ sights fs (es.foldl Analysis.step a) := by
  induction es generalizing a with
  | nil => rfl
  | cons e rest ih => rw [List.cons_append, sights, sights, ih, List.append_assoc, List.foldl_cons]

/-- The visit without the pieces of the program around it. -/
def Visit.bare (v : Visit) : Visit := { v with sites := [] }

/-- The events lead from the one analysis to the other, by these visits. -/
structure Runs (es : List Event) (a : Analysis) (vs : List Visit) (b : Analysis) : Prop where
  leads : es.foldl Analysis.step a = b
  visits : sights es a = vs.map Visit.bare

namespace Runs

variable {es fs : List Event} {e : Event} {a b c : Analysis} {vs ws : List Visit}

theorem append (h : Runs es a vs b) (h' : Runs fs b ws c) : Runs (es ++ fs) a (vs ++ ws) c where
  leads := by rw [List.foldl_append, h.leads, h'.leads]
  visits := by rw [sights_append, h.leads, h.visits, h'.visits, List.map_append]

/-- First an event that names no variable. -/
theorem cons (he : e.visit? a = none) (h : Runs es (a.step e) vs b) : Runs (e :: es) a vs b where
  leads := h.leads
  visits := by rw [sights, he, h.visits]; rfl

/-- At last events that name no variables. -/
theorem close (h : Runs es a vs b) (h' : Runs fs b [] c) : Runs (es ++ fs) a vs c :=
  List.append_nil vs ▸ h.append h'

theorem bindsAll (sur : Surroundings) (names : List Token) (a : Analysis) :
    Runs (sur.bindsAll names) a [] (a.declareAll names) := by
  induction names generalizing sur a with
  | nil => exact ⟨rfl, rfl⟩
  | cons name rest ih => exact cons rfl (cons rfl (ih _ _))

theorem refers {sur : Surroundings} {l r : List Reference} (h : Runs (sur.refers l) a vs b)
    (h' : Runs (sur.refers r) b ws c) : Runs (sur.refers (l ++ r)) a (vs ++ ws) c := by
  unfold Surroundings.refers
  rw [List.map_append]
  exact h.append h'

theorem reference (sur : Surroundings) (sites : List Site) (ref : Reference) (a : Analysis) :
    Runs (sur.refers [ref]) a [⟨ref, sur.context.inClass, sites, a.scopes⟩]
      (a.reference sur.context.inClass ref) :=
  ⟨rfl, rfl⟩

end Runs
end Scoping

mutual

theorem Expr.runs (sur : Surroundings) (sites : List Site) (e : Expr) (a : Analysis) :
    Runs (sur.refers e.references) a (e.visits sur.context sites a) (e.resolve sur.context a) := by
  cases e with
  | literal => exact ⟨rfl, rfl⟩
  | group e => exact e.runs sur sites a
  | unary _ e => exact e.runs sur sites a
  | binary l _ r => exact (l.runs sur sites a).refers (r.runs sur sites _)
  | logical l _ r => exact (l.runs sur sites a).refers (r.runs sur sites _)
  | var id name => exact .reference sur sites ⟨.read, id, name⟩ a
  | assign id name e => exact (e.runs sur sites a).refers (.reference sur sites ⟨.write, id, name⟩ _)
  | call callee _ args => exact (callee.runs sur sites a).refers (Expr.runsAll sur sites args _)
  | get object _ => exact object.runs sur sites a
  | set object _ e => exact (e.runs sur sites a).refers (object.runs sur sites _)
  | thisRef id keyword =>
    have hresolve : (Expr.thisRef id keyword).resolve sur.context a =
        a.reference sur.context.inClass ⟨.receiver, id, keyword⟩ := by
      rw [Expr.resolve]
      cases sur.context.inClass <;> rfl
    exact hresolve ▸ .reference sur sites _ a
  | superRef id keyword method =>
    have hresolve : (Expr.superRef id keyword method).resolve sur.context a =
        a.reference sur.context.inClass ⟨.parent, id, keyword⟩ := by
      rw [Expr.resolve]
      cases sur.context.inClass <;> rfl
    exact hresolve ▸ .reference sur sites _ a

theorem Expr.runsAll (sur : Surroundings) (sites : List Site) (es : List Expr) (a : Analysis) :
    Runs (sur.refers (Expr.referencesAll es)) a (Expr.visitsAll sur.context sites es a)
      (Expr.resolveAll sur.context es a) := by
  cases es with
  | nil => exact ⟨rfl, rfl⟩
  | cons e rest => exact (e.runs sur sites a).refers (Expr.runsAll sur sites rest _)

end

theorem Expr.runsOption (sur : Surroundings) (sites : List Site) (e : Option Expr) (a : Analysis) :
    Runs (sur.refers (Expr.referencesOption e)) a (Expr.visitsOption sur.context sites e a)
      (Expr.resolveOption sur.context e a) := by
  cases e with
  | none => exact ⟨rfl, rfl⟩
  | some e => exact e.runs sur sites a

mutual

/-- A walk over a statement goes through its events. -/
theorem Stmt.runs (sur : Surroundings) (sites : List Site) (s : Stmt) (a : Analysis) :
    Runs (s.events sur) a (s.visits sur.context sites a) (s.resolve sur.context a) := by
  cases s with
  | expr e => exact e.runs sur sites a
  | print e => exact e.runs sur sites a
  | varDecl name init =>
    exact .cons rfl ((Expr.runsOption (sur.withNest _) sites init _).close ⟨rfl, rfl⟩)
  | block body =>
    exact .cons rfl ((Stmt.runsAll (sur.withNest _) (.block body :: sites) body _).close ⟨rfl, rfl⟩)
  | branch cond yes no =>
    cases no with
    | none => exact (cond.runs sur sites a).append (yes.runs sur sites _)
    | some no =>
      exact (cond.runs sur sites a).append
        ((yes.runs sur sites _).append (no.runs (sur.withNest (.after yes)) sites _))
  | loop cond body => exact (cond.runs sur sites a).append (body.runs (sur.inside .loop) sites _)
  | breakLoop keyword => exact ⟨rfl, rfl⟩
  | function decl => exact .cons rfl (.cons rfl (decl.runs _ _ rfl sites _))
  | returnWith keyword value => exact .cons rfl (Expr.runsOption sur sites value _)
  | classDecl name superclass methods =>
    cases superclass with
    | none =>
      let around := (sur.withNest (.bindAll [name.lexeme])).inside (.classBody false)
      have hmethods := Routine.runsMethods { sur.context with inClass := .plain }
        (around.withNest (.openScope ["this"])) rfl sites methods
      exact .cons rfl (.cons rfl (.cons rfl ((hmethods _).close ⟨rfl, rfl⟩)))
    | some superclass =>
      let around := (sur.withNest (.bindAll [name.lexeme])).inside (.classBody true)
      have hsuper := superclass.runs around sites
      have hmethods := Routine.runsMethods { sur.context with inClass := .derived }
        ((around.withNest (.openScope ["super"])).withNest (.openScope ["this"])) rfl (.parent methods :: sites) methods
      exact .cons rfl (.cons rfl (.cons rfl ((hsuper _).append
        (.cons rfl (.cons rfl ((hmethods _).close ⟨rfl, rfl⟩))))))
  | execute keyword path => exact path.runs sur sites a

theorem Stmt.runsAll (sur : Surroundings) (sites : List Site) (ss : List Stmt) (a : Analysis) :
    Runs (Stmt.eventsAll sur ss) a (Stmt.visitsAll sur.context sites ss a)
      (Stmt.resolveAll sur.context ss a) := by
  cases ss with
  | nil => exact ⟨rfl, rfl⟩
  | cons s rest => exact (s.runs sur sites a).append (Stmt.runsAll (sur.withNest (.after s)) sites rest _)

theorem Routine.runs (ctx : Context) (sur : Surroundings) (h : { ctx with inLoop := false } = sur.context)
    (sites : List Site) (r : Routine) (a : Analysis) :
    Runs (r.events sur) a (r.visits ctx sites a) (r.resolve ctx a) := by
  cases r with
  | mk name params body =>
    rw [Routine.visits, Routine.resolve, h]
    exact .cons rfl ((Runs.bindsAll _ params _).append
      ((Stmt.runsAll _ (.routine ⟨name, params, body⟩ :: sites) body _).close ⟨rfl, rfl⟩))

theorem Routine.runsMethods (ctx : Context) (sur : Surroundings) (h : ctx.inClass = sur.context.inClass)
    (sites : List Site) (rs : List Routine) (a : Analysis) :
    Runs (Routine.eventsAll sur rs) a (Routine.visitsMethods ctx sites rs a)
      (Routine.resolveMethods ctx rs a) := by
  cases rs with
  | nil => exact ⟨rfl, rfl⟩
  | cons r rest =>
    have hctx : { ctx with routine := methodRole r.name, inLoop := false } =
        (sur.inside (.method r.name)).context := by rw [h]; rfl
    exact (Routine.runs { ctx with routine := methodRole r.name } _ hctx (.receiver r :: sites) r a).append
      (Routine.runsMethods ctx (sur.withNest _) h sites rest _)

end

/-- There are events in any context. -/
theorem Scoping.Surroundings.exists_context (ctx : Context) : ∃ sur : Surroundings, sur.context = ctx := by
  obtain ⟨routine, inClass, inLoop⟩ := ctx
  -- from the outside in: a class, a function in it and a loop in that
  obtain ⟨around, hclass⟩ : ∃ sur : Surroundings, sur.context = ⟨.topLevel, inClass, false⟩ := by
    cases inClass with
    | outside => exact ⟨{}, rfl⟩
    | plain => exact ⟨.inside (.classBody false) {}, rfl⟩
    | derived => exact ⟨.inside (.classBody true) {}, rfl⟩
  have hinside : ∀ routine, (⟨routine, around.context.inClass, false⟩ : Context) = ⟨routine, inClass, false⟩ :=
    fun routine => by rw [hclass]
  obtain ⟨within, hroutine⟩ : ∃ sur : Surroundings, sur.context = ⟨routine, inClass, false⟩ := by
    cases routine with
    | topLevel => exact ⟨around, hclass⟩
    | function => exact ⟨around.inside .function, hinside .function⟩
    | method => exact ⟨around.inside (.method ⟨.identifier, "", 0⟩), hinside .method⟩
    | initializer => exact ⟨around.inside (.method ⟨.identifier, "init", 0⟩), hinside .initializer⟩
  cases inLoop with
  | false => exact ⟨within, hroutine⟩
  | true => exact ⟨within.inside .loop, congrArg (fun ctx => { ctx with inLoop := true }) hroutine⟩

/-! ## Distances -/

namespace Scoping

/-- Records the distance that a visit finds. -/
def record (distances : Distances) (v : Visit) : Distances :=
  match v.distance with
  | some depth => distances.insert v.ref.id depth
  | none => distances

namespace Analysis

@[simp] theorem distances_failIf (a : Analysis) (cond : Bool) (t : Token) (fault : ScopeFault) :
    (a.failIf cond t fault).distances = a.distances := by
  unfold failIf
  split <;> rfl

@[simp] theorem distances_checkSuperclass (a : Analysis) (name : Token) (superclass : Expr) :
    (checkSuperclass name superclass a).distances = a.distances := by
  unfold checkSuperclass
  split
  · exact distances_failIf _ _ _ _
  · rfl

@[simp] theorem distances_declare (a : Analysis) (name : Token) :
    (a.declare name).distances = a.distances := by
  unfold declare
  repeat' split
  all_goals rfl

@[simp] theorem distances_define (a : Analysis) (name : Token) :
    (a.define name).distances = a.distances := by
  unfold define
  repeat' split
  all_goals rfl

@[simp] theorem distances_openScope (a : Analysis) : a.openScope.distances = a.distances := rfl

@[simp] theorem distances_closeScope (a : Analysis) : a.closeScope.distances = a.distances := by
  unfold closeScope
  split <;> rfl

@[simp] theorem distances_provide (a : Analysis) (name : String) (line : Nat) :
    (a.provide name line).distances = a.distances := by
  unfold provide
  split <;> rfl

theorem distances_refer (a : Analysis) (ref : Reference) (role : ClassRole) (sites : List Site)
    (h : ref.access.allowedIn role = true) :
    (a.refer ref.id ref.name.lexeme).distances = record a.distances ⟨ref, role, sites, a.scopes⟩ := by
  unfold refer record
  rw [Visit.distance, if_pos h]
  split <;> simp [*]

theorem distances_reference (role : ClassRole) (a : Analysis) (ref : Reference) (sites : List Site) :
    (a.reference role ref).distances = record a.distances ⟨ref, role, sites, a.scopes⟩ := by
  obtain ⟨access, id, name⟩ := ref
  cases access with
  | read =>
    have h := distances_refer (a.failIf (a.initializing name.lexeme) name .readInOwnInitializer)
      ⟨.read, id, name⟩ role sites rfl
    rwa [scopes_failIf, distances_failIf] at h
  | write => exact distances_refer a ⟨.write, id, name⟩ role sites rfl
  | receiver =>
    cases role with
    | outside => rfl
    | plain | derived => exact distances_refer a ⟨.receiver, id, name⟩ _ sites rfl
  | parent =>
    cases role with
    | outside | plain => rfl
    | derived => exact distances_refer a ⟨.parent, id, name⟩ _ sites rfl

theorem distances_step (a : Analysis) (e : Event) :
    (a.step e).distances = (e.visit? a).toList.foldl record a.distances := by
  obtain ⟨act, sur⟩ := e
  cases act with
  | refer ref => exact distances_reference _ a ref []
  | openScope provided => cases provided <;> simp [step, Event.visit?]
  | _ => simp [step, Event.visit?]

/-- The analysis records what its visits find, and nothing else. -/
theorem distances_foldl (es : List Event) (a : Analysis) :
    (es.foldl step a).distances = (sights es a).foldl record a.distances := by
  induction es generalizing a with
  | nil => rfl
  | cons e rest ih => rw [List.foldl_cons, ih, sights, List.foldl_append, ← distances_step]

end Analysis

theorem Runs.distances {es : List Event} {a b : Analysis} {vs : List Visit} (h : Runs es a vs b) :
    b.distances = vs.foldl record a.distances := by
  rw [← h.leads, distances_foldl, h.visits, List.foldl_map]
  rfl

end Scoping

section

variable (ctx : Context) (sites : List Site) (a : Analysis)

theorem Expr.distances_resolveOption (e : Option Expr) :
    (Expr.resolveOption ctx e a).distances = (Expr.visitsOption ctx sites e a).foldl record a.distances := by
  obtain ⟨sur, rfl⟩ := Surroundings.exists_context ctx
  exact (Expr.runsOption sur sites e a).distances

theorem Stmt.distances_resolve (s : Stmt) :
    (s.resolve ctx a).distances = (s.visits ctx sites a).foldl record a.distances := by
  obtain ⟨sur, rfl⟩ := Surroundings.exists_context ctx
  exact (s.runs sur sites a).distances

theorem Stmt.distances_resolveAll (ss : List Stmt) :
    (Stmt.resolveAll ctx ss a).distances = (Stmt.visitsAll ctx sites ss a).foldl record a.distances := by
  obtain ⟨sur, rfl⟩ := Surroundings.exists_context ctx
  exact (Stmt.runsAll sur sites ss a).distances

end

/-! ## Identities -/

namespace Scoping

def Event.node? (e : Event) : Option Nat :=
  match e.act with
  | .refer ref => some ref.id
  | _ => none

/-- The identities that events are about. -/
def nodes (es : List Event) : List Nat := es.filterMap Event.node?

theorem nodes_cons (e : Event) (es : List Event) : nodes (e :: es) = e.node?.toList ++ nodes es := by
  unfold nodes
  rw [List.filterMap_cons]
  cases e.node? <;> rfl

theorem Event.ids_visit? (e : Event) (a : Analysis) : ids (e.visit? a).toList = e.node?.toList := by
  obtain ⟨act, sur⟩ := e
  cases act <;> rfl

theorem ids_sights (es : List Event) (a : Analysis) : ids (sights es a) = nodes es := by
  induction es generalizing a with
  | nil => rfl
  | cons e rest ih => rw [sights, ids_append, ih, e.ids_visit?, nodes_cons]

theorem ids_bare (vs : List Visit) : ids (vs.map Visit.bare) = ids vs := List.map_map

end Scoping

/-- There is one event for each identity in the tree. -/
theorem Stmt.nodes_eventsAll (sur : Surroundings) (ss : List Stmt) :
    (Scoping.nodes (Stmt.eventsAll sur ss)).Perm (Stmt.nodesAll ss) := by
  rw [← ids_sights _ { distances := {} }, (Stmt.runsAll sur [] ss _).visits, ids_bare]
  exact Stmt.ids_visitsAll sur.context [] ss _

namespace Scoping

/-- What is recorded about other identities does not matter. -/
theorem getElem?_record_of_not_mem {vs : List Visit} {id : Nat} (h : id ∉ ids vs)
    (distances : Distances) : (vs.foldl record distances)[id]? = distances[id]? := by
  induction vs generalizing distances with
  | nil => rfl
  | cons v rest ih =>
    simp only [ids, List.map_cons, List.mem_cons, not_or] at h
    rw [List.foldl_cons, ih h.2]
    unfold record
    split
    · rw [Std.TreeMap.getElem?_insert]
      simp [Ne.symm h.1]
    · rfl

/-- A visit's distance stays on record if no other visit has its identity. -/
theorem getElem?_record_of_mem {vs : List Visit} {v : Visit} (hv : v ∈ vs) (hn : (ids vs).Nodup)
    {distances : Distances} (hd : distances[v.ref.id]? = none) :
    (vs.foldl record distances)[v.ref.id]? = v.distance := by
  induction vs generalizing distances with
  | nil => cases hv
  | cons w rest ih =>
    simp only [ids, List.map_cons, List.nodup_cons] at hn
    rw [List.foldl_cons]
    rcases List.mem_cons.1 hv with rfl | hv
    · rw [getElem?_record_of_not_mem hn.1]
      unfold record
      cases hw : v.distance with
      | none => exact hd
      | some depth => simp
    · refine ih hv hn.2 ?_
      have hne : w.ref.id ≠ v.ref.id := fun h => hn.1 (h ▸ List.mem_map_of_mem hv)
      unfold record
      split
      · rw [Std.TreeMap.getElem?_insert]
        simp [hne, hd]
      · exact hd

end Scoping

/-- The analysis of a program with new identities. -/
theorem Stmt.getElem?_analyse {program : List Stmt} {distances : Distances} {v : Visit}
    (hv : v ∈ Stmt.visitsProgram program distances) (hn : (Stmt.nodesAll program).Nodup)
    (hd : ∀ id ∈ Stmt.nodesAll program, distances[id]? = none) :
    (Stmt.analyse program distances).distances[v.ref.id]? = v.distance := by
  have hp := Stmt.ids_visitsAll {} [] program { distances := distances }
  have hid : v.ref.id ∈ Stmt.nodesAll program := hp.mem_iff.1 (List.mem_map_of_mem hv)
  show (Stmt.resolveAll {} program { distances := distances }).distances[v.ref.id]? = _
  rw [Stmt.distances_resolveAll {} []]
  exact getElem?_record_of_mem hv (hp.nodup_iff.2 hn) (hd _ hid)

/-- Identities that are not in the statements keep their distances. -/
theorem Stmt.getElem?_resolveAll_of_not_mem {ss : List Stmt} {id : Nat} (h : id ∉ Stmt.nodesAll ss)
    (ctx : Context) (a : Analysis) : (Stmt.resolveAll ctx ss a).distances[id]? = a.distances[id]? := by
  have hp := Stmt.ids_visitsAll ctx [] ss a
  rw [Stmt.distances_resolveAll ctx []]
  exact getElem?_record_of_not_mem (fun hm => h (hp.mem_iff.1 hm)) _

theorem Stmt.getElem?_analyse_of_not_mem {program : List Stmt} {id : Nat}
    (h : id ∉ Stmt.nodesAll program) (distances : Distances) :
    (Stmt.analyse program distances).distances[id]? = distances[id]? :=
  Stmt.getElem?_resolveAll_of_not_mem h {} { distances := distances }

/-! ## The scopes from event to event -/

namespace Scoping

namespace Nest

variable {n : Nest}

theorem bindAll_append (xs ys : List String) (n : Nest) :
    n.bindAll (xs ++ ys) = (n.bindAll xs).bindAll ys :=
  List.foldl_append

theorem declare_skip (name : String) (scopes : Nat) (n : Nest) :
    (n.skip scopes).declare name = (n.declare name).skip scopes := by
  unfold declare skip
  dsimp only
  split
  · rfl
  · split <;> rfl

theorem bindAll_skip (names : List String) (scopes : Nat) (n : Nest) :
    (n.skip scopes).bindAll names = (n.bindAll names).skip scopes := by
  induction names generalizing n with
  | nil => rfl
  | cons name rest ih =>
    have hbind : ((n.skip scopes).declare name).define = ((n.declare name).define).skip scopes := by
      rw [declare_skip]
      rfl
    exact (congrArg (bindAll rest) hbind).trans (ih _)

theorem skip_skip (i j : Nat) (n : Nest) : (n.skip i).skip j = n.skip (i + j) := by
  unfold skip
  rw [Nat.add_assoc]

theorem initializing_bindAll (h : n.initializing = none) (names : List String) :
    (n.bindAll names).initializing = none := by
  induction names generalizing n with
  | nil => exact h
  | cons name rest ih => exact ih rfl

/-- Only the innermost scope gets new names. -/
theorem bindAll_levels (names : List String) (n : Nest) :
    (n.bindAll names).levels.tail = n.levels.tail ∧ (n.bindAll names).opened = n.opened := by
  induction names generalizing n with
  | nil => exact ⟨rfl, rfl⟩
  | cons name rest ih =>
    have hdeclare : (n.declare name).levels.tail = n.levels.tail ∧
        (n.declare name).opened = n.opened := by
      unfold declare
      split
      · exact ⟨rfl, rfl⟩
      case h_2 level outer hlevels =>
        split
        · exact ⟨rfl, rfl⟩
        · rw [hlevels]
          exact ⟨rfl, rfl⟩
    exact ⟨(ih _).1.trans hdeclare.1, (ih _).2.trans hdeclare.2⟩

/-- Of a scope that was opened and closed, only its number is left. -/
theorem closeScope_bindAll (h : n.initializing = none) (provided names : List String) (scopes : Nat) :
    (((n.openScope provided).bindAll names).skip scopes).closeScope = n.skip (scopes + 1) := by
  obtain ⟨hlevels, hopened⟩ := (n.openScope provided).bindAll_levels names
  have hnone := initializing_bindAll (n := n.openScope provided) h names
  generalize (n.openScope provided).bindAll names = m at hlevels hopened hnone
  cases m
  cases n
  simp_all [openScope, skip, closeScope]
  omega

end Nest

/-- The scopes after an event. -/
def Act.next : Act → Nest → Nest
  | .declare name, n => n.declare name.lexeme
  | .define _, n => n.define
  | .openScope none, n => n.openScope []
  | .openScope (some (name, _)), n => n.openScope [name]
  | .closeScope, n => n.closeScope
  | _, n => n

/-- In an initializer there are only references, until its variable has its value. -/
def Act.Timely : Act → Nest → Prop
  | .refer _, _ => True
  | .define name, n => n.initializing = none ∨ n.initializing = some name.lexeme
  | _, n => n.initializing = none

/-- The scopes around each event are those that the events before it have left. -/
inductive Follows : Nest → List Event → Nest → Prop
  | nil (n : Nest) : Follows n [] n
  | cons {n m : Nest} {e : Event} {rest : List Event} : e.within.toNest = n → e.act.Timely n →
      Follows (e.act.next n) rest m → Follows n (e :: rest) m

namespace Follows

theorem of_eq {n m : Nest} (h : n = m) : Follows n [] m := h ▸ .nil n

theorem append {n m k : Nest} {es fs : List Event} (h : Follows n es m) (h' : Follows m fs k) :
    Follows n (es ++ fs) k := by
  induction h with
  | nil => exact h'
  | cons he ht _ ih => exact .cons he ht (ih h')

theorem refers (sur : Surroundings) (refs : List Reference) :
    Follows sur.toNest (sur.refers refs) sur.toNest := by
  induction refs with
  | nil => exact .nil _
  | cons ref rest ih => exact .cons rfl trivial ih

/-- A name is in its own initializer exactly if it is new. -/
theorem timely_define {n : Nest} (h : n.initializing = none) (name : Token) :
    (Act.define name).Timely (n.declare name.lexeme) := by
  show _ ∨ _
  unfold Nest.declare
  split
  · exact .inl h
  · split
    · exact .inl h
    · exact .inr rfl

theorem binds (sur : Surroundings) (h : sur.initializing = none) (name : Token) :
    Follows sur.toNest (sur.binds name) (sur.toNest.bindAll [name.lexeme]) :=
  .cons rfl h (.cons rfl (timely_define h name) (.nil _))

theorem bindsAll (sur : Surroundings) (h : sur.initializing = none) (names : List Token) :
    Follows sur.toNest (sur.bindsAll names) (sur.toNest.bindAll (names.map (·.lexeme))) := by
  induction names generalizing sur with
  | nil => exact .nil _
  | cons name rest ih =>
    exact (binds sur h name).append (ih (sur.withNest (.bindAll [name.lexeme])) rfl)

end Follows
end Scoping

mutual

theorem Stmt.follows (sur : Surroundings) (h : sur.initializing = none) (s : Stmt) :
    Follows sur.toNest (s.events sur) (sur.toNest.after s) := by
  cases s with
  | expr e => exact .refers sur _
  | print e => exact .refers sur _
  | varDecl name init =>
    have hinit := Follows.refers (sur.withNest (.declare name.lexeme)) (Expr.referencesOption init)
    exact .cons rfl h (hinit.append (.cons rfl (Follows.timely_define h name) (.nil _)))
  | block body =>
    have hbody := Stmt.followsAll (sur.withNest (.openScope [])) h body
    have hnone := Nest.initializing_bindAll (n := sur.openScope []) h (Stmt.declaredAll body)
    exact .cons rfl h (hbody.append (.cons rfl hnone (.of_eq (Nest.closeScope_bindAll h _ _ _))))
  | branch cond yes no =>
    cases no with
    | none => exact (Follows.refers sur _).append (yes.follows sur h)
    | some no =>
      have hno := no.follows (sur.withNest (.after yes)) (Nest.initializing_bindAll h _)
      have hafter : (sur.toNest.after yes).after no = sur.toNest.after (.branch cond yes (some no)) := by
        unfold Nest.after
        rw [Nest.bindAll_skip, Nest.skip_skip, ← Nest.bindAll_append]
        rfl
      exact (Follows.refers sur _).append ((yes.follows sur h).append (hafter ▸ hno))
  | loop cond body => exact (Follows.refers sur _).append (body.follows (sur.inside .loop) h)
  | breakLoop keyword => exact .cons rfl h (.nil _)
  | function decl =>
    have hbody := decl.follows ((sur.withNest (.bindAll [decl.name.lexeme])).inside .function) rfl
    exact (Follows.binds sur h decl.name).append hbody
  | returnWith keyword value => exact .cons rfl h (.refers sur _)
  | classDecl name superclass methods =>
    have hname := Follows.binds sur h name
    cases superclass with
    | none =>
      let around := (sur.withNest (.bindAll [name.lexeme])).inside (.classBody false)
      have hmethods := Routine.followsAll (around.withNest (.openScope ["this"])) rfl methods
      refine hname.append (.cons rfl rfl (hmethods.append (.cons rfl rfl (.of_eq ?_))))
      exact Nest.closeScope_bindAll (n := around.toNest) rfl ["this"] [] _
    | some superclass =>
      let around := (sur.withNest (.bindAll [name.lexeme])).inside (.classBody true)
      let middle := around.withNest (.openScope ["super"])
      have hmethods := Routine.followsAll (middle.withNest (.openScope ["this"])) rfl methods
      have hsuper := Follows.refers around superclass.references
      refine hname.append (.cons rfl rfl (hsuper.append (.cons rfl rfl (.cons rfl rfl
        (hmethods.append (.cons rfl rfl (.cons rfl rfl (.of_eq ?_))))))))
      have hinner := Nest.closeScope_bindAll (n := middle.toNest) rfl ["this"] []
        (Routine.scopeCountAll methods)
      have houter := Nest.closeScope_bindAll (n := around.toNest) rfl ["super"] []
        (Routine.scopeCountAll methods + 1)
      exact (congrArg Nest.closeScope hinner).trans houter
  | execute keyword path => exact .refers sur _

theorem Stmt.followsAll (sur : Surroundings) (h : sur.initializing = none) (ss : List Stmt) :
    Follows sur.toNest (Stmt.eventsAll sur ss) (sur.toNest.afterAll ss) := by
  cases ss with
  | nil => exact .nil _
  | cons s rest =>
    have hrest := Stmt.followsAll (sur.withNest (.after s)) (Nest.initializing_bindAll h _) rest
    have hafter : (sur.toNest.after s).afterAll rest = sur.toNest.afterAll (s :: rest) := by
      unfold Nest.after Nest.afterAll
      rw [Nest.bindAll_skip, Nest.skip_skip, ← Nest.bindAll_append]
      rfl
    exact (s.follows sur h).append (hafter ▸ hrest)

theorem Routine.follows (sur : Surroundings) (h : sur.initializing = none) (r : Routine) :
    Follows sur.toNest (r.events sur) (sur.toNest.skip r.scopeCount) := by
  cases r with
  | mk name params body =>
    let around := sur.withNest (.openScope [])
    let inner := around.withNest (.bindAll (params.map (·.lexeme)))
    have hparams := Follows.bindsAll around h params
    have hinner : inner.initializing = none :=
      Nest.initializing_bindAll (n := around.toNest) h _
    have hbody := Stmt.followsAll inner hinner body
    have hlast := Nest.initializing_bindAll hinner (Stmt.declaredAll body)
    refine .cons rfl h (hparams.append (hbody.append (.cons rfl hlast (.of_eq ?_))))
    have hclose := Nest.closeScope_bindAll h [] (params.map (·.lexeme) ++ Stmt.declaredAll body)
      (Stmt.scopeCountAll body)
    rw [Nest.bindAll_append] at hclose
    exact hclose

theorem Routine.followsAll (sur : Surroundings) (h : sur.initializing = none) (rs : List Routine) :
    Follows sur.toNest (Routine.eventsAll sur rs) (sur.toNest.skip (Routine.scopeCountAll rs)) := by
  cases rs with
  | nil => exact .nil _
  | cons r rest =>
    have hrest := Routine.followsAll (sur.withNest (.skip r.scopeCount)) h rest
    have hskip := sur.toNest.skip_skip r.scopeCount (Routine.scopeCountAll rest)
    exact (r.follows (sur.inside (.method r.name)) h).append (hskip ▸ hrest)

end

end Lox
