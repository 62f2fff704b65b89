import Lox.Proofs.Effects

/-!
# What runs are made of

A run is made of single steps and of further runs, of which each is a step less deep. A plan lays this open, one for
each thing that can be run. So one can speak of all the moments of a run at which something further is run, with the
machine as it is then.
-/

namespace Lox
open Ending Eval

/-- What can be run. Binding a method to an object counts as such. -/
inductive Job : Type → Type
  | expr (e : Expr) : Job Value
  | exprs (es : List Expr) : Job (List Value)
  | call (paren : Token) (f : Value) (args : List Value) : Job Value
  | closure (paren : Token) (f : Closure) (args : List Value) : Job Value
  | bind (receiver : Value) (method : Closure) : Job Closure
  | stmt (s : Stmt) : Job Flow
  | stmts (ss : List Stmt) : Job Flow
  | loop (cond : Expr) (body : Stmt) : Job Flow
  | script (keyword : Token) (path : String) : Job Unit
  | program (p : List Stmt) : Job Unit

def Job.run (host : Host) (n : Nat) {α : Type} : Job α → Eval α
  | .expr e => evaluate host n e
  | .exprs es => evaluateAll host n es
  | .call paren f args => Lox.call host n paren f args
  | .closure paren f args => callClosure host n paren f args
  | .bind receiver method => attach receiver method
  | .stmt s => execute host n s
  | .stmts ss => executeAll host n ss
  | .loop cond body => repeatWhile host n cond body
  | .script keyword path => load host n keyword path
  | .program p => interpret host n p

/-! ## Plans -/

inductive Plan : Type → Type 1
  /-- One step, and that is all. -/
  | last {α : Type} (p : Eval α) : Plan α
  | step {α β : Type} (p : Eval β) (next : β → Plan α) : Plan α
  /-- A run, in the environment that is given if one is. -/
  | sub {α β : Type} (env : Option Env) (job : Job β) (next : β → Plan α) : Plan α
  /-- A run in place of this one. -/
  | tail {α : Type} (job : Job α) : Plan α
  | flushing {α : Type} (plan : Plan α) : Plan α

/-- Runs in the environment that is given, or else here. -/
def Eval.place {α : Type} (env : Option Env) (act : Eval α) : Eval α :=
  match env with
  | some env => inEnv env act
  | none => act

def Plan.run (host : Host) (n : Nat) {α : Type} : Plan α → Eval α
  | .last p => p
  | .step p next => p >>= fun b => (next b).run host n
  | .sub env job next => place env (job.run host n) >>= fun b => (next b).run host n
  | .tail job => job.run host n
  | .flushing plan => Eval.flushing (plan.run host n)

namespace Plan

def bound (receiver : Value) (method : Closure) : Plan Value :=
  .sub none (.bind receiver method) fun f => .last (newFunction f)

def property (id : Nat) (c : Class) (name : Token) : Plan Value :=
  .step get fun m =>
    match (m.fields id).get? name.lexeme with
    | some v => .last (pure v)
    | none =>
      match c.findMethod name.lexeme with
      | some method => bound (.object id c) method
      | none => .last (fail name (.undefinedProperty name.lexeme))

def superMethod (id : Nat) (keyword method : Token) : Plan Value :=
  .step get fun m =>
    match m.distances[id]? with
    | none => .last (undefined keyword)
    | some distance =>
      match m.frames.getAt? m.env distance "super" with
      | some (.classDef parent) =>
        match m.frames.getAt? m.env (distance - 1) "this" with
        | some (.object id c) =>
          match parent.findMethod method.lexeme with
          | some f => bound (.object id c) f
          | none => .last (fail method (.undefinedProperty method.lexeme))
        | _ => .last (fail keyword (.undefinedVariable "this"))
      | _ => .last (undefined keyword)

def expr : Expr → Plan Value
  | .literal v => .last (pure (.ofLiteral v))
  | .group e => .tail (.expr e)
  | .unary op right => .sub none (.expr right) fun v => .last (unaryOp op v)
  | .binary left op right =>
    .sub none (.expr left) fun v => .sub none (.expr right) fun w => .last (binaryOp op v w)
  | .logical left op right =>
    .sub none (.expr left) fun v => if settles op v then .last (pure v) else .tail (.expr right)
  | .var id name => .last (lookUp id name)
  | .assign id name value =>
    .sub none (.expr value) fun v => .step (Eval.assign id name v) fun _ => .last (pure v)
  | .call callee paren args =>
    .sub none (.expr callee) fun f => .sub none (.exprs args) fun args =>
      match f.callable? with
      | none => .last (fail paren .notCallable)
      | some (_, arity) =>
        if args.length = arity then .tail (.call paren f args) else .last (fail paren (.arity arity args.length))
  | .get object name =>
    .sub none (.expr object) fun v =>
      match v with
      | .object id c => property id c name
      | _ => .last (fail name .noProperties)
  | .set object name value =>
    .sub none (.expr object) fun v =>
      match v with
      | .object id _ => .sub none (.expr value) fun v => .step (setField id name v) fun _ => .last (pure v)
      | _ => .last (fail name .noFields)
  | .thisRef id keyword => .last (lookUp id keyword)
  | .superRef id keyword method => superMethod id keyword method

def call (host : Host) (paren : Token) (f : Value) (args : List Value) : Plan Value :=
  match f with
  | .native f => .last (callNative host paren f args)
  | .function _ f => .tail (.closure paren f args)
  | .classDef c =>
    .step (newObject c) fun receiver =>
      match c.initializer? with
      | none => .last (pure receiver)
      | some init =>
        .sub none (.bind receiver init) fun init => .sub none (.closure paren init args) fun _ => .last (pure receiver)
  | _ => .last (fail paren .notCallable)

/-- What a call gives once its body is through. -/
def result (paren : Token) (f : Closure) (flow : Flow) : Eval Value :=
  if f.isInitializer then do
    match (← get).frames.getAt? f.env 0 "this" with
    | some receiver => return receiver
    | none => fail paren .unboundInitializer
  else return flow.result

def closure (paren : Token) (f : Closure) (args : List Value) : Plan Value :=
  .step (extend f.env (f.frame args)) fun env =>
    .sub (some env) (.stmts f.decl.body) fun flow => .last (result paren f flow)

def superclass (name : Token) (e : Expr) (next : Option Class → Plan Flow) : Plan Flow :=
  .sub none (.expr e) fun v =>
    match v with
    | .classDef c => next (some c)
    | _ => .last (fail (superclassToken name e) .superclassNotClass)

def stmt : Stmt → Plan Flow
  | .expr e => .sub none (.expr e) fun _ => .last (pure .normal)
  | .print e => .sub none (.expr e) fun v => .step (writeLine v.text) fun _ => .last (pure .normal)
  | .varDecl name none => .step (define name.lexeme .nil) fun _ => .last (pure .normal)
  | .varDecl name (some e) =>
    .sub none (.expr e) fun v => .step (define name.lexeme v) fun _ => .last (pure .normal)
  | .block body =>
    .step get fun m => .step (extend m.env []) fun env => .sub (some env) (.stmts body) fun flow => .last (pure flow)
  | .branch cond yes no =>
    .sub none (.expr cond) fun v =>
      if v.truthy then .tail (.stmt yes) else
        match no with
        | some no => .tail (.stmt no)
        | none => .last (pure .normal)
  | .loop cond body => .tail (.loop cond body)
  | .breakLoop _ => .last (pure .broke)
  | .function decl =>
    .step get fun m => .step (newFunction ⟨decl, m.env, false⟩) fun f =>
      .step (define decl.name.lexeme f) fun _ => .last (pure .normal)
  | .returnWith _ none => .last (pure (.returned .nil))
  | .returnWith _ (some e) => .sub none (.expr e) fun v => .last (pure (.returned v))
  | .classDecl name parent methods =>
    .step (define name.lexeme .nil) fun _ =>
      let made (parent : Option Class) : Plan Flow :=
        .step (defineClass name parent methods) fun _ => .last (pure .normal)
      match parent with
      | none => made none
      | some e => superclass name e made
  | .execute keyword path =>
    .sub none (.expr path) fun v =>
      match v with
      | .string path => .sub none (.script keyword path) fun _ => .last (pure .normal)
      | _ => .last (fail keyword .pathNotString)

def loop (cond : Expr) (body : Stmt) : Plan Flow :=
  .sub none (.expr cond) fun v =>
    if v.truthy then
      .sub none (.stmt body) fun flow =>
        match flow with
        | .normal => .tail (.loop cond body)
        | .broke => .last (pure .normal)
        | .returned v => .last (pure (.returned v))
    else .last (pure .normal)

def script (host : Host) (keyword : Token) (path : String) : Plan Unit :=
  match host.loader with
  | .absent => .last (fail keyword .noLoader)
  | .custom f => .last fun m =>
    match f path m with
    | (.ok (), m) => .ok () m
    | (.error e, m) => .error (.failed e) m
  | .files => .step (request path) fun _ => .step (readScript host path) fun p => .tail (.program p)

end Plan

/-- How a run of depth `n + 1` is made of steps and runs of depth `n`. -/
def Job.plan (host : Host) {α : Type} : Job α → Plan α
  | .expr e => .expr e
  | .exprs [] => .last (pure [])
  | .exprs (e :: rest) => .sub none (.expr e) fun v => .sub none (.exprs rest) fun vs => .last (pure (v :: vs))
  | .call paren f args => .call host paren f args
  | .closure paren f args => .closure paren f args
  | .bind receiver method => .last (attach receiver method)
  | .stmt s => .stmt s
  | .stmts [] => .last (pure .normal)
  | .stmts (s :: rest) =>
    .sub none (.stmt s) fun flow =>
      match flow with
      | .normal => .tail (.stmts rest)
      | flow => .last (pure flow)
  | .loop cond body => .loop cond body
  | .script keyword path => .script host keyword path
  | .program p => .flushing (.sub (some Machine.globals) (.stmts p) fun _ => .last (pure ()))

/-! ## Runs follow their plans -/

namespace Plan

variable {host : Host} {n : Nat}

theorem run_property (id : Nat) (c : Class) (name : Token) :
    (property id c name).run host n = getProperty id c name := by
  unfold property getProperty
  refine bind_congr fun m => ?_
  dsimp only
  cases (m.fields id).get? name.lexeme with
  | some v => rfl
  | none => cases c.findMethod name.lexeme <;> rfl

theorem run_superMethod (id : Nat) (keyword method : Token) :
    (superMethod id keyword method).run host n = Eval.superMethod id keyword method := by
  unfold superMethod Eval.superMethod
  refine bind_congr fun m => ?_
  dsimp only
  cases m.distances[id]? with
  | none => rfl
  | some distance =>
    dsimp only
    cases m.frames.getAt? m.env distance "super" with
    | none => rfl
    | some v =>
      cases v with
      | classDef parent =>
        dsimp only
        cases m.frames.getAt? m.env (distance - 1) "this" with
        | none => rfl
        | some w =>
          cases w with
          | object id c => cases parent.findMethod method.lexeme <;> rfl
          | _ => rfl
      | _ => rfl

theorem run_expr (e : Expr) : (expr e).run host n = evaluate host (n + 1) e := by
  cases e with
  | logical left op right =>
    refine bind_congr fun v => ?_
    dsimp only
    cases settles op v <;> rfl
  | call callee paren args =>
    refine bind_congr fun f => bind_congr fun args => ?_
    dsimp only
    cases f.callable? with
    | none => rfl
    | some c =>
      dsimp only
      split
      · rfl
      · rfl
  | get object name =>
    refine bind_congr fun v => ?_
    cases v with
    | object id c => exact run_property id c name
    | _ => rfl
  | set object name value =>
    refine bind_congr fun v => ?_
    cases v <;> rfl
  | superRef id keyword method => exact run_superMethod id keyword method
  | _ => rfl

theorem run_call (paren : Token) (f : Value) (args : List Value) :
    (call host paren f args).run host n = Lox.call host (n + 1) paren f args := by
  cases f with
  | classDef c =>
    refine bind_congr fun receiver => ?_
    dsimp only
    cases c.initializer? <;> rfl
  | _ => rfl

theorem run_closure (paren : Token) (f : Closure) (args : List Value) :
    (closure paren f args).run host n = callClosure host (n + 1) paren f args := by
  refine bind_congr fun env => bind_congr fun flow => ?_
  show result paren f flow = _
  unfold result
  cases f.isInitializer <;> rfl

theorem run_stmt (s : Stmt) : (stmt s).run host n = execute host (n + 1) s := by
  cases s with
  | varDecl name init => cases init <;> rfl
  | block body => exact bind_congr fun m => bind_congr fun env => bind_pure _
  | branch cond yes no =>
    refine bind_congr fun v => ?_
    dsimp only
    cases v.truthy with
    | true => rfl
    | false => cases no <;> rfl
  | returnWith keyword value => cases value <;> rfl
  | classDecl name parent methods =>
    refine bind_congr fun _ => ?_
    cases parent with
    | none => rfl
    | some e =>
      refine bind_congr fun v => ?_
      cases v <;> rfl
  | execute keyword path =>
    refine bind_congr fun v => ?_
    cases v <;> rfl
  | _ => rfl

theorem run_loop (cond : Expr) (body : Stmt) : (loop cond body).run host n = repeatWhile host (n + 1) cond body := by
  refine bind_congr fun v => ?_
  dsimp only
  cases v.truthy with
  | true =>
    refine bind_congr fun flow => ?_
    cases flow <;> rfl
  | false => rfl

theorem run_script (keyword : Token) (path : String) :
    (script host keyword path).run host n = load host (n + 1) keyword path := by
  rw [script, load]
  cases host.loader <;> rfl

theorem run_program (p : List Stmt) : ((Job.program p).plan host).run host n = interpret host (n + 1) p := by
  have hdiscard : (do let _ ← inEnv Machine.globals (executeAll host n p); pure () : Eval Unit) =
      inEnv Machine.globals (discard (executeAll host n p)) := by
    funext m
    show EStateM.bind (inEnv _ _) _ m = inEnv _ (EStateM.map _ _) m
    unfold EStateM.bind EStateM.map inEnv
    dsimp only
    cases executeAll host n p { m with env := Machine.globals } with
    | ok flow m => rfl
    | error e m => rfl
  exact congrArg Eval.flushing hdiscard

end Plan

theorem Job.run_succ (host : Host) (n : Nat) {α : Type} (job : Job α) :
    job.run host (n + 1) = (job.plan host).run host n := by
  cases job with
  | expr e => exact (Plan.run_expr e).symm
  | exprs es => cases es <;> rfl
  | call paren f args => exact (Plan.run_call paren f args).symm
  | closure paren f args => exact (Plan.run_closure paren f args).symm
  | bind receiver method => rfl
  | stmt s => exact (Plan.run_stmt s).symm
  | stmts ss =>
    cases ss with
    | nil => rfl
    | cons s rest =>
      refine bind_congr fun flow => ?_
      cases flow <;> rfl
  | loop cond body => exact (Plan.run_loop cond body).symm
  | script keyword path => exact (Plan.run_script keyword path).symm
  | program p => exact (Plan.run_program p).symm

end Lox
