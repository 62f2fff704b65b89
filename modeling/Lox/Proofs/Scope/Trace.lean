import Lox.Proofs.Endings
import Lox.Proofs.Scope.Visits
import Lox.Session

/-!
# Runs with a log

The log of a run says which programs were accepted, which scopes were entered, with the number of the frame
that was made for each, and which variables were referred to and which blocks and loops were begun, with the machine
as it was then. The newest event comes first. Apart from the log, a run with one is a run without (`Erases`), so what
holds of all logs holds of what the machine really does.
-/

namespace Lox
open Scoping

inductive Event where
  /-- A program passed the analysis, which began with these distances. -/
  | accepted (program : List Stmt) (distances : Distances)
  /-- A scope was entered, and the frame made on top of an environment. -/
  | entered (site : Site) (outer : Env) (frame : Nat)
  /-- A variable is about to be read or assigned. -/
  | referred (ref : Reference) (machine : Machine)
  /-- A block or a loop is about to run. -/
  | began (stmt : Stmt) (machine : Machine)

namespace Trace

abbrev Log := List Event

structure State where
  machine : Machine
  log : Log := []

end Trace

abbrev Traced := EStateM Stop Trace.State

namespace Trace

variable {α β : Type}

def lift (act : Eval α) : Traced α := fun s =>
  match act s.machine with
  | .ok a m => .ok a { s with machine := m }
  | .error e m => .error e { s with machine := m }

def note (event : Machine → Event) : Traced Unit := fun s =>
  .ok () { s with log := event s.machine :: s.log }

def inEnv (env : Env) (act : Traced α) : Traced α := fun s =>
  let here := s.machine.env
  match act { s with machine := { s.machine with env := env } } with
  | .ok a s => .ok a { s with machine := { s.machine with env := here } }
  | .error e s => .error e { s with machine := { s.machine with env := here } }

def flushing (act : Traced α) : Traced α := fun s =>
  match act s with
  | .ok a s => (do lift Eval.flush; return a : Traced α) s
  | .error (.failed e) s => (do lift Eval.flush; throw (.failed e) : Traced α) s
  | .error .exhausted s => .error .exhausted s

def extend (site : Site) (outer : Env) (frame : Frame) : Traced Env := do
  note fun m => .entered site outer m.frames.size
  lift (Eval.extend outer frame)

def lookUp (ref : Reference) : Traced Value := do
  note (.referred ref)
  lift (Eval.lookUp ref.id ref.name)

def assign (ref : Reference) (value : Value) : Traced Unit := do
  note (.referred ref)
  lift (Eval.assign ref.id ref.name value)

def attach (receiver : Value) (method : Closure) : Traced Closure := do
  let env ← extend (.receiver method.decl) method.env [("this", receiver)]
  return { method with env := env }

def getProperty (id : Nat) (c : Class) (name : Token) : Traced Value := do
  match ((← lift get).fields id).get? name.lexeme with
  | some v => return v
  | none =>
    match c.findMethod name.lexeme with
    | some method => do
      let f ← attach (.object id c) method
      lift (Eval.newFunction f)
    | none => lift (Eval.fail name (.undefinedProperty name.lexeme))

def superMethod (id : Nat) (keyword method : Token) : Traced Value := do
  note (.referred ⟨.parent, id, keyword⟩)
  let m ← lift get
  match m.distances[id]? with
  | none => lift (Eval.undefined keyword)
  | some distance =>
    match m.frames.getAt? m.env distance "super" with
    | some (.classDef parent) =>
      match m.frames.getAt? m.env (distance - 1) "this" with
      | some (.object id c) =>
        match parent.findMethod method.lexeme with
        | some f => do
          let f ← attach (.object id c) f
          lift (Eval.newFunction f)
        | none => lift (Eval.fail method (.undefinedProperty method.lexeme))
      | _ => lift (Eval.fail keyword (.undefinedVariable "this"))
    | _ => lift (Eval.undefined keyword)

def methodEnv (superclass : Option Class) (methods : List Routine) : Traced Env := do
  match superclass with
  | some parent => extend (.parent methods) (← lift get).env [("super", .classDef parent)]
  | none => return (← lift get).env

def defineClass (name : Token) (superclass : Option Class) (methods : List Routine) :
    Traced Unit := do
  let env ← methodEnv superclass methods
  let ref ← lift Eval.newRef
  lift (Eval.store (fun m => m.frames.holder? m.env name.lexeme) name
    (.classDef ⟨ref, name.lexeme, superclass, Eval.methodTable env methods⟩))

def readScript (host : Host) (path : String) : Traced (List Stmt) := do
  let before := (← lift get).distances
  let program ← lift (Eval.readScript host path)
  note fun _ => .accepted program before
  return program

mutual

def evaluate (host : Host) : Nat → Expr → Traced Value
  | 0, _ => throw .exhausted
  | n + 1, e =>
    match e with
    | .literal v => return .ofLiteral v
    | .group inner => evaluate host n inner
    | .unary op right => do
      let right ← evaluate host n right
      lift (Eval.unaryOp op right)
    | .binary left op right => do
      let left ← evaluate host n left
      let right ← evaluate host n right
      lift (Eval.binaryOp op left right)
    | .logical left op right => do
      let left ← evaluate host n left
      if Eval.settles op left then return left else evaluate host n right
    | .var id name => lookUp ⟨.read, id, name⟩
    | .assign id name value => do
      let value ← evaluate host n value
      assign ⟨.write, id, name⟩ value
      return value
    | .call callee paren args => do
      let f ← evaluate host n callee
      let args ← evaluateAll host n args
      match f.callable? with
      | none => lift (Eval.fail paren .notCallable)
      | some (_, arity) =>
        if args.length = arity then call host n paren f args
        else lift (Eval.fail paren (.arity arity args.length))
    | .get object name => do
      match ← evaluate host n object with
      | .object id c => getProperty id c name
      | _ => lift (Eval.fail name .noProperties)
    | .set object name value => do
      match ← evaluate host n object with
      | .object id _ =>
        let value ← evaluate host n value
        lift (Eval.setField id name value)
        return value
      | _ => lift (Eval.fail name .noFields)
    | .thisRef id keyword => lookUp ⟨.receiver, id, keyword⟩
    | .superRef id keyword method => superMethod id keyword method

def evaluateAll (host : Host) : Nat → List Expr → Traced (List Value)
  | 0, _ => throw .exhausted
  | _ + 1, [] => return []
  | n + 1, e :: rest => do
    let v ← evaluate host n e
    return v :: (← evaluateAll host n rest)

def call (host : Host) : Nat → Token → Value → List Value → Traced Value
  | 0, _, _, _ => throw .exhausted
  | n + 1, paren, f, args =>
    match f with
    | .native f => lift (Eval.callNative host paren f args)
    | .function _ f => callClosure host n paren f args
    | .classDef c => do
      let receiver ← lift (Eval.newObject c)
      match c.initializer? with
      | none => return receiver
      | some init =>
        let init ← attach receiver init
        let _ ← callClosure host n paren init args
        return receiver
    | _ => lift (Eval.fail paren .notCallable)

def callClosure (host : Host) : Nat → Token → Closure → List Value → Traced Value
  | 0, _, _, _ => throw .exhausted
  | n + 1, paren, f, args => do
    let env ← extend (.routine f.decl) f.env (f.frame args)
    let flow ← inEnv env (executeAll host n f.decl.body)
    if f.isInitializer then
      match (← lift get).frames.getAt? f.env 0 "this" with
      | some receiver => return receiver
      | none => lift (Eval.fail paren .unboundInitializer)
    else return flow.result

def execute (host : Host) : Nat → Stmt → Traced Flow
  | 0, _ => throw .exhausted
  | n + 1, s =>
    match s with
    | .expr e => do
      let _ ← evaluate host n e
      return .normal
    | .print e => do
      let v ← evaluate host n e
      lift (Eval.writeLine v.text)
      return .normal
    | .varDecl name init => do
      let v ← match init with
        | some e => evaluate host n e
        | none => pure .nil
      lift (Eval.define name.lexeme v)
      return .normal
    | .block body => do
      note (.began (.block body))
      let env ← extend (.block body) (← lift get).env []
      inEnv env (executeAll host n body)
    | .branch cond yes no => do
      if (← evaluate host n cond).truthy then execute host n yes
      else
        match no with
        | some no => execute host n no
        | none => return .normal
    | .loop cond body => do
      note (.began (.loop cond body))
      repeatWhile host n cond body
    | .breakLoop _ => return .broke
    | .function decl => do
      let f ← lift (Eval.newFunction ⟨decl, (← lift get).env, false⟩)
      lift (Eval.define decl.name.lexeme f)
      return .normal
    | .returnWith _ value => do
      match value with
      | some e => return .returned (← evaluate host n e)
      | none => return .returned .nil
    | .classDecl name superclass methods => do
      lift (Eval.define name.lexeme .nil)
      let parent ← match superclass with
        | none => pure none
        | some e => do
          match ← evaluate host n e with
          | .classDef c => pure (some c)
          | _ => lift (Eval.fail (Eval.superclassToken name e) .superclassNotClass)
      defineClass name parent methods
      return .normal
    | .execute keyword path => do
      match ← evaluate host n path with
      | .string path =>
        load host n keyword path
        return .normal
      | _ => lift (Eval.fail keyword .pathNotString)

def executeAll (host : Host) : Nat → List Stmt → Traced Flow
  | 0, _ => throw .exhausted
  | _ + 1, [] => return .normal
  | n + 1, s :: rest => do
    match ← execute host n s with
    | .normal => executeAll host n rest
    | flow => return flow

def repeatWhile (host : Host) : Nat → Expr → Stmt → Traced Flow
  | 0, _, _ => throw .exhausted
  | n + 1, cond, body => do
    if (← evaluate host n cond).truthy then
      match ← execute host n body with
      | .normal => repeatWhile host n cond body
      | .broke => return .normal
      | .returned v => return .returned v
    else return .normal

def load (host : Host) : Nat → Token → String → Traced Unit
  | 0, _, _ => throw .exhausted
  | n + 1, keyword, path =>
    match host.loader with
    | .absent => lift (Eval.fail keyword .noLoader)
    | .custom f => lift fun m =>
      match f path m with
      | (.ok (), m) => .ok () m
      | (.error e, m) => .error (.failed e) m
    | .files => do
      lift (Eval.request path)
      interpret host n (← readScript host path)

def interpret (host : Host) : Nat → List Stmt → Traced Unit
  | 0, _ => throw .exhausted
  | n + 1, program =>
    flushing (inEnv Machine.globals (discard (executeAll host n program)))

end

end Trace
end Lox
