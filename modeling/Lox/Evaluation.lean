import Lox.Machine

/-!
# Running programs

Expressions have values and statements have flows; both change the machine. A failure leaves the
machine as it was at that point, with the environment of the caller restored.

Every function takes a bound on its depth, a loop counting one for each round. A run that reaches
the bound stops as `exhausted` and says nothing about the program.
-/

namespace Lox

/-- Why a run ends before the end of the program. -/
inductive Stop where
  | failed (e : Error)
  | exhausted

abbrev Eval := EStateM Stop Machine

/-- How a statement ends. -/
inductive Flow where
  | normal
  | broke
  | returned (value : Value)

namespace Eval

def fail {α : Type} (t : Token) (fault : RuntimeFault) : Eval α :=
  throw (.failed (.runtimeAt t fault))

/-- Runs in another environment and comes back in any case. -/
def inEnv {α : Type} (env : Env) (act : Eval α) : Eval α := fun m =>
  let here := m.env
  match act { m with env := env } with
  | .ok a m => .ok a { m with env := here }
  | .error e m => .error e { m with env := here }

/-! ## Variables -/

/-- A new environment with one frame more than `outer`. -/
def extend (outer : Env) (frame : Frame) : Eval Env := fun m =>
  .ok (m.frames.size :: outer) { m with frames := m.frames.add frame }

/-- Binds a name in the innermost frame. -/
def define (name : String) (value : Value) : Eval Unit := fun m =>
  match m.env with
  | [] => .ok () m
  | i :: _ => .ok () { m with frames := m.frames.define i name value }

def undefined {α : Type} (name : Token) : Eval α := fail name (.undefinedVariable name.lexeme)

/-- The value of a variable: at its distance if it has one, else among the globals. -/
def lookUp (id : Nat) (name : Token) : Eval Value := fun m =>
  let found := match m.distances[id]? with
    | some distance => m.frames.getAt? m.env distance name.lexeme
    | none => m.frames.get? Machine.globals name.lexeme
  match found with
  | some v => .ok v m
  | none => undefined name m

/-- Gives the frame `holder` says a new value for `name`. -/
def store (holder : Machine → Option Nat) (name : Token) (value : Value) : Eval Unit := fun m =>
  match holder m with
  | some i => .ok () { m with frames := m.frames.define i name.lexeme value }
  | none => undefined name m

/-- Assigns to a variable: at its distance if it has one, else among the globals. -/
def assign (id : Nat) (name : Token) (value : Value) : Eval Unit :=
  store (fun m => match m.distances[id]? with
    | some distance => m.frames.holderAt? m.env distance name.lexeme
    | none => m.frames.holder? Machine.globals name.lexeme) name value

/-! ## Functions, classes and objects -/

def newRef : Eval Nat := fun m => .ok m.nextRef { m with nextRef := m.nextRef + 1 }

def newFunction (f : Closure) : Eval Value := do return .function (← newRef) f

def newObject (c : Class) : Eval Value := fun m =>
  .ok (.object m.objects.size c) { m with objects := m.objects.push [] }

/-- A method with the object that it is called on: `this` is a name in a frame of its own. -/
def attach (receiver : Value) (method : Closure) : Eval Closure := do
  let env ← extend method.env [("this", receiver)]
  return { method with env := env }

def getProperty (id : Nat) (c : Class) (name : Token) : Eval Value := do
  match ((← get).fields id).get? name.lexeme with
  | some v => return v
  | none =>
    match c.findMethod name.lexeme with
    | some method => newFunction (← attach (.object id c) method)
    | none => fail name (.undefinedProperty name.lexeme)

def setField (id : Nat) (name : Token) (value : Value) : Eval Unit := fun m =>
  .ok () { m with objects := m.objects.modify id (·.insert name.lexeme value) }

/-- The method of the superclass, bound to the present object: `super` is `distance` steps out and
`this` one step less. -/
def superMethod (id : Nat) (keyword method : Token) : Eval Value := do
  let m ← get
  match m.distances[id]? with
  | none => undefined keyword
  | some distance =>
    match m.frames.getAt? m.env distance "super" with
    | some (.classDef parent) =>
      match m.frames.getAt? m.env (distance - 1) "this" with
      | some (.object id c) =>
        match parent.findMethod method.lexeme with
        | some f => newFunction (← attach (.object id c) f)
        | none => fail method (.undefinedProperty method.lexeme)
      | _ => fail keyword (.undefinedVariable "this")
    | _ => undefined keyword

/-- A later method takes the place of an earlier one of the same name. -/
def methodTable (env : Env) (methods : List Routine) : Table Closure :=
  methods.foldl (fun table r => table.insert r.name.lexeme ⟨r, env, r.name.lexeme = initName⟩) []

/-- Goes to another environment, and says which one it was before. -/
def swapEnv (env : Env) : Eval Env := fun m => .ok m.env { m with env := env }

/-- Makes the class and assigns it to its name. The methods of a class with a superclass are made in an environment of
their own, in which the superclass is a name; then the machine goes back to the one before. -/
def defineClass (name : Token) (superclass : Option Class) (methods : List Routine) : Eval Unit := do
  let enclosing ← match superclass with
    | some parent => do
      let env ← extend (← get).env [("super", .classDef parent)]
      some <$> swapEnv env
    | none => pure none
  let table := methodTable (← get).env methods
  let c : Class := ⟨← newRef, name.lexeme, superclass, table⟩
  match enclosing with
  | some env => discard (swapEnv env)
  | none => pure ()
  store (fun m => m.frames.holder? m.env name.lexeme) name (.classDef c)

/-- Where the methods of a class look names up. -/
def methodEnv (superclass : Option Class) : Eval Env := do
  match superclass with
  | some parent => extend (← get).env [("super", .classDef parent)]
  | none => return (← get).env

/-- Where a class is made does not show once it is made. -/
theorem defineClass_eq (name : Token) (superclass : Option Class) (methods : List Routine) :
    defineClass name superclass methods = (do
      let env ← methodEnv superclass
      let c : Class := ⟨← newRef, name.lexeme, superclass, methodTable env methods⟩
      store (fun m => m.frames.holder? m.env name.lexeme) name (.classDef c)) := by
  cases superclass <;> rfl

/-- A superclass that is no class is at fault where it is named. -/
def superclassToken (name : Token) : Expr → Token
  | .var _ superName => superName
  | _ => name

/-! ## Operators -/

def unaryOp (op : Token) (right : Value) : Eval Value :=
  match op.kind with
  | .symbol .minus =>
    match right with
    | .number x => return .number (-x)
    | _ => fail op .operandNotNumber
  | .symbol .bang => return .bool (!right.truthy)
  | _ => fail op .invalidUnary

def numeric (op : Token) (left right : Value) (f : Float → Float → Value) : Eval Value :=
  match left, right with
  | .number x, .number y => return f x y
  | _, _ => fail op .operandsNotNumbers

/-- Numbers are added; a string is joined to the text of anything. -/
def add (op : Token) (left right : Value) : Eval Value :=
  match left, right with
  | .number x, .number y => return .number (x + y)
  | .string s, other => return .string (s ++ other.text)
  | other, .string s => return .string (other.text ++ s)
  | _, _ => fail op .operandsNotAddable

def binaryOp (op : Token) (left right : Value) : Eval Value :=
  match op.kind with
  | .symbol .plus => add op left right
  | .symbol .minus => numeric op left right fun x y => .number (x - y)
  | .symbol .star => numeric op left right fun x y => .number (x * y)
  | .symbol .slash => numeric op left right fun x y => .number (x / y)
  | .symbol .greater => numeric op left right fun x y => .bool (y < x)
  | .symbol .greaterEqual => numeric op left right fun x y => .bool (y ≤ x)
  | .symbol .less => numeric op left right fun x y => .bool (x < y)
  | .symbol .lessEqual => numeric op left right fun x y => .bool (x ≤ y)
  | .symbol .equalEqual => return .bool (left.equal right)
  | .symbol .bangEqual => return .bool (!left.equal right)
  | _ => fail op .invalidBinary

/-- Whether the left operand settles a logical expression: if true for `or`, if false otherwise. -/
def settles (op : Token) (left : Value) : Bool :=
  match op.kind with
  | .keyword .orKw => left.truthy
  | _ => !left.truthy

/-! ## The outside -/

def writeLine (s : String) : Eval Unit := fun m =>
  match m.output.write (s ++ "\n") with
  | (none, sink) => .ok () { m with output := sink }
  | (some reason, sink) => .error (.failed (.io (.custom reason))) { m with output := sink }

def flush : Eval Unit := fun m =>
  match m.output.flush with
  | (none, sink) => .ok () { m with output := sink }
  | (some reason, sink) => .error (.failed (.io (.custom reason))) { m with output := sink }

/-- Flushes the output at the end of `act`, also of one that failed. A refused flush is then the
error that is seen. -/
def flushing {α : Type} (act : Eval α) : Eval α := fun m =>
  match act m with
  | .ok a m => (do flush; return a : Eval α) m
  | .error (.failed e) m => (do flush; throw (.failed e) : Eval α) m
  | .error .exhausted m => .error .exhausted m

def callNative (host : Host) (paren : Token) (f : Native) (args : List Value) : Eval Value := fun m =>
  match f.code with
  | .clock => .ok (.number (host.clock m.ticks)) { m with ticks := m.ticks + 1 }
  | .host slot =>
    match host.functions[slot]? with
    | none => fail paren .notCallable m
    | some g =>
      match g.run m args with
      | .ok v => .ok v m
      | .error wording => fail paren (.custom wording) m

def request (path : String) : Eval Unit := fun m =>
  .ok () { m with requested := m.requested ++ [path] }

/-- Reads a script file into a program, queueing the warnings about it. -/
def readScript (host : Host) (path : String) : Eval (List Stmt) := fun m =>
  match host.read path with
  | .error fault => .error (.failed (.script path [.io fault])) m
  | .ok source =>
    match m.compile source with
    | (.error es, m) => .error (.failed (.script path es)) m
    | (.ok (program, warnings), m) => .ok program (m.queueWarnings warnings)

end Eval

/-- The value of a call: that which the body returned, or nil. -/
def Flow.result : Flow → Value
  | .returned v => v
  | _ => .nil

/-- The frame of a call. Of two parameters of one name the later counts. -/
def Closure.frame (f : Closure) (args : List Value) : Frame :=
  (f.decl.params.zip args).foldl (fun frame (param, arg) => frame.insert param.lexeme arg) []

open Eval

mutual

def evaluate (host : Host) : Nat → Expr → Eval Value
  | 0, _ => throw .exhausted
  | n + 1, e =>
    match e with
    | .literal v => return .ofLiteral v
    | .group inner => evaluate host n inner
    | .unary op right => do unaryOp op (← evaluate host n right)
    | .binary left op right => do
      let left ← evaluate host n left
      let right ← evaluate host n right
      binaryOp op left right
    | .logical left op right => do
      let left ← evaluate host n left
      if settles op left then return left else evaluate host n right
    | .var id name => lookUp id name
    | .assign id name value => do
      let value ← evaluate host n value
      Eval.assign id name value
      return value
    | .call callee paren args => do
      let f ← evaluate host n callee
      let args ← evaluateAll host n args
      match f.callable? with
      | none => fail paren .notCallable
      | some (_, arity) =>
        if args.length = arity then call host n paren f args
        else fail paren (.arity arity args.length)
    | .get object name => do
      match ← evaluate host n object with
      | .object id c => getProperty id c name
      | _ => fail name .noProperties
    | .set object name value => do
      match ← evaluate host n object with
      | .object id _ =>
        let value ← evaluate host n value
        setField id name value
        return value
      | _ => fail name .noFields
    | .thisRef id keyword => lookUp id keyword
    | .superRef id keyword method => superMethod id keyword method

/-- The values of expressions, from left to right. -/
def evaluateAll (host : Host) : Nat → List Expr → Eval (List Value)
  | 0, _ => throw .exhausted
  | _ + 1, [] => return []
  | n + 1, e :: rest => do
    let v ← evaluate host n e
    return v :: (← evaluateAll host n rest)

/-- Calls something with as many arguments as it takes. -/
def call (host : Host) : Nat → Token → Value → List Value → Eval Value
  | 0, _, _, _ => throw .exhausted
  | n + 1, paren, f, args =>
    match f with
    | .native f => callNative host paren f args
    | .function _ f => callClosure host n paren f args
    | .classDef c => do
      let receiver ← newObject c
      match c.initializer? with
      | none => return receiver
      | some init =>
        let init ← attach receiver init
        let _ ← callClosure host n paren init args
        return receiver
    | _ => fail paren .notCallable

/-- An initializer gives the object it is bound to, whatever its body returns. -/
def callClosure (host : Host) : Nat → Token → Closure → List Value → Eval Value
  | 0, _, _, _ => throw .exhausted
  | n + 1, paren, f, args => do
    let env ← extend f.env (f.frame args)
    let flow ← inEnv env (executeAll host n f.decl.body)
    if f.isInitializer then
      match (← get).frames.getAt? f.env 0 "this" with
      | some receiver => return receiver
      | none => fail paren .unboundInitializer
    else return flow.result

def execute (host : Host) : Nat → Stmt → Eval Flow
  | 0, _ => throw .exhausted
  | n + 1, s =>
    match s with
    | .expr e => do
      let _ ← evaluate host n e
      return .normal
    | .print e => do
      let v ← evaluate host n e
      writeLine v.text
      return .normal
    | .varDecl name init => do
      let v ← match init with
        | some e => evaluate host n e
        | none => pure .nil
      define name.lexeme v
      return .normal
    | .block body => do
      let env ← extend (← get).env []
      inEnv env (executeAll host n body)
    | .branch cond yes no => do
      if (← evaluate host n cond).truthy then execute host n yes
      else
        match no with
        | some no => execute host n no
        | none => return .normal
    | .loop cond body => repeatWhile host n cond body
    | .breakLoop _ => return .broke
    | .function decl => do
      let f ← newFunction ⟨decl, (← get).env, false⟩
      define decl.name.lexeme f
      return .normal
    | .returnWith _ value => do
      match value with
      | some e => return .returned (← evaluate host n e)
      | none => return .returned .nil
    | .classDecl name superclass methods => do
      define name.lexeme .nil
      let parent ← match superclass with
        | none => pure none
        | some e => do
          match ← evaluate host n e with
          | .classDef c => pure (some c)
          | _ => fail (superclassToken name e) .superclassNotClass
      defineClass name parent methods
      return .normal
    | .execute keyword path => do
      match ← evaluate host n path with
      | .string path =>
        load host n keyword path
        return .normal
      | _ => fail keyword .pathNotString

/-- Statements in order, up to the first that does not end normally. -/
def executeAll (host : Host) : Nat → List Stmt → Eval Flow
  | 0, _ => throw .exhausted
  | _ + 1, [] => return .normal
  | n + 1, s :: rest => do
    match ← execute host n s with
    | .normal => executeAll host n rest
    | flow => return flow

def repeatWhile (host : Host) : Nat → Expr → Stmt → Eval Flow
  | 0, _, _ => throw .exhausted
  | n + 1, cond, body => do
    if (← evaluate host n cond).truthy then
      match ← execute host n body with
      | .normal => repeatWhile host n cond body
      | .broke => return .normal
      | .returned v => return .returned v
    else return .normal

/-- Runs the script that a path stands for. -/
def load (host : Host) : Nat → Token → String → Eval Unit
  | 0, _, _ => throw .exhausted
  | n + 1, keyword, path =>
    match host.loader with
    | .absent => fail keyword .noLoader
    | .custom f => fun m =>
      match f path m with
      | (.ok (), m) => .ok () m
      | (.error e, m) => .error (.failed e) m
    | .files => do
      request path
      interpret host n (← readScript host path)

/-- Runs a program among the globals and flushes the output. -/
def interpret (host : Host) : Nat → List Stmt → Eval Unit
  | 0, _ => throw .exhausted
  | n + 1, program =>
    flushing (inEnv Machine.globals (discard (executeAll host n program)))

end

end Lox
