import Lox.Proofs.Scope.Trace

/-!
# The log is only a log

Without its log, a run with a log is the run that the machine makes.
-/

namespace Lox
namespace Trace
open Ending

variable {α β : Type}

def erase : EStateM.Result Stop State α → EStateM.Result Stop Machine α
  | .ok a s => .ok a s.machine
  | .error e s => .error e s.machine

/-- Apart from the log, `p` does what `q` does. -/
def Erases (p : Traced α) (q : Eval α) : Prop := ∀ s, erase (p s) = q s.machine

namespace Erases

theorem pure (a : α) : Erases (Pure.pure a) (Pure.pure a) := fun _ => rfl

theorem throw (e : Stop) : Erases (MonadExcept.throw e : Traced α) (MonadExcept.throw e) :=
  fun _ => rfl

theorem lift (act : Eval α) : Erases (Trace.lift act) act := by
  intro s
  unfold Trace.lift
  cases act s.machine <;> rfl

theorem bind {p : Traced α} {q : Eval α} {f : α → Traced β} {g : α → Eval β} (hp : Erases p q)
    (hf : ∀ a, Erases (f a) (g a)) : Erases (p >>= f) (q >>= g) := by
  intro s
  have h := hp s
  cases hps : p s with
  | ok a s₁ =>
    rw [hps] at h
    rw [bind_ok hps, bind_ok h.symm]
    exact hf a s₁
  | error e s₁ =>
    rw [hps] at h
    rw [bind_error hps, bind_error h.symm]
    rfl

theorem note (event : Machine → Event) {p : Traced α} {q : Eval α} (hp : Erases p q) :
    Erases (do Trace.note event; p) q :=
  fun _ => hp _

theorem discard {p : Traced α} {q : Eval α} (hp : Erases p q) :
    Erases (Functor.discard p) (Functor.discard q) :=
  hp.bind fun _ => .pure _

theorem inEnv (env : Env) {p : Traced α} {q : Eval α} (hp : Erases p q) :
    Erases (Trace.inEnv env p) (Eval.inEnv env q) := by
  intro s
  have h := hp { s with machine := { s.machine with env := env } }
  unfold Trace.inEnv Eval.inEnv
  rw [← h]
  cases p { s with machine := { s.machine with env := env } } <;> rfl

theorem flushing {p : Traced α} {q : Eval α} (hp : Erases p q) :
    Erases (Trace.flushing p) (Eval.flushing q) := by
  intro s
  have h := hp s
  unfold Trace.flushing Eval.flushing
  rw [← h]
  cases p s with
  | ok a s₁ => exact ((Erases.lift Eval.flush).bind fun _ => .pure a) s₁
  | error e s₁ =>
    cases e with
    | failed e => exact ((Erases.lift Eval.flush).bind fun _ => .throw (.failed e)) s₁
    | exhausted => rfl

theorem extend (site : Scoping.Site) (outer : Env) (frame : Frame) :
    Erases (Trace.extend site outer frame) (Eval.extend outer frame) :=
  .note _ (.lift _)

theorem lookUp (ref : Scoping.Reference) : Erases (Trace.lookUp ref) (Eval.lookUp ref.id ref.name) :=
  .note _ (.lift _)

theorem assign (ref : Scoping.Reference) (value : Value) :
    Erases (Trace.assign ref value) (Eval.assign ref.id ref.name value) :=
  .note _ (.lift _)

theorem attach (receiver : Value) (method : Closure) :
    Erases (Trace.attach receiver method) (Eval.attach receiver method) :=
  (Erases.extend _ _ _).bind fun _ => .pure _

theorem getProperty (id : Nat) (c : Class) (name : Token) :
    Erases (Trace.getProperty id c name) (Eval.getProperty id c name) := by
  refine (Erases.lift get).bind fun m => ?_
  cases (m.fields id).get? name.lexeme with
  | some v => exact .pure v
  | none =>
    cases c.findMethod name.lexeme with
    | some method => exact (Erases.attach _ _).bind fun f => .lift _
    | none => exact .lift _

theorem superMethod (id : Nat) (keyword method : Token) :
    Erases (Trace.superMethod id keyword method) (Eval.superMethod id keyword method) := by
  refine .note _ ((Erases.lift get).bind fun m => ?_)
  cases m.distances[id]? with
  | none => exact .lift _
  | some distance =>
    dsimp only
    cases m.frames.getAt? m.env distance "super" with
    | none => exact .lift _
    | some v =>
      cases v with
      | classDef parent =>
        dsimp only
        cases m.frames.getAt? m.env (distance - 1) "this" with
        | none => exact .lift _
        | some v =>
          cases v with
          | object id c =>
            cases parent.findMethod method.lexeme with
            | none => exact .lift _
            | some f => exact (Erases.attach _ _).bind fun f => .lift _
          | _ => exact .lift _
      | _ => exact .lift _

theorem methodEnv (superclass : Option Class) (methods : List Routine) :
    Erases (Trace.methodEnv superclass methods) (Eval.methodEnv superclass) := by
  cases superclass with
  | some parent => exact (Erases.lift get).bind fun m => .extend _ _ _
  | none => exact (Erases.lift get).bind fun m => .pure _

theorem defineClass (name : Token) (superclass : Option Class) (methods : List Routine) :
    Erases (Trace.defineClass name superclass methods) (Eval.defineClass name superclass methods) := by
  rw [Eval.defineClass_eq]
  exact (Erases.methodEnv _ _).bind fun _ => (Erases.lift _).bind fun _ => .lift _

theorem readScript (host : Host) (path : String) :
    Erases (Trace.readScript host path) (Eval.readScript host path) := by
  intro s
  show erase ((Trace.lift (Eval.readScript host path) >>= fun program =>
    (do Trace.note fun _ => .accepted program s.machine.distances; return program)) s) = _
  have h := Erases.lift (Eval.readScript host path) s
  cases hs : Trace.lift (Eval.readScript host path) s with
  | ok a s₁ =>
    rw [hs] at h
    rw [bind_ok hs, ← h]
    rfl
  | error e s₁ =>
    rw [hs] at h
    rw [bind_error hs, ← h]

end Erases

/-- All runs of depth `n` erase. -/
structure RunsErase (host : Host) (n : Nat) : Prop where
  evaluate (e : Expr) : Erases (evaluate host n e) (Lox.evaluate host n e)
  evaluateAll (es : List Expr) : Erases (evaluateAll host n es) (Lox.evaluateAll host n es)
  call (paren : Token) (f : Value) (args : List Value) :
    Erases (call host n paren f args) (Lox.call host n paren f args)
  callClosure (paren : Token) (f : Closure) (args : List Value) :
    Erases (callClosure host n paren f args) (Lox.callClosure host n paren f args)
  execute (s : Stmt) : Erases (execute host n s) (Lox.execute host n s)
  executeAll (ss : List Stmt) : Erases (executeAll host n ss) (Lox.executeAll host n ss)
  repeatWhile (cond : Expr) (body : Stmt) :
    Erases (repeatWhile host n cond body) (Lox.repeatWhile host n cond body)
  load (keyword : Token) (path : String) :
    Erases (load host n keyword path) (Lox.load host n keyword path)
  interpret (program : List Stmt) :
    Erases (interpret host n program) (Lox.interpret host n program)

namespace RunsErase

variable {host : Host} {n : Nat}

theorem next_evaluate (ih : RunsErase host n) (e : Expr) :
    Erases (Trace.evaluate host (n + 1) e) (Lox.evaluate host (n + 1) e) := by
  cases e with
  | literal v => exact .pure _
  | group inner => exact ih.evaluate inner
  | unary op right => exact (ih.evaluate right).bind fun _ => .lift _
  | binary left op right =>
    exact (ih.evaluate left).bind fun _ => (ih.evaluate right).bind fun _ => .lift _
  | logical left op right =>
    refine (ih.evaluate left).bind fun v => ?_
    split
    · exact .pure v
    · exact ih.evaluate right
  | var id name => exact .lookUp _
  | assign id name value =>
    exact (ih.evaluate value).bind fun _ => (Erases.assign _ _).bind fun _ => .pure _
  | call callee paren args =>
    refine (ih.evaluate callee).bind fun f => (ih.evaluateAll args).bind fun args => ?_
    cases f.callable? with
    | none => exact .lift _
    | some c =>
      dsimp only
      split
      · exact ih.call paren f args
      · exact .lift _
  | get object name =>
    refine (ih.evaluate object).bind fun v => ?_
    cases v with
    | object id c => exact .getProperty id c name
    | _ => exact .lift _
  | set object name value =>
    refine (ih.evaluate object).bind fun v => ?_
    cases v with
    | object id c => exact (ih.evaluate value).bind fun _ => (Erases.lift _).bind fun _ => .pure _
    | _ => exact .lift _
  | thisRef id keyword => exact .lookUp _
  | superRef id keyword method => exact .superMethod id keyword method

theorem next_evaluateAll (ih : RunsErase host n) (es : List Expr) :
    Erases (Trace.evaluateAll host (n + 1) es) (Lox.evaluateAll host (n + 1) es) := by
  cases es with
  | nil => exact .pure _
  | cons e rest => exact (ih.evaluate e).bind fun _ => (ih.evaluateAll rest).bind fun _ => .pure _

theorem next_call (ih : RunsErase host n) (paren : Token) (f : Value) (args : List Value) :
    Erases (Trace.call host (n + 1) paren f args) (Lox.call host (n + 1) paren f args) := by
  cases f with
  | native f => exact .lift _
  | function id f => exact ih.callClosure paren f args
  | classDef c =>
    refine (Erases.lift _).bind fun receiver => ?_
    cases c.initializer? with
    | none => exact .pure _
    | some init =>
      exact (Erases.attach _ _).bind fun _ => (ih.callClosure _ _ _).bind fun _ => .pure _
  | _ =>
    simp only [Trace.call, Lox.call]
    exact .lift _

theorem next_callClosure (ih : RunsErase host n) (paren : Token) (f : Closure) (args : List Value) :
    Erases (Trace.callClosure host (n + 1) paren f args)
      (Lox.callClosure host (n + 1) paren f args) := by
  refine (Erases.extend _ _ _).bind fun env =>
    ((ih.executeAll f.decl.body).inEnv env).bind fun flow => ?_
  split
  · refine (Erases.lift get).bind fun m => ?_
    cases m.frames.getAt? f.env 0 "this" with
    | some receiver => exact .pure _
    | none => exact .lift _
  · exact .pure _

theorem next_execute (ih : RunsErase host n) (s : Stmt) :
    Erases (Trace.execute host (n + 1) s) (Lox.execute host (n + 1) s) := by
  cases s with
  | expr e => exact (ih.evaluate e).bind fun _ => .pure _
  | print e => exact (ih.evaluate e).bind fun _ => (Erases.lift _).bind fun _ => .pure _
  | varDecl name init =>
    cases init with
    | none => exact (Erases.pure _).bind fun _ => (Erases.lift _).bind fun _ => .pure _
    | some e => exact (ih.evaluate e).bind fun _ => (Erases.lift _).bind fun _ => .pure _
  | block body =>
    exact .note _ ((Erases.lift get).bind fun m => (Erases.extend _ _ _).bind fun env =>
      (ih.executeAll body).inEnv env)
  | branch cond yes no =>
    refine (ih.evaluate cond).bind fun v => ?_
    split
    · exact ih.execute yes
    · cases no with
      | none => exact .pure _
      | some no => exact ih.execute no
  | loop cond body => exact .note _ (ih.repeatWhile cond body)
  | breakLoop keyword => exact .pure _
  | function decl =>
    exact (Erases.lift get).bind fun m => (Erases.lift _).bind fun f => (Erases.lift _).bind fun _ =>
      .pure _
  | returnWith keyword value =>
    cases value with
    | none => exact .pure _
    | some e => exact (ih.evaluate e).bind fun _ => .pure _
  | classDecl name superclass methods =>
    refine (Erases.lift _).bind fun _ => ?_
    cases superclass with
    | none => exact (Erases.pure _).bind fun _ => (Erases.defineClass _ _ _).bind fun _ => .pure _
    | some e =>
      refine (ih.evaluate e).bind fun v => ?_
      cases v with
      | classDef c => exact (Erases.pure _).bind fun _ => (Erases.defineClass _ _ _).bind fun _ => .pure _
      | _ => exact (Erases.lift _).bind fun _ => (Erases.defineClass _ _ _).bind fun _ => .pure _
  | execute keyword path =>
    refine (ih.evaluate path).bind fun v => ?_
    cases v with
    | string path => exact (ih.load keyword path).bind fun _ => .pure _
    | _ => exact .lift _

theorem next_executeAll (ih : RunsErase host n) (ss : List Stmt) :
    Erases (Trace.executeAll host (n + 1) ss) (Lox.executeAll host (n + 1) ss) := by
  cases ss with
  | nil => exact .pure _
  | cons s rest =>
    refine (ih.execute s).bind fun flow => ?_
    cases flow with
    | normal => exact ih.executeAll rest
    | broke => exact .pure _
    | returned v => exact .pure _

theorem next_repeatWhile (ih : RunsErase host n) (cond : Expr) (body : Stmt) :
    Erases (Trace.repeatWhile host (n + 1) cond body)
      (Lox.repeatWhile host (n + 1) cond body) := by
  refine (ih.evaluate cond).bind fun v => ?_
  split
  · refine (ih.execute body).bind fun flow => ?_
    cases flow with
    | normal => exact ih.repeatWhile cond body
    | broke => exact .pure _
    | returned v => exact .pure _
  · exact .pure _

theorem next_load (ih : RunsErase host n) (keyword : Token) (path : String) :
    Erases (Trace.load host (n + 1) keyword path) (Lox.load host (n + 1) keyword path) := by
  simp only [Trace.load, Lox.load]
  cases host.loader with
  | absent => exact .lift _
  | custom f => exact .lift _
  | files =>
    exact (Erases.lift _).bind fun _ => (Erases.readScript host path).bind fun p => ih.interpret p

end RunsErase

theorem runsErase (host : Host) (n : Nat) : RunsErase host n := by
  induction n with
  | zero =>
    constructor <;> intros <;> exact .throw .exhausted
  | succ n ih =>
    exact
      { evaluate := ih.next_evaluate
        evaluateAll := ih.next_evaluateAll
        call := ih.next_call
        callClosure := ih.next_callClosure
        execute := ih.next_execute
        executeAll := ih.next_executeAll
        repeatWhile := ih.next_repeatWhile
        load := ih.next_load
        interpret := fun program => ((ih.executeAll program).discard.inEnv _).flushing }

end Trace
end Lox
