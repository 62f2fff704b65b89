import Lox.Proofs.Endings
import Lox.Session

/-!
# Relations that all runs keep

A relation between computations may hold of every single step, and of what is composed of related computations. Then
it holds between the runs of one piece of a program, to any two depths: this is proved once here, one construct after
another. A property of computations counts as a relation of which one side is left out.
-/

namespace Lox

/-! ## Operators -/

/-- Neither a function nor a class nor an object. -/
def Value.isPlain : Value → Bool
  | .function _ _ | .classDef _ | .object _ _ => false
  | _ => true

/-- A computation that gives a plain value or fails, and leaves the machine alone. -/
inductive Eval.Settled : Eval Value → Prop
  | value {v : Value} : v.isPlain = true → Settled (pure v)
  | fault (t : Token) (fault : RuntimeFault) : Settled (fail t fault)

namespace Eval.Settled

theorem unaryOp (op : Token) (v : Value) : Settled (Eval.unaryOp op v) := by
  unfold Eval.unaryOp
  split
  · split
    · exact .value rfl
    · exact .fault _ _
  · exact .value rfl
  · exact .fault _ _

theorem numeric (op : Token) (v w : Value) {f : Float → Float → Value} (hf : ∀ x y, (f x y).isPlain = true) :
    Settled (Eval.numeric op v w f) := by
  unfold Eval.numeric
  split
  · exact .value (hf _ _)
  · exact .fault _ _

theorem plus (op : Token) (v w : Value) : Settled (Eval.add op v w) := by
  unfold Eval.add
  split
  case h_4 => exact .fault _ _
  all_goals exact .value rfl

theorem binaryOp (op : Token) (v w : Value) : Settled (Eval.binaryOp op v w) := by
  unfold Eval.binaryOp
  split
  case h_1 => exact plus _ _ _
  case h_9 => exact .value rfl
  case h_10 => exact .value rfl
  case h_11 => exact .fault _ _
  all_goals exact numeric _ _ _ fun _ _ => rfl

end Eval.Settled

/-! ## Single steps -/

namespace Eval

/-- What is done within the evaluation of an expression, apart from native functions. -/
inductive Step : {α : Type} → Eval α → Prop
  | pure {α : Type} (a : α) : Step (Pure.pure a : Eval α)
  | fail {α : Type} (t : Token) (fault : RuntimeFault) : Step (Eval.fail t fault : Eval α)
  | lookUp (id : Nat) (name : Token) : Step (Eval.lookUp id name)
  | assign (id : Nat) (name : Token) (v : Value) : Step (Eval.assign id name v)
  | newObject (c : Class) : Step (Eval.newObject c)
  | attach (receiver : Value) (method : Closure) : Step (Eval.attach receiver method)
  | getProperty (id : Nat) (c : Class) (name : Token) : Step (Eval.getProperty id c name)
  | setField (id : Nat) (name : Token) (v : Value) : Step (Eval.setField id name v)
  | superMethod (id : Nat) (keyword method : Token) : Step (Eval.superMethod id keyword method)

/-- What a call or a statement does besides. -/
inductive Act : {α : Type} → Eval α → Prop
  | extend (outer : Env) (frame : Frame) : Act (Eval.extend outer frame)
  | scope : Act (do Eval.extend (← get).env [])
  | result (paren : Token) (f : Closure) (flow : Flow) : Act (
      if f.isInitializer then do
        match (← get).frames.getAt? f.env 0 "this" with
        | some receiver => return receiver
        | none => Eval.fail paren .unboundInitializer
      else return flow.result : Eval Value)
  | define (name : String) (v : Value) : Act (Eval.define name v)
  | function (decl : Routine) : Act (do newFunction ⟨decl, (← get).env, false⟩)
  | defineClass (name : Token) (parent : Option Class) (methods : List Routine) :
      Act (Eval.defineClass name parent methods)
  | writeLine (s : String) : Act (Eval.writeLine s)

/-- A relation that holds of what evaluations are made of. -/
structure Relates (R : {α : Type} → Eval α → Eval α → Prop) (first second : Host) : Prop where
  step {α : Type} {p : Eval α} : Step p → R p p
  bind {α β : Type} {p q : Eval α} {f g : α → Eval β} : R p q → (∀ a, R (f a) (g a)) → R (p >>= f) (q >>= g)
  native (paren : Token) (f : Native) (args : List Value) :
    R (callNative first paren f args) (callNative second paren f args)

/-- A relation that holds of what runs are made of. -/
structure RelatesAll (R : {α : Type} → Eval α → Eval α → Prop) (first second : Host) : Prop
    extends Relates R first second where
  act {α : Type} {p : Eval α} : Act p → R p p
  inEnv {α : Type} {p q : Eval α} (env : Env) : R p q → R (Eval.inEnv env p) (Eval.inEnv env q)

section

variable {R : {α : Type} → Eval α → Eval α → Prop} {first second : Host} (hr : Relates R first second)
include hr

theorem Relates.settled {p : Eval Value} (h : Settled p) : R p p := by
  cases h with
  | value _ => exact hr.step (.pure _)
  | fault t fault => exact hr.step (.fail t fault)

omit hr in
theorem Relates.ite {α : Type} {c : Prop} [Decidable c] {p q p' q' : Eval α} (hp : R p p') (hq : R q q') :
    R (if c then p else q) (if c then p' else q') := by
  split
  · exact hp
  · exact hq

end
end Eval

open Eval

/-! ## Runs -/

/-- Evaluations to depth `n` are related to those to depth `k`. -/
structure EvaluationsRelate (R : {α : Type} → Eval α → Eval α → Prop) (first second : Host) (n k : Nat) : Prop where
  evaluate (e : Expr) : R (evaluate first n e) (evaluate second k e)
  evaluateAll (es : List Expr) : R (evaluateAll first n es) (evaluateAll second k es)
  call (paren : Token) (f : Value) (args : List Value) : R (call first n paren f args) (call second k paren f args)
  callClosure (paren : Token) (f : Closure) (args : List Value) :
    R (callClosure first n paren f args) (callClosure second k paren f args)

/-- So are runs, but for those of whole programs. -/
structure RunsRelate (R : {α : Type} → Eval α → Eval α → Prop) (first second : Host) (n k : Nat) : Prop
    extends EvaluationsRelate R first second n k where
  execute (s : Stmt) : R (execute first n s) (execute second k s)
  executeAll (ss : List Stmt) : R (executeAll first n ss) (executeAll second k ss)
  repeatWhile (cond : Expr) (body : Stmt) : R (repeatWhile first n cond body) (repeatWhile second k cond body)
  load (keyword : Token) (path : String) : R (load first n keyword path) (load second k keyword path)

variable {R : {α : Type} → Eval α → Eval α → Prop} {first second : Host} {n k : Nat}

namespace EvaluationsRelate

variable (hr : Relates R first second) (ih : EvaluationsRelate R first second n k)
include hr ih

theorem next_evaluate (e : Expr) : R (Lox.evaluate first (n + 1) e) (Lox.evaluate second (k + 1) e) := by
  cases e with
  | literal v => exact hr.step (.pure _)
  | group e => exact ih.evaluate e
  | unary op right => exact hr.bind (ih.evaluate right) fun _ => hr.settled (.unaryOp _ _)
  | binary left op right =>
    exact hr.bind (ih.evaluate left) fun _ => hr.bind (ih.evaluate right) fun _ => hr.settled (.binaryOp _ _ _)
  | logical left op right =>
    exact hr.bind (ih.evaluate left) fun _ => Relates.ite (hr.step (.pure _)) (ih.evaluate right)
  | var id name => exact hr.step (.lookUp id name)
  | assign id name value =>
    exact hr.bind (ih.evaluate value) fun v => hr.bind (hr.step (.assign id name v)) fun _ => hr.step (.pure v)
  | call callee paren args =>
    refine hr.bind (ih.evaluate callee) fun f => hr.bind (ih.evaluateAll args) fun args => ?_
    cases f.callable? with
    | none => exact hr.step (.fail _ _)
    | some c => exact Relates.ite (ih.call paren f args) (hr.step (.fail _ _))
  | get object name =>
    refine hr.bind (ih.evaluate object) fun v => ?_
    cases v with
    | object id c => exact hr.step (.getProperty id c name)
    | _ => exact hr.step (.fail _ _)
  | set object name value =>
    refine hr.bind (ih.evaluate object) fun v => ?_
    cases v with
    | object id c =>
      exact hr.bind (ih.evaluate value) fun v => hr.bind (hr.step (.setField id name v)) fun _ => hr.step (.pure v)
    | _ => exact hr.step (.fail _ _)
  | thisRef id keyword => exact hr.step (.lookUp id keyword)
  | superRef id keyword method => exact hr.step (.superMethod id keyword method)

theorem next_evaluateAll (es : List Expr) :
    R (Lox.evaluateAll first (n + 1) es) (Lox.evaluateAll second (k + 1) es) := by
  cases es with
  | nil => exact hr.step (.pure _)
  | cons e rest => exact hr.bind (ih.evaluate e) fun _ => hr.bind (ih.evaluateAll rest) fun _ => hr.step (.pure _)

theorem next_call (paren : Token) (f : Value) (args : List Value) :
    R (Lox.call first (n + 1) paren f args) (Lox.call second (k + 1) paren f args) := by
  cases f with
  | native f => exact hr.native paren f args
  | function id f => exact ih.callClosure paren f args
  | classDef c =>
    refine hr.bind (hr.step (.newObject c)) fun receiver => ?_
    cases c.initializer? with
    | none => exact hr.step (.pure _)
    | some init =>
      exact hr.bind (hr.step (.attach _ _)) fun _ => hr.bind (ih.callClosure _ _ _) fun _ => hr.step (.pure _)
  | _ => exact hr.step (.fail _ _)

end EvaluationsRelate

namespace RunsRelate

variable (hr : RelatesAll R first second) (ih : RunsRelate R first second n k)
include hr ih

theorem next_callClosure (paren : Token) (f : Closure) (args : List Value) :
    R (Lox.callClosure first (n + 1) paren f args) (Lox.callClosure second (k + 1) paren f args) :=
  hr.bind (hr.act (.extend _ _)) fun env =>
    hr.bind (hr.inEnv env (ih.executeAll f.decl.body)) fun flow => hr.act (.result paren f flow)

theorem next_execute (s : Stmt) : R (Lox.execute first (n + 1) s) (Lox.execute second (k + 1) s) := by
  have hlast {p q : Eval Unit} (h : R p q) : R (do p; return Flow.normal) (do q; return Flow.normal) :=
    hr.bind h fun _ => hr.step (.pure _)
  cases s with
  | expr e => exact hr.bind (ih.evaluate e) fun _ => hr.step (.pure _)
  | print e => exact hr.bind (ih.evaluate e) fun v => hlast (hr.act (.writeLine v.text))
  | varDecl name init =>
    cases init with
    | none => exact hr.bind (hr.step (.pure _)) fun v => hlast (hr.act (.define _ v))
    | some e => exact hr.bind (ih.evaluate e) fun v => hlast (hr.act (.define _ v))
  | block body =>
    have hscope := hr.bind (hr.act .scope) fun env => hr.inEnv env (ih.executeAll body)
    rwa [bind_assoc, bind_assoc] at hscope
  | branch cond yes no =>
    refine hr.bind (ih.evaluate cond) fun v => Relates.ite (ih.execute yes) ?_
    cases no with
    | none => exact hr.step (.pure _)
    | some no => exact ih.execute no
  | loop cond body => exact ih.repeatWhile cond body
  | breakLoop keyword => exact hr.step (.pure _)
  | function decl =>
    have hfunction := hr.bind (hr.act (.function decl)) fun f => hlast (hr.act (.define decl.name.lexeme f))
    rwa [bind_assoc] at hfunction
  | returnWith keyword value =>
    cases value with
    | none => exact hr.step (.pure _)
    | some e => exact hr.bind (ih.evaluate e) fun _ => hr.step (.pure _)
  | classDecl name superclass methods =>
    refine hr.bind (hr.act (.define _ _)) fun _ => ?_
    have hclass parent := hlast (hr.act (.defineClass name parent methods))
    cases superclass with
    | none => exact hr.bind (hr.step (.pure _)) hclass
    | some e =>
      refine hr.bind (ih.evaluate e) fun v => ?_
      cases v with
      | classDef c => exact hr.bind (hr.step (.pure _)) hclass
      | _ => exact hr.bind (hr.step (.fail _ _)) hclass
  | execute keyword path =>
    refine hr.bind (ih.evaluate path) fun v => ?_
    cases v with
    | string path => exact hlast (ih.load keyword path)
    | _ => exact hr.step (.fail _ _)

theorem next_executeAll (ss : List Stmt) :
    R (Lox.executeAll first (n + 1) ss) (Lox.executeAll second (k + 1) ss) := by
  cases ss with
  | nil => exact hr.step (.pure _)
  | cons s rest =>
    refine hr.bind (ih.execute s) fun flow => ?_
    cases flow with
    | normal => exact ih.executeAll rest
    | broke => exact hr.step (.pure _)
    | returned v => exact hr.step (.pure _)

theorem next_repeatWhile (cond : Expr) (body : Stmt) :
    R (Lox.repeatWhile first (n + 1) cond body) (Lox.repeatWhile second (k + 1) cond body) := by
  refine hr.bind (ih.evaluate cond) fun v => Relates.ite (hr.bind (ih.execute body) fun flow => ?_) (hr.step (.pure _))
  cases flow with
  | normal => exact ih.repeatWhile cond body
  | broke => exact hr.step (.pure _)
  | returned v => exact hr.step (.pure _)

/-- Scripts are loaded in different ways, and it remains to look at those. -/
theorem next (hload : ∀ keyword path, R (Lox.load first (n + 1) keyword path) (Lox.load second (k + 1) keyword path)) :
    RunsRelate R first second (n + 1) (k + 1) where
  evaluate := ih.next_evaluate hr.toRelates
  evaluateAll := ih.next_evaluateAll hr.toRelates
  call := ih.next_call hr.toRelates
  callClosure := ih.next_callClosure hr
  execute := ih.next_execute hr
  executeAll := ih.next_executeAll hr
  repeatWhile := ih.next_repeatWhile hr
  load := hload

end RunsRelate
end Lox
