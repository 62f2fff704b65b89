import Lox.Proofs.Effects

/-!
# Runs in step

Two machines that agree in all that a running program works on may differ in the rest: in what was
queued, asked for or read before. If a relation between such machines is kept by every change that both
make, and by every script that both fetch, then it is kept by all runs of the same program, to any
depth, and the two runs end with the same value or the same error. This is proved once here, by induction
on the depth.
-/

namespace Lox
open Ending

/-- The machines agree in what a running program reads and changes. -/
structure Machine.Agrees (m m' : Machine) : Prop where
  frames : m'.frames = m.frames
  objects : m'.objects = m.objects
  nextRef : m'.nextRef = m.nextRef
  env : m'.env = m.env
  distances : m'.distances = m.distances
  output : m'.output = m.output
  ticks : m'.ticks = m.ticks

/-- Two computations end with the same value or for the same reason, on related machines. -/
inductive EndsAlike {α : Type} (R : Machine → Machine → Prop) :
    EStateM.Result Stop Machine α → EStateM.Result Stop Machine α → Prop
  | ok (a : α) {m m' : Machine} : R m m' → EndsAlike R (.ok a m) (.ok a m')
  | error (e : Stop) {m m' : Machine} : R m m' → EndsAlike R (.error e m) (.error e m')

/-- From related machines on, the computation ends alike. -/
def Eval.InStep {α : Type} (R : Machine → Machine → Prop) (act : Eval α) : Prop :=
  ∀ m m', R m m' → EndsAlike R (act m) (act m')

/-- Reads a script that is asked for. -/
def Eval.fetch (host : Host) (path : String) : Eval (List Stmt) := do
  request path
  readScript host path

/-- Machines that are related agree, and stay related in all that a host lets them do. -/
structure Lockstep (host : Host) (R : Machine → Machine → Prop) : Prop where
  agrees {m m' : Machine} : R m m' → m.Agrees m'
  frames {m m' : Machine} (frames : Frames) :
    R m m' → R { m with frames := frames } { m' with frames := frames }
  objects {m m' : Machine} (objects : Array (Table Value)) :
    R m m' → R { m with objects := objects } { m' with objects := objects }
  nextRef {m m' : Machine} (nextRef : Nat) :
    R m m' → R { m with nextRef := nextRef } { m' with nextRef := nextRef }
  env {m m' : Machine} (env : Env) : R m m' → R { m with env := env } { m' with env := env }
  output {m m' : Machine} (output : Sink) :
    R m m' → R { m with output := output } { m' with output := output }
  ticks {m m' : Machine} (ticks : Nat) :
    R m m' → R { m with ticks := ticks } { m' with ticks := ticks }
  native {m m' : Machine} : R m m' → ∀ f ∈ host.functions, ∀ args, f.run m' args = f.run m args
  fetch (path : String) : Eval.InStep R (Eval.fetch host path)
  loader (load : String → Machine → Except Error Unit × Machine) : host.loader ≠ .custom load

namespace Eval.InStep

variable {α β : Type} {R : Machine → Machine → Prop}

/-! ## Composed computations -/

theorem pure (a : α) : InStep R (Pure.pure a : Eval α) := fun _ _ h => .ok a h

theorem throw (e : Stop) : InStep R (MonadExcept.throw e : Eval α) := fun _ _ h => .error e h

theorem fail (t : Token) (fault : RuntimeFault) : InStep R (Eval.fail t fault : Eval α) := throw _

theorem bind {p : Eval α} {f : α → Eval β} (hp : InStep R p) (hf : ∀ a, InStep R (f a)) :
    InStep R (p >>= f) := by
  intro m m' h
  have hend := hp m m' h
  cases hm : p m with
  | ok a m₁ =>
    cases hm' : p m' with
    | ok a' m₁' =>
      rw [hm, hm'] at hend
      cases hend with
      | ok _ h₁ =>
        rw [bind_ok hm, bind_ok hm']
        exact hf a m₁ m₁' h₁
    | error e m₁' =>
      rw [hm, hm'] at hend
      cases hend
  | error e m₁ =>
    cases hm' : p m' with
    | ok a' m₁' =>
      rw [hm, hm'] at hend
      cases hend
    | error e' m₁' =>
      rw [hm, hm'] at hend
      cases hend with
      | error _ h₁ =>
        rw [bind_error hm, bind_error hm']
        exact .error e h₁

theorem discard {p : Eval α} (hp : InStep R p) : InStep R (Functor.discard p) :=
  bind hp fun _ => pure _

variable {host : Host} (hl : Lockstep host R)
include hl

/-- Looks at the machines only in what they agree in. -/
theorem get_bind {f : Machine → Eval α} (hf : ∀ m, InStep R (f m))
    (hagree : ∀ m m', m.Agrees m' → f m' = f m) : InStep R (get >>= f) := by
  intro m m' h
  rw [bind_ok (Ending.get_apply (s := m)), bind_ok (Ending.get_apply (s := m'))]
  rw [hagree m m' (hl.agrees h)]
  exact hf m m m' h

theorem inEnv (env : Env) {p : Eval α} (hp : InStep R p) : InStep R (Eval.inEnv env p) := by
  intro m m' h
  have hend := hp _ _ (hl.env env h)
  unfold Eval.inEnv
  rw [(hl.agrees h).env]
  dsimp only
  generalize p { m with env := env } = r at hend ⊢
  generalize p { m' with env := env } = r' at hend ⊢
  cases hend with
  | ok a h₁ => exact .ok a (hl.env m.env h₁)
  | error e h₁ => exact .error e (hl.env m.env h₁)

theorem flush : InStep R Eval.flush := by
  intro m m' h
  unfold Eval.flush
  rw [(hl.agrees h).output]
  split
  · exact .ok () (hl.output _ h)
  · exact .error _ (hl.output _ h)

theorem flushing {p : Eval α} (hp : InStep R p) : InStep R (Eval.flushing p) := by
  intro m m' h
  have hend := hp m m' h
  unfold Eval.flushing
  generalize p m = r at hend ⊢
  generalize p m' = r' at hend ⊢
  cases hend with
  | ok a h₁ => exact bind (flush hl) (fun _ => pure a) _ _ h₁
  | error e h₁ =>
    cases e with
    | failed e => exact bind (flush hl) (fun _ => throw (.failed e)) _ _ h₁
    | exhausted => exact .error _ h₁

/-! ## Single steps -/

theorem extend (outer : Env) (frame : Frame) : InStep R (Eval.extend outer frame) := by
  intro m m' h
  unfold Eval.extend
  rw [(hl.agrees h).frames]
  exact .ok _ (hl.frames _ h)

theorem define (name : String) (value : Value) : InStep R (Eval.define name value) := by
  intro m m' h
  have ha := hl.agrees h
  unfold Eval.define
  rw [ha.frames]
  split
  case h_1 hnil =>
    split
    case h_1 => exact .ok () h
    case h_2 hcons => cases hnil.symm.trans (ha.env.symm.trans hcons)
  case h_2 i rest hcons =>
    split
    case h_1 hnil => cases hcons.symm.trans (ha.env.symm.trans hnil)
    case h_2 hcons' =>
      cases hcons.symm.trans (ha.env.symm.trans hcons')
      exact .ok () (hl.frames _ h)

theorem lookUp (id : Nat) (name : Token) : InStep R (Eval.lookUp id name) := by
  intro m m' h
  unfold Eval.lookUp
  rw [(hl.agrees h).env, (hl.agrees h).frames, (hl.agrees h).distances]
  dsimp only
  split
  · exact .ok _ h
  · exact fail _ _ m m' h

theorem store {holder : Machine → Option Nat} (hh : ∀ m m', m.Agrees m' → holder m' = holder m)
    (name : Token) (value : Value) : InStep R (Eval.store holder name value) := by
  intro m m' h
  unfold Eval.store
  rw [hh m m' (hl.agrees h), (hl.agrees h).frames]
  split
  · exact .ok () (hl.frames _ h)
  · exact fail _ _ m m' h

theorem assign (id : Nat) (name : Token) (value : Value) : InStep R (Eval.assign id name value) := by
  refine store hl (fun m m' ha => ?_) name value
  rw [ha.env, ha.frames, ha.distances]

theorem newRef : InStep R Eval.newRef := by
  intro m m' h
  unfold Eval.newRef
  rw [(hl.agrees h).nextRef]
  exact .ok _ (hl.nextRef _ h)

theorem newFunction (f : Closure) : InStep R (Eval.newFunction f) :=
  bind (newRef hl) fun _ => pure _

theorem newObject (c : Class) : InStep R (Eval.newObject c) := by
  intro m m' h
  unfold Eval.newObject
  rw [(hl.agrees h).objects]
  exact .ok _ (hl.objects _ h)

theorem setField (id : Nat) (name : Token) (value : Value) :
    InStep R (Eval.setField id name value) := by
  intro m m' h
  unfold Eval.setField
  rw [(hl.agrees h).objects]
  exact .ok () (hl.objects _ h)

theorem attach (receiver : Value) (method : Closure) : InStep R (Eval.attach receiver method) :=
  bind (extend hl _ _) fun _ => pure _

theorem getProperty (id : Nat) (c : Class) (name : Token) :
    InStep R (Eval.getProperty id c name) := by
  refine get_bind hl (fun m => ?_) fun m m' ha => by rw [Machine.fields, Machine.fields, ha.objects]
  cases (m.fields id).get? name.lexeme with
  | some v => exact pure v
  | none =>
    cases c.findMethod name.lexeme with
    | some method => exact bind (attach hl _ _) fun f => newFunction hl f
    | none => exact fail _ _

theorem superMethod (id : Nat) (keyword method : Token) :
    InStep R (Eval.superMethod id keyword method) := by
  refine get_bind hl (fun m => ?_) fun m m' ha => by rw [ha.distances, ha.frames, ha.env]
  cases m.distances[id]? with
  | none => exact fail _ _
  | some distance =>
    dsimp only
    split
    · split
      · split
        · exact bind (attach hl _ _) fun f => newFunction hl f
        · exact fail _ _
      · exact fail _ _
    · exact fail _ _

theorem methodEnv (superclass : Option Class) : InStep R (Eval.methodEnv superclass) := by
  cases superclass with
  | some parent =>
    exact get_bind hl (fun m => extend hl _ _) fun m m' ha => by rw [ha.env]
  | none => exact get_bind hl (fun m => pure _) fun m m' ha => by rw [ha.env]

theorem defineClass (name : Token) (superclass : Option Class) (methods : List Routine) :
    InStep R (Eval.defineClass name superclass methods) := by
  rw [Eval.defineClass_eq]
  refine bind (methodEnv hl superclass) fun env => bind (newRef hl) fun ref => ?_
  exact store hl (fun m m' ha => by rw [ha.frames, ha.env]) _ _

theorem writeLine (s : String) : InStep R (Eval.writeLine s) := by
  intro m m' h
  unfold Eval.writeLine
  rw [(hl.agrees h).output]
  split
  · exact .ok () (hl.output _ h)
  · exact .error _ (hl.output _ h)

theorem callNative (paren : Token) (f : Native) (args : List Value) :
    InStep R (Eval.callNative host paren f args) := by
  intro m m' h
  unfold Eval.callNative
  rw [(hl.agrees h).ticks]
  split
  · exact .ok _ (hl.ticks _ h)
  · next slot =>
    split
    · exact fail _ _ m m' h
    · next g hg =>
      rw [hl.native h g (List.mem_of_getElem? hg)]
      split
      · exact .ok _ h
      · exact fail _ _ m m' h

end Eval.InStep

/-! ## Runs -/

open Eval

theorem Lockstep.relatesAll {R : Machine → Machine → Prop} {host : Host} (hl : Lockstep host R) :
    RelatesAll (fun p _ => InStep R p) host host where
  step h := by
    cases h with
    | pure a => exact .pure a
    | fail t fault => exact .fail t fault
    | lookUp id name => exact .lookUp hl id name
    | assign id name v => exact .assign hl id name v
    | newObject c => exact .newObject hl c
    | attach receiver method => exact .attach hl receiver method
    | getProperty id c name => exact .getProperty hl id c name
    | setField id name v => exact .setField hl id name v
    | superMethod id keyword method => exact .superMethod hl id keyword method
  bind hp hf := .bind hp hf
  native paren f args := .callNative hl paren f args
  act h := by
    cases h with
    | extend outer frame => exact .extend hl outer frame
    | scope => exact .get_bind hl (fun m => .extend hl _ _) fun m m' ha => by rw [ha.env]
    | result paren f flow =>
      split
      · refine .get_bind hl (fun m => ?_) fun m m' ha => by rw [ha.frames]
        cases m.frames.getAt? f.env 0 "this" with
        | some receiver => exact .pure _
        | none => exact .fail _ _
      · exact .pure _
    | define name v => exact .define hl name v
    | function decl => exact .get_bind hl (fun m => .newFunction hl _) fun m m' ha => by rw [ha.env]
    | defineClass name parent methods => exact .defineClass hl name parent methods
    | writeLine s => exact .writeLine hl s
  inEnv env hp := .inEnv hl env hp

/-- All runs of depth `n` are in step. -/
structure RunsInStep (R : Machine → Machine → Prop) (host : Host) (n : Nat) : Prop
    extends RunsRelate (fun p _ => InStep R p) host host n n where
  interpret (program : List Stmt) : InStep R (interpret host n program)

theorem RunsInStep.next_load {R : Machine → Machine → Prop} {host : Host} {n : Nat} (hl : Lockstep host R)
    (ih : RunsInStep R host n) (keyword : Token) (path : String) :
    InStep R (Lox.load host (n + 1) keyword path) := by
  rw [Lox.load]
  cases hload : host.loader with
  | absent => exact .fail _ _
  | custom load => exact absurd hload (hl.loader load)
  | files =>
    have hfetch := InStep.bind (hl.fetch path) fun program => ih.interpret program
    rwa [Eval.fetch, bind_assoc] at hfetch

theorem runsInStep {R : Machine → Machine → Prop} {host : Host} (hl : Lockstep host R) (n : Nat) :
    RunsInStep R host n := by
  induction n with
  | zero => refine ⟨⟨⟨?_, ?_, ?_, ?_⟩, ?_, ?_, ?_, ?_⟩, ?_⟩ <;> intros <;> exact .throw _
  | succ n ih =>
    exact ⟨ih.next hl.relatesAll (ih.next_load hl),
      fun program => .flushing hl (.inEnv hl _ (.discard (ih.executeAll program)))⟩

end Lox
