import Lox.Proofs.Related

/-!
# What runs may do

`Effects` say how a machine may change and with which errors a computation may fail. If every single step
keeps to them, so does every run, of any program to any depth: this is proved once here, by induction on
the depth, and a property of all runs is then a matter of its single steps.
-/

namespace Lox
open Ending

theorem Eval.define_nil {m : Machine} (h : m.env = []) (name : String) (v : Value) :
    Eval.define name v m = .ok () m := by
  unfold Eval.define
  rw [h]

theorem Eval.define_cons {m : Machine} {i : Nat} {outer : Env} (h : m.env = i :: outer) (name : String) (v : Value) :
    Eval.define name v m = .ok () { m with frames := m.frames.define i name v } := by
  unfold Eval.define
  rw [h]

/-! ## Single steps and what is composed of them -/

/-- Which changes of the machine and which errors there may be. -/
structure Effects where
  change : Machine → Machine → Prop
  error : Error → Prop

namespace Effects

variable {α β : Type}

/-- However the computation ends, it has changed the machine so, and failed so if it failed. -/
def Bound (fx : Effects) (m : Machine) : EStateM.Result Stop Machine α → Prop
  | .ok _ m' => fx.change m m'
  | .error (.failed e) m' => fx.change m m' ∧ fx.error e
  | .error .exhausted m' => fx.change m m'

def Bounds (fx : Effects) (act : Eval α) : Prop := ∀ m, fx.Bound m (act m)

/-- The single steps, with those of the host, keep to the effects. -/
structure Allow (fx : Effects) (host : Host) : Prop where
  refl (m : Machine) : fx.change m m
  trans {m₁ m₂ m₃ : Machine} : fx.change m₁ m₂ → fx.change m₂ m₃ → fx.change m₁ m₃
  /-- What is done in another environment counts as done in this one. -/
  inEnv {m m' : Machine} (env : Env) :
    fx.change { m with env := env } m' → fx.change m { m' with env := m.env }
  define (m : Machine) (i : Nat) (name : String) (v : Value) :
    fx.change m { m with frames := m.frames.define i name v }
  add (m : Machine) (frame : Frame) : fx.change m { m with frames := m.frames.add frame }
  setField (m : Machine) (id : Nat) (name : String) (v : Value) :
    fx.change m { m with objects := m.objects.modify id (·.insert name v) }
  newObject (m : Machine) : fx.change m { m with objects := m.objects.push [] }
  newRef (m : Machine) : fx.change m { m with nextRef := m.nextRef + 1 }
  write (m : Machine) (s : String) : fx.change m { m with output := (m.output.write s).2 }
  flush (m : Machine) : fx.change m { m with output := m.output.flush.2 }
  tick (m : Machine) : fx.change m { m with ticks := m.ticks + 1 }
  request (m : Machine) (path : String) :
    fx.change m { m with requested := m.requested ++ [path] }
  compile (m : Machine) (source : String) : fx.change m (m.compile source).2
  queue {m m' : Machine} {source : String} {program : List Stmt} {warnings : List Warning} :
    m.compile source = (.ok (program, warnings), m') → fx.change m' (m'.queueWarnings warnings)
  runtime (t : Token) (fault : RuntimeFault) : fx.error (.runtimeAt t fault)
  refused (reason : String) : fx.error (.io (.custom reason))
  unreadable (path : String) (fault : IoFault) : fx.error (.script path [.io fault])
  script (m : Machine) (path source : String) {es : List Error} :
    (m.compile source).1 = .error es → fx.error (.script path es)
  loader {load : String → Machine → Except Error Unit × Machine} (path : String) (m : Machine) :
    host.loader = .custom load →
      fx.change m (load path m).2 ∧ ∀ e, (load path m).1 = .error e → fx.error e

namespace Bounds

variable {fx : Effects} {host : Host} (ha : fx.Allow host)
include ha

/-! ## Composed computations -/

theorem pure (a : α) : fx.Bounds (Pure.pure a : Eval α) := fun m => ha.refl m

theorem exhausted : fx.Bounds (throw .exhausted : Eval α) := fun m => ha.refl m

theorem fail (t : Token) (fault : RuntimeFault) : fx.Bounds (Eval.fail t fault : Eval α) :=
  fun m => ⟨ha.refl m, ha.runtime t fault⟩

theorem get : fx.Bounds (MonadState.get : Eval Machine) := fun m => ha.refl m

theorem after {m m' : Machine} (h : fx.change m m') {r : EStateM.Result Stop Machine α}
    (hr : fx.Bound m' r) : fx.Bound m r := by
  cases r with
  | ok a m'' => exact ha.trans h hr
  | error e m'' =>
    cases e with
    | failed e => exact ⟨ha.trans h hr.1, hr.2⟩
    | exhausted => exact ha.trans h hr

theorem bind {p : Eval α} {f : α → Eval β} (hp : fx.Bounds p) (hf : ∀ a, fx.Bounds (f a)) :
    fx.Bounds (p >>= f) := by
  intro m
  have h := hp m
  cases hpm : p m with
  | ok a m' =>
    rw [hpm] at h
    rw [bind_ok hpm]
    exact after ha h (hf a m')
  | error e m' =>
    rw [hpm] at h
    rw [bind_error hpm]
    cases e <;> exact h

theorem discard {p : Eval α} (hp : fx.Bounds p) : fx.Bounds (Functor.discard p) :=
  bind ha hp fun _ => pure ha _

theorem inEnv (env : Env) {p : Eval α} (hp : fx.Bounds p) : fx.Bounds (Eval.inEnv env p) := by
  intro m
  have h := hp { m with env := env }
  unfold Eval.inEnv
  cases hpm : p { m with env := env } with
  | ok a m' =>
    rw [hpm] at h
    exact ha.inEnv env h
  | error e m' =>
    rw [hpm] at h
    cases e with
    | failed e => exact ⟨ha.inEnv env h.1, h.2⟩
    | exhausted => exact ha.inEnv env h

theorem flush : fx.Bounds Eval.flush := by
  intro m
  have hm := ha.flush m
  unfold Eval.flush
  split
  case h_1 sink hs =>
    rw [hs] at hm
    exact hm
  case h_2 reason sink hs =>
    rw [hs] at hm
    exact ⟨hm, ha.refused reason⟩

theorem flushing {p : Eval α} (hp : fx.Bounds p) : fx.Bounds (Eval.flushing p) := by
  intro m
  have h := hp m
  unfold Eval.flushing
  cases hpm : p m with
  | ok a m' =>
    rw [hpm] at h
    exact after ha h (bind ha (flush ha) (fun _ => pure ha a) m')
  | error e m' =>
    rw [hpm] at h
    cases e with
    | exhausted => exact h
    | failed e =>
      have ht : fx.Bounds (throw (.failed e) : Eval α) := fun m => ⟨ha.refl m, h.2⟩
      exact after ha h.1 (bind ha (flush ha) (fun _ => ht) m')

/-! ## Single steps -/

theorem extend (outer : Env) (frame : Frame) : fx.Bounds (Eval.extend outer frame) :=
  fun m => ha.add m frame

theorem define (name : String) (value : Value) : fx.Bounds (Eval.define name value) := by
  intro m
  unfold Eval.define
  split
  · exact ha.refl m
  · exact ha.define m _ name value

theorem lookUp (id : Nat) (name : Token) : fx.Bounds (Eval.lookUp id name) := by
  intro m
  unfold Eval.lookUp
  dsimp only
  split
  · exact ha.refl m
  · exact fail ha name _ m

theorem store (holder : Machine → Option Nat) (name : Token) (value : Value) :
    fx.Bounds (Eval.store holder name value) := by
  intro m
  unfold Eval.store
  split
  · exact ha.define m _ _ _
  · exact fail ha name _ m

theorem newRef : fx.Bounds Eval.newRef := fun m => ha.newRef m

theorem newFunction (f : Closure) : fx.Bounds (Eval.newFunction f) :=
  bind ha (newRef ha) fun _ => pure ha _

theorem newObject (c : Class) : fx.Bounds (Eval.newObject c) := fun m => ha.newObject m

theorem setField (id : Nat) (name : Token) (value : Value) :
    fx.Bounds (Eval.setField id name value) :=
  fun m => ha.setField m id name.lexeme value

theorem attach (receiver : Value) (method : Closure) : fx.Bounds (Eval.attach receiver method) :=
  bind ha (extend ha _ _) fun _ => pure ha _

theorem boundMethod (receiver : Value) (method : Closure) :
    fx.Bounds (do Eval.newFunction (← Eval.attach receiver method) : Eval Value) :=
  bind ha (attach ha _ _) fun f => newFunction ha f

theorem getProperty (id : Nat) (c : Class) (name : Token) :
    fx.Bounds (Eval.getProperty id c name) := by
  refine bind ha (get ha) fun m => ?_
  cases (m.fields id).get? name.lexeme with
  | some v => exact pure ha v
  | none =>
    cases c.findMethod name.lexeme with
    | some method => exact boundMethod ha _ _
    | none => exact fail ha _ _

theorem superMethod (id : Nat) (keyword method : Token) :
    fx.Bounds (Eval.superMethod id keyword method) := by
  refine bind ha (get ha) fun m => ?_
  cases m.distances[id]? with
  | none => exact fail ha _ _
  | some distance =>
    dsimp only
    split
    · split
      · split
        · exact boundMethod ha _ _
        · exact fail ha _ _
      · exact fail ha _ _
    · exact fail ha _ _

theorem defineClass (name : Token) (superclass : Option Class) (methods : List Routine) :
    fx.Bounds (Eval.defineClass name superclass methods) := by
  have henv : fx.Bounds (Eval.methodEnv superclass) := by
    cases superclass with
    | some parent => exact bind ha (get ha) fun m => extend ha _ _
    | none => exact bind ha (get ha) fun m => pure ha _
  rw [Eval.defineClass_eq]
  exact bind ha henv fun env => bind ha (newRef ha) fun ref => store ha _ _ _

theorem writeLine (s : String) : fx.Bounds (Eval.writeLine s) := by
  intro m
  have hm := ha.write m (s ++ "\n")
  unfold Eval.writeLine
  split
  case h_1 sink hs =>
    rw [hs] at hm
    exact hm
  case h_2 reason sink hs =>
    rw [hs] at hm
    exact ⟨hm, ha.refused reason⟩

theorem callNative (paren : Token) (f : Native) (args : List Value) :
    fx.Bounds (Eval.callNative host paren f args) := by
  intro m
  unfold Eval.callNative
  split
  · exact ha.tick m
  · split
    · exact fail ha _ _ m
    · split
      · exact ha.refl m
      · exact fail ha _ _ m

theorem readScript (path : String) : fx.Bounds (Eval.readScript host path) := by
  intro m
  unfold Eval.readScript
  cases host.read path with
  | error fault => exact ⟨ha.refl m, ha.unreadable path fault⟩
  | ok source =>
    have hc := ha.compile m source
    have he := @Allow.script _ _ ha m path source
    dsimp only
    cases hm : m.compile source with
    | mk result m' =>
      rw [hm] at hc he
      cases result with
      | error es => exact ⟨hc, he rfl⟩
      | ok accepted => exact ha.trans hc (ha.queue hm)

theorem custom {load : String → Machine → Except Error Unit × Machine}
    (hl : host.loader = .custom load) (path : String) :
    fx.Bounds (fun m => match load path m with
      | (.ok (), m) => .ok () m
      | (.error e, m) => .error (.failed e) m : Eval Unit) := by
  intro m
  obtain ⟨hc, he⟩ := ha.loader path m hl
  dsimp only
  cases hm : load path m with
  | mk result m' =>
    rw [hm] at hc he
    cases result with
    | ok _ => exact hc
    | error e => exact ⟨hc, he e rfl⟩

end Bounds
end Effects

/-! ## Runs -/

open Effects

theorem Effects.Allow.relatesAll {fx : Effects} {host : Host} (ha : fx.Allow host) :
    Eval.RelatesAll (fun p _ => fx.Bounds p) host host where
  step h := by
    cases h with
    | pure a => exact .pure ha a
    | fail t fault => exact .fail ha t fault
    | lookUp id name => exact .lookUp ha id name
    | assign id name v => exact .store ha _ name v
    | newObject c => exact .newObject ha c
    | attach receiver method => exact .attach ha receiver method
    | getProperty id c name => exact .getProperty ha id c name
    | setField id name v => exact .setField ha id name v
    | superMethod id keyword method => exact .superMethod ha id keyword method
  bind hp hf := .bind ha hp hf
  native paren f args := .callNative ha paren f args
  act h := by
    cases h with
    | extend outer frame => exact .extend ha outer frame
    | scope => exact .bind ha (.get ha) fun m => .extend ha m.env []
    | result paren f flow =>
      split
      · refine .bind ha (.get ha) fun m => ?_
        cases m.frames.getAt? f.env 0 "this" with
        | some receiver => exact .pure ha _
        | none => exact .fail ha _ _
      · exact .pure ha _
    | define name v => exact .define ha name v
    | function decl => exact .bind ha (.get ha) fun m => .newFunction ha _
    | defineClass name parent methods => exact .defineClass ha name parent methods
    | writeLine s => exact .writeLine ha s
  inEnv env hp := .inEnv ha env hp

/-- All runs of depth `n` keep to the effects. -/
structure RunsBounded (fx : Effects) (host : Host) (n : Nat) : Prop
    extends RunsRelate (fun p _ => fx.Bounds p) host host n n where
  interpret (program : List Stmt) : fx.Bounds (interpret host n program)

theorem RunsBounded.next_load {fx : Effects} {host : Host} {n : Nat} (ha : fx.Allow host) (ih : RunsBounded fx host n)
    (keyword : Token) (path : String) : fx.Bounds (Lox.load host (n + 1) keyword path) := by
  rw [Lox.load]
  cases hl : host.loader with
  | absent => exact .fail ha _ _
  | custom load => exact .custom ha hl path
  | files =>
    exact .bind ha (fun m => ha.request m path) fun _ => .bind ha (.readScript ha path) fun p =>
      ih.interpret p

theorem runsBounded {fx : Effects} {host : Host} (ha : fx.Allow host) (n : Nat) :
    RunsBounded fx host n := by
  induction n with
  | zero =>
    refine ⟨⟨⟨?_, ?_, ?_, ?_⟩, ?_, ?_, ?_, ?_⟩, ?_⟩ <;> intros <;> exact .exhausted ha
  | succ n ih =>
    exact ⟨ih.next ha.relatesAll (ih.next_load ha),
      fun program => .flushing ha (.inEnv ha _ (.discard ha (ih.executeAll program)))⟩

end Lox
