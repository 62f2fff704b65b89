import Lox.Proofs.Depth
import Lox.Proofs.Effects
import Lox.Proofs.Scope.Agreement

/-!
# Only declarations bind names

Frames that are there lose no name, whatever runs and however it ends. An expression gives none of them a name, and a
statement gives the innermost one the name that it declares. Everything else that is bound on the way is bound in
frames made on the way. Scripts are the one exception: they run among the globals and declare their names there.
-/

namespace Lox
open Ending

/-! ## Names that are gained -/

/-- Frames that were there lose no name and gain only names that `A` allows. -/
structure Machine.Gains (A : Nat → String → Prop) (m m' : Machine) : Prop where
  size : m.frames.size ≤ m'.frames.size
  kept : m.frames.Grow m'.frames
  gained : ∀ i name, i < m.frames.size → (m'.frames.read i name).isSome = true →
    (m.frames.read i name).isSome = true ∨ A i name

namespace Machine.Gains

variable {A B : Nat → String → Prop} {m m₁ m₂ : Machine}

theorem refl (A : Nat → String → Prop) (m : Machine) : Gains A m m :=
  ⟨Nat.le_refl _, .refl _, fun _ _ _ hb => .inl hb⟩

theorem of_frames (h : m₁.frames = m.frames) : Gains A m m₁ := by
  refine ⟨Nat.le_of_eq (congrArg Array.size h.symm), ?_, fun i name _ hb => .inl ?_⟩
  · rw [h]
    exact .refl _
  · rwa [h] at hb

theorem trans (h : Gains A m m₁) (h' : Gains A m₁ m₂) : Gains A m m₂ where
  size := Nat.le_trans h.size h'.size
  kept := h.kept.trans h'.kept
  gained i name hi hb := by
    rcases h'.gained i name (Nat.lt_of_lt_of_le hi h.size) hb with hb | ha
    · exact h.gained i name hi hb
    · exact .inr ha

theorem mono (h : Gains A m m₁) (hab : ∀ i name, i < m.frames.size → A i name → B i name) : Gains B m m₁ where
  size := h.size
  kept := h.kept
  gained i name hi hb := (h.gained i name hi hb).imp_right (hab i name hi)

theorem define {i : Nat} {name : String} (h : (m.frames.read i name).isSome = true ∨ A i name) (v : Value) :
    Gains A m { m with frames := m.frames.define i name v } where
  size := Nat.le_of_eq (Frames.size_define _ _ _ _).symm
  kept := .define _ _ _ _
  gained j other _ hb := by
    obtain ⟨w, hw⟩ := Option.isSome_iff_exists.1 hb
    rcases Frames.read_of_define hw with ⟨rfl, rfl, -⟩ | hw
    · exact h
    · exact .inl (Option.isSome_iff_exists.2 ⟨w, hw⟩)

theorem add (frame : Frame) : Gains A m { m with frames := m.frames.add frame } where
  size := by
    rw [Frames.size_add]
    exact Nat.le_succ _
  kept := .add _ _
  gained i name hi hb := .inl (by rwa [Frames.read_add_of_lt _ frame hi] at hb)

end Machine.Gains

/-- The names that may be bound in the environment `env`, and those that scripts declare if there are scripts. -/
def Env.Allows (scripts : Prop) (env : Env) (names : List String) (i : Nat) (name : String) : Prop :=
  (env.head? = some i ∧ name ∈ names) ∨ (i = Machine.globalFrame ∧ scripts)

/-- However the computation ends, it is back in its environment, in which it has bound at most these names. -/
def Eval.Binds {α : Type} (scripts : Prop) (names : List String) (act : Eval α) : Prop :=
  ∀ m, (state (act m)).env = m.env ∧ m.Gains (m.env.Allows scripts names) (state (act m))

namespace Eval.Binds

variable {α β : Type} {scripts : Prop} {names : List String}

/-! ## Composed computations -/

/-- A step that changes no frame. -/
theorem quiet {act : Eval α} (h : ∀ m, (state (act m)).env = m.env ∧ (state (act m)).frames = m.frames) :
    Binds scripts names act :=
  fun m => ⟨(h m).1, .of_frames (h m).2⟩

theorem pure (a : α) : Binds scripts names (Pure.pure a : Eval α) := quiet fun _ => ⟨rfl, rfl⟩

theorem throw (e : Stop) : Binds scripts names (MonadExcept.throw e : Eval α) := quiet fun _ => ⟨rfl, rfl⟩

theorem fail (t : Token) (fault : RuntimeFault) : Binds scripts names (Eval.fail t fault : Eval α) := throw _

theorem get : Binds scripts names (MonadState.get : Eval Machine) := quiet fun _ => ⟨rfl, rfl⟩

theorem mono {act : Eval α} {more : List String} (h : Binds scripts names act) (hn : ∀ name ∈ names, name ∈ more) :
    Binds scripts more act := by
  intro m
  obtain ⟨henv, hgains⟩ := h m
  exact ⟨henv, hgains.mono fun i name _ ha => ha.imp_left fun ⟨hi, hname⟩ => ⟨hi, hn name hname⟩⟩

theorem bind {p : Eval α} {f : α → Eval β} (hp : Binds scripts names p) (hf : ∀ a, Binds scripts names (f a)) :
    Binds scripts names (p >>= f) := by
  intro m
  obtain ⟨henv, hgains⟩ := hp m
  cases hpm : p m with
  | ok a m₁ =>
    simp only [hpm, state_ok] at henv hgains
    rw [bind_ok hpm]
    obtain ⟨henv', hgains'⟩ := hf a m₁
    rw [henv] at henv' hgains'
    exact ⟨henv', hgains.trans hgains'⟩
  | error e m₁ =>
    simp only [hpm, state_error] at henv hgains
    rw [bind_error hpm]
    exact ⟨henv, hgains⟩

theorem discard {p : Eval α} (hp : Binds scripts names p) : Binds scripts names (Functor.discard p) :=
  bind hp fun _ => pure _

theorem state_inEnv (env : Env) (p : Eval α) (m : Machine) :
    state (Eval.inEnv env p m) = { state (p { m with env := env }) with env := m.env } := by
  unfold Eval.inEnv
  dsimp only
  cases p { m with env := env } with
  | ok a m₁ => rfl
  | error e m₁ => rfl

/-- What is bound in a frame made for it is not bound in a frame that was there. -/
theorem inFrame (outer : Env) (frame : Frame) {p : Eval α} (hp : Binds scripts names p) :
    Binds scripts [] (do Eval.inEnv (← Eval.extend outer frame) p) := by
  intro m
  have hextend : Eval.extend outer frame m =
      .ok (m.frames.size :: outer) { m with frames := m.frames.add frame } := rfl
  rw [bind_ok hextend, state_inEnv]
  refine ⟨rfl, ?_⟩
  have hgains := (hp { m with frames := m.frames.add frame, env := m.frames.size :: outer }).2
  have hadd : m.Gains (m.env.Allows scripts []) { m with frames := m.frames.add frame } := .add frame
  -- the innermost frame is new, so among the old ones only the globals may have gained a name
  have hinner : ∀ i name, i < m.frames.size → Env.Allows scripts (m.frames.size :: outer) names i name →
      m.env.Allows scripts [] i name := by
    rintro i name hi (⟨hhead, -⟩ | hglobal)
    · cases hhead
      exact absurd hi (Nat.lt_irrefl _)
    · exact .inr hglobal
  exact
    { size := Nat.le_trans hadd.size hgains.size
      kept := hadd.kept.trans hgains.kept
      gained := fun i name hi hb => by
        rcases hgains.gained i name (Nat.lt_of_lt_of_le hi hadd.size) hb with hb | ha
        · exact hadd.gained i name hi hb
        · exact .inr (hinner i name hi ha) }

/-! ## Single steps -/

theorem extend (outer : Env) (frame : Frame) : Binds scripts names (Eval.extend outer frame) :=
  fun _ => ⟨rfl, .add frame⟩

theorem define (name : String) (v : Value) : Binds scripts [name] (Eval.define name v) := by
  intro m
  unfold Eval.define
  split
  case h_1 => exact ⟨rfl, .refl _ _⟩
  case h_2 i rest henv =>
    refine ⟨rfl, .define (.inr (.inl ⟨?_, List.mem_singleton_self name⟩)) v⟩
    rw [henv]
    rfl

theorem lookUp (id : Nat) (name : Token) : Binds scripts names (Eval.lookUp id name) := by
  refine quiet fun m => ?_
  unfold Eval.lookUp
  dsimp only
  split
  · exact ⟨rfl, rfl⟩
  · exact ⟨rfl, rfl⟩

/-- An assignment, also one that fails, binds nothing. -/
theorem store {holder : Machine → Option Nat} {name : Token}
    (hh : ∀ m i, holder m = some i → (m.frames.read i name.lexeme).isSome = true) (v : Value) :
    Binds scripts names (Eval.store holder name v) := by
  intro m
  unfold Eval.store
  cases hi : holder m with
  | none => exact ⟨rfl, .refl _ _⟩
  | some i => exact ⟨rfl, .define (.inl (hh m i hi)) v⟩

theorem assign (id : Nat) (name : Token) (v : Value) : Binds scripts names (Eval.assign id name v) := by
  refine store (fun m i hi => ?_) v
  split at hi
  · exact Frames.isSome_of_holderAt? hi
  · exact Frames.isSome_of_holder? hi

theorem newRef : Binds scripts names Eval.newRef := quiet fun _ => ⟨rfl, rfl⟩

theorem newFunction (f : Closure) : Binds scripts names (Eval.newFunction f) := bind newRef fun _ => pure _

theorem newObject (c : Class) : Binds scripts names (Eval.newObject c) := quiet fun _ => ⟨rfl, rfl⟩

theorem setField (id : Nat) (name : Token) (v : Value) : Binds scripts names (Eval.setField id name v) :=
  quiet fun _ => ⟨rfl, rfl⟩

theorem attach (receiver : Value) (method : Closure) : Binds scripts names (Eval.attach receiver method) :=
  bind (extend _ _) fun _ => pure _

theorem getProperty (id : Nat) (c : Class) (name : Token) : Binds scripts names (Eval.getProperty id c name) := by
  refine bind get fun m => ?_
  cases (m.fields id).get? name.lexeme with
  | some v => exact pure v
  | none =>
    cases c.findMethod name.lexeme with
    | some method => exact bind (attach _ _) fun f => newFunction f
    | none => exact fail _ _

theorem superMethod (id : Nat) (keyword method : Token) :
    Binds scripts names (Eval.superMethod id keyword method) := by
  refine bind get fun m => ?_
  cases m.distances[id]? with
  | none => exact fail _ _
  | some distance =>
    dsimp only
    split
    · split
      · split
        · exact bind (attach _ _) fun f => newFunction f
        · exact fail _ _
      · exact fail _ _
    · exact fail _ _

theorem defineClass (name : Token) (superclass : Option Class) (methods : List Routine) :
    Binds scripts names (Eval.defineClass name superclass methods) := by
  have henv : Binds scripts names (Eval.methodEnv superclass) := by
    cases superclass with
    | some parent => exact bind get fun m => extend _ _
    | none => exact bind get fun m => pure _
  rw [Eval.defineClass_eq]
  exact bind henv fun env => bind newRef fun ref => store (fun m i hi => Frames.isSome_of_holder? hi) _

theorem writeLine (s : String) : Binds scripts names (Eval.writeLine s) := by
  refine quiet fun m => ?_
  unfold Eval.writeLine
  split
  · exact ⟨rfl, rfl⟩
  · exact ⟨rfl, rfl⟩

theorem flush : Binds scripts names Eval.flush := by
  refine quiet fun m => ?_
  unfold Eval.flush
  split
  · exact ⟨rfl, rfl⟩
  · exact ⟨rfl, rfl⟩

theorem flushing {p : Eval α} (hp : Binds scripts names p) : Binds scripts names (Eval.flushing p) := by
  have hok (a : α) : Binds scripts names (do Eval.flush; return a) := bind flush fun _ => pure a
  have hfailed (e : Error) : Binds scripts names (do Eval.flush; MonadExcept.throw (.failed e) : Eval α) :=
    bind flush fun _ => throw _
  intro m
  obtain ⟨henv, hgains⟩ := hp m
  unfold Eval.flushing
  cases hpm : p m with
  | ok a m₁ =>
    simp only [hpm, state_ok] at henv hgains
    obtain ⟨henv', hgains'⟩ := hok a m₁
    rw [henv] at henv' hgains'
    exact ⟨henv', hgains.trans hgains'⟩
  | error e m₁ =>
    simp only [hpm, state_error] at henv hgains
    cases e with
    | exhausted => exact ⟨henv, hgains⟩
    | failed e =>
      obtain ⟨henv', hgains'⟩ := hfailed e m₁
      rw [henv] at henv' hgains'
      exact ⟨henv', hgains.trans hgains'⟩

theorem callNative (host : Host) (paren : Token) (f : Native) (args : List Value) :
    Binds scripts names (Eval.callNative host paren f args) := by
  refine quiet fun m => ?_
  unfold Eval.callNative
  split
  · exact ⟨rfl, rfl⟩
  · split
    · exact ⟨rfl, rfl⟩
    · split
      · exact ⟨rfl, rfl⟩
      · exact ⟨rfl, rfl⟩

theorem request (path : String) : Binds scripts names (Eval.request path) := quiet fun _ => ⟨rfl, rfl⟩

theorem readScript (host : Host) (path : String) : Binds scripts names (Eval.readScript host path) := by
  refine quiet fun m => ?_
  unfold Eval.readScript
  cases host.read path with
  | error fault => exact ⟨rfl, rfl⟩
  | ok source =>
    have hc := m.compile_snd source
    dsimp only
    cases hm : m.compile source with
    | mk result m' =>
      have henv : m'.env = m.env := by simpa [hm] using congrArg Machine.env hc
      have hframes : m'.frames = m.frames := by simpa [hm] using congrArg Machine.frames hc
      cases result with
      | error es => exact ⟨henv, hframes⟩
      | ok accepted => exact ⟨henv, hframes⟩

/-- A script declares its names among the globals. -/
theorem inGlobals (hs : scripts) {p : Eval α} (hp : Binds scripts names p) :
    Binds scripts [] (Eval.inEnv Machine.globals p) := by
  intro m
  rw [state_inEnv]
  obtain ⟨size, kept, gained⟩ := (hp { m with env := Machine.globals }).2
  refine ⟨rfl, size, kept, fun i name hi hb => ?_⟩
  rcases gained i name hi hb with hb | ⟨hhead, -⟩ | hglobal
  · exact .inl hb
  · cases hhead
    exact .inr (.inr ⟨rfl, hs⟩)
  · exact .inr (.inr hglobal)

end Eval.Binds

/-! ## Runs -/

/-- A loader of the host's own binds names among the globals only, and comes back to the environment it was called
in. -/
def Host.LoaderBindsGlobals (host : Host) : Prop :=
  ∀ load, host.loader = .custom load → ∀ path m,
    (load path m).2.env = m.env ∧ m.Gains (fun i _ => i = Machine.globalFrame) (load path m).2

open Eval

theorem Eval.Binds.relates (scripts : Prop) (host : Host) : Relates (fun p _ => Binds scripts [] p) host host where
  step h := by
    cases h with
    | pure a => exact .pure a
    | fail t fault => exact .fail t fault
    | lookUp id name => exact .lookUp id name
    | assign id name v => exact .assign id name v
    | newObject c => exact .newObject c
    | attach receiver method => exact .attach receiver method
    | getProperty id c name => exact .getProperty id c name
    | setField id name v => exact .setField id name v
    | superMethod id keyword method => exact .superMethod id keyword method
  bind hp hf := .bind hp hf
  native paren f args := .callNative host paren f args

/-- What runs of depth `n` may bind in the environment they start in. -/
structure RunsBind (scripts : Prop) (host : Host) (n : Nat) : Prop
    extends EvaluationsRelate (fun p _ => Binds scripts [] p) host host n n where
  execute (s : Stmt) : Binds scripts s.declared (execute host n s)
  executeAll (ss : List Stmt) : Binds scripts (Stmt.declaredAll ss) (executeAll host n ss)
  repeatWhile (cond : Expr) (body : Stmt) : Binds scripts body.declared (repeatWhile host n cond body)
  load (keyword : Token) (path : String) : Binds scripts [] (load host n keyword path)
  interpret (program : List Stmt) : scripts → Binds scripts [] (interpret host n program)

namespace RunsBind

variable {scripts : Prop} {host : Host} {n : Nat} (ih : RunsBind scripts host n)
include ih

theorem within (e : Expr) (names : List String) : Binds scripts names (Lox.evaluate host n e) :=
  (ih.evaluate e).mono nofun

/-- The parameters and what the body declares are bound in the frame of the call. -/
theorem next_callClosure (paren : Token) (f : Closure) (args : List Value) :
    Binds scripts [] (Lox.callClosure host (n + 1) paren f args) := by
  rw [Lox.callClosure, ← bind_assoc]
  refine .bind (.inFrame f.env (f.frame args) (ih.executeAll f.decl.body)) fun flow => ?_
  split
  · refine .bind .get fun m => ?_
    split
    · exact .pure _
    · exact .fail _ _
  · exact .pure _

theorem next_execute (s : Stmt) : Binds scripts s.declared (Lox.execute host (n + 1) s) := by
  cases s with
  | expr e => exact .bind (ih.evaluate e) fun _ => .pure _
  | print e => exact .bind (ih.evaluate e) fun v => .bind (.writeLine _) fun _ => .pure _
  | varDecl name init =>
    have hdefine : ∀ v, Binds scripts [name.lexeme] (do define name.lexeme v; return .normal : Eval Flow) :=
      fun v => .bind (.define _ v) fun _ => .pure _
    cases init with
    | none => exact .bind (.pure _) hdefine
    | some e => exact .bind (ih.within e _) hdefine
  | block body =>
    exact .bind .get fun m => .inFrame m.env [] (ih.executeAll body)
  | branch cond yes no =>
    refine .bind (ih.within cond _) fun v => ?_
    cases no with
    | none =>
      split
      · exact ih.execute yes
      · exact .pure _
    | some no =>
      split
      · exact (ih.execute yes).mono fun name h => List.mem_append_left _ h
      · exact (ih.execute no).mono fun name h => List.mem_append_right _ h
  | loop cond body => exact ih.repeatWhile cond body
  | breakLoop keyword => exact .pure _
  | function decl =>
    exact .bind .get fun m => .bind (.newFunction _) fun f => .bind (.define _ f) fun _ => .pure _
  | returnWith keyword value =>
    cases value with
    | none => exact .pure _
    | some e => exact .bind (ih.evaluate e) fun _ => .pure _
  | classDecl name superclass methods =>
    refine .bind (.define _ _) fun _ => ?_
    have hclass : ∀ parent, Binds scripts [name.lexeme] (do defineClass name parent methods; return Flow.normal) :=
      fun parent => .bind (.defineClass name parent methods) fun _ => .pure _
    cases superclass with
    | none => exact .bind (.pure _) hclass
    | some e =>
      refine .bind (ih.within e _) fun v => ?_
      cases v with
      | classDef c => exact .bind (.pure _) hclass
      | _ => exact .bind (.fail _ _) hclass
  | execute keyword path =>
    refine .bind (ih.evaluate path) fun v => ?_
    cases v with
    | string path => exact .bind (ih.load keyword path) fun _ => .pure _
    | _ => exact .fail _ _

theorem next_executeAll (ss : List Stmt) : Binds scripts (Stmt.declaredAll ss) (Lox.executeAll host (n + 1) ss) := by
  cases ss with
  | nil => exact .pure _
  | cons s rest =>
    refine .bind ((ih.execute s).mono fun name h => List.mem_append_left _ h) fun flow => ?_
    cases flow with
    | normal => exact (ih.executeAll rest).mono fun name h => List.mem_append_right _ h
    | broke => exact .pure _
    | returned v => exact .pure _

theorem next_repeatWhile (cond : Expr) (body : Stmt) :
    Binds scripts body.declared (Lox.repeatWhile host (n + 1) cond body) := by
  refine .bind (ih.within cond _) fun v => ?_
  split
  · refine .bind (ih.execute body) fun flow => ?_
    cases flow with
    | normal => exact ih.repeatWhile cond body
    | broke => exact .pure _
    | returned v => exact .pure _
  · exact .pure _

theorem next_load (hl : host.LoaderBindsGlobals) (hs : host.loader ≠ .absent → scripts) (keyword : Token)
    (path : String) : Binds scripts [] (Lox.load host (n + 1) keyword path) := by
  rw [Lox.load]
  cases hloader : host.loader with
  | absent => exact .fail _ _
  | files =>
    have hscripts : scripts := hs (by simp [hloader])
    exact .bind (.request path) fun _ => .bind (.readScript host path) fun p => ih.interpret p hscripts
  | custom load =>
    have hscripts : scripts := hs (by simp [hloader])
    intro m
    obtain ⟨henv, hgains⟩ := hl load hloader path m
    dsimp only
    cases hm : load path m with
    | mk result m' =>
      rw [hm] at henv hgains
      have hbinds := hgains.mono (B := m.env.Allows scripts []) fun i name _ hi => .inr ⟨hi, hscripts⟩
      cases result with
      | ok _ => exact ⟨henv, hbinds⟩
      | error e => exact ⟨henv, hbinds⟩

theorem next_interpret (program : List Stmt) (hs : scripts) :
    Binds scripts [] (Lox.interpret host (n + 1) program) :=
  .flushing (.inGlobals hs (.discard (ih.executeAll program)))

end RunsBind

/-- At any depth. -/
theorem runsBind {scripts : Prop} {host : Host} (hl : host.LoaderBindsGlobals)
    (hs : host.loader ≠ .absent → scripts) (n : Nat) : RunsBind scripts host n := by
  induction n with
  | zero => refine ⟨⟨?_, ?_, ?_, ?_⟩, ?_, ?_, ?_, ?_, ?_⟩ <;> intros <;> exact .throw _
  | succ n ih =>
    have hr := Binds.relates scripts host
    exact
      { evaluate := ih.next_evaluate hr
        evaluateAll := ih.next_evaluateAll hr
        call := ih.next_call hr
        callClosure := ih.next_callClosure
        execute := ih.next_execute
        executeAll := ih.next_executeAll
        repeatWhile := ih.next_repeatWhile
        load := ih.next_load hl hs
        interpret := ih.next_interpret }

/-! ## Whether a script is run -/

/-- The host without a loader. -/
def Host.unloaded (host : Host) : Host := { host with loader := .absent }

/-- An `execute` statement gets to its script: without a loader that is where the run fails. -/
def Host.Executes {α : Type} (host : Host) (run : Host → Eval α) (m : Machine) : Prop :=
  ∃ keyword m', run host.unloaded m = .error (.failed (.runtimeAt keyword .noLoader)) m'

def Stop.isUnloaded (e : Stop) : Prop := ∃ keyword, e = .failed (.runtimeAt keyword .noLoader)

theorem runsUnless_unloaded (host : Host) (n : Nat) : RunsUnless Stop.isUnloaded host.unloaded host n n := by
  induction n with
  | zero => refine ⟨⟨?_, ?_, ?_, ?_⟩, ?_, ?_, ?_, ?_⟩ <;> intros <;> exact .refl _
  | succ n ih => exact ih.next (Unless.relatesAll _ rfl) fun keyword path m => .inl ⟨_, m, ⟨keyword, rfl⟩, rfl⟩

theorem Host.unloaded_loader (host : Host) : host.unloaded.LoaderBindsGlobals := nofun

/-- A run that executes no script is a run of the host without a loader. -/
theorem Eval.Binds.gains {α : Type} {host : Host} {names : List String} (run : Host → Eval α)
    (hu : Unless Stop.isUnloaded (run host.unloaded) (run host)) (hloaded : Binds True names (run host))
    (hbare : Binds False names (run host.unloaded)) (m : Machine) :
    m.Gains (m.env.Allows (host.Executes run m) names) (state (run host m)) := by
  rcases hu m with ⟨e, m', ⟨keyword, rfl⟩, he⟩ | hsame
  · have hexecutes : host.Executes run m := ⟨keyword, m', he⟩
    exact (hloaded m).2.mono fun i name _ ha => ha.imp_right fun hi => ⟨hi.1, hexecutes⟩
  · rw [hsame]
    exact (hbare m).2.mono fun i name _ ha => ha.imp_right fun hi => hi.2.elim

/-! ## What is bound -/

/-- The name that a declaration binds. -/
def Stmt.name? : Stmt → Option String
  | .varDecl name _ => some name.lexeme
  | .function decl => some decl.name.lexeme
  | .classDecl name _ _ => some name.lexeme
  | _ => none

theorem Stmt.declared_eq_name? {s : Stmt} (hw : s.WellFormed) : s.declared = s.name?.toList := by
  cases hd : s.isDeclaration with
  | false =>
    rw [Stmt.declared_eq_nil hw hd]
    cases s with
    | varDecl _ _ | function _ | classDecl _ _ _ => cases hd
    | _ => rfl
  | true =>
    cases s with
    | varDecl _ _ | function _ | classDecl _ _ _ => rfl
    | _ => cases hd

/-- Whatever machine it is run on, to whatever depth and however it ends: no frame that was there loses a name.
An expression and a call give them no name, and a statement gives the innermost one the name that it declares, if it
is a declaration. If scripts are executed on the way then the globals may gain names as well. -/
theorem gains_declared (host : Host) (hl : host.LoaderBindsGlobals) (n : Nat) (m : Machine) :
    (∀ e, m.Gains (fun i _ => i = Machine.globalFrame ∧ host.Executes (evaluate · n e) m)
      (state (evaluate host n e m))) ∧
    (∀ paren f args, m.Gains (fun i _ => i = Machine.globalFrame ∧ host.Executes (call · n paren f args) m)
      (state (call host n paren f args m))) ∧
    (∀ s, s.WellFormed → m.Gains (fun i name => (m.env.head? = some i ∧ s.name? = some name) ∨
        (i = Machine.globalFrame ∧ host.Executes (execute · n s) m))
      (state (execute host n s m))) := by
  have hsame := runsUnless_unloaded host n
  have hloaded : RunsBind True host n := runsBind hl (fun _ => trivial) n
  have hbare : RunsBind False host.unloaded n := runsBind host.unloaded_loader (fun h => h rfl) n
  have hnone : ∀ {scripts : Prop} {i : Nat} {name : String}, m.env.Allows scripts [] i name →
      i = Machine.globalFrame ∧ scripts := fun ha => ha.resolve_left fun hi => nomatch hi.2
  refine ⟨fun e => ?_, fun paren f args => ?_, fun s hw => ?_⟩
  · have hgains := Binds.gains (evaluate · n e) (hsame.evaluate e) (hloaded.evaluate e) (hbare.evaluate e) m
    exact hgains.mono fun i name _ ha => hnone ha
  · have hgains := Binds.gains (call · n paren f args) (hsame.call paren f args)
      (hloaded.call paren f args) (hbare.call paren f args) m
    exact hgains.mono fun i name _ ha => hnone ha
  · have hgains := Binds.gains (execute · n s) (hsame.execute s) (hloaded.execute s) (hbare.execute s) m
    rw [Stmt.declared_eq_name? hw] at hgains
    exact hgains.mono fun i name _ ha => ha.imp_left fun hi => ⟨hi.1, Option.mem_toList.1 hi.2⟩

/-- The only script declares `y`. -/
def Host.declaring : Host where
  loader := .custom fun _ m => (.ok (), { m with frames := m.frames.define Machine.globalFrame "y" .nil })

/-- A block, and among the globals a function that executes a script. -/
def Machine.executing : Machine where
  frames :=
    let body := [.execute ⟨.keyword .executeKw, "execute", 1⟩ (.literal (.string "y.lox"))]
    #[[("f", .function 0 ⟨⟨⟨.identifier, "f", 1⟩, [], body⟩, [0], false⟩)], []]
  env := [1, 0]

/-- Declares `a` with what the function gives. -/
def Stmt.declaringCall : Stmt :=
  .varDecl ⟨.identifier, "a", 1⟩
    (some (.call (.var 0 ⟨.identifier, "f", 1⟩) ⟨.symbol .rightParen, ")", 1⟩ []))

/-- The block gains the variable, the globals what the script declares, and the frame of the call is new. -/
theorem gains_declared_declaringCall :
    Host.declaring.LoaderBindsGlobals ∧ Stmt.declaringCall.WellFormed ∧
    ((state (execute Host.declaring 9 .declaringCall .executing)).frames.map Table.names).toList =
      [["f", "y"], ["a"], []] ∧
    Host.declaring.Executes (execute · 9 .declaringCall) .executing ∧
    Machine.executing.Gains (fun i name => (some 1 = some i ∧ some "a" = some name) ∨
        (i = Machine.globalFrame ∧ Host.declaring.Executes (execute · 9 .declaringCall) .executing))
      (state (execute Host.declaring 9 .declaringCall .executing)) := by
  have hl : Host.declaring.LoaderBindsGlobals := by
    intro load h path m
    cases h
    exact ⟨rfl, .define (.inr rfl) _⟩
  have hw : Stmt.declaringCall.WellFormed := ⟨trivial, trivial⟩
  exact ⟨hl, hw, by cbv, ⟨_, _, rfl⟩, (gains_declared Host.declaring hl 9 .executing).2.2 _ hw⟩

end Lox
