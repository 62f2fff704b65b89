import Lox.Proofs.Flow.Confined
import Lox.Proofs.Regular
import Lox.Proofs.Scope.Closures

/-!
# What every run keeps up

An upkeep says which states are good, how states may change, and what values, functions and errors there may be. If
single steps keep to it then all runs do. This is shown once here, by induction on the depth of a run, for the pieces
of programs that passed the analysis.
-/

namespace Lox
open Scoping

/-- The faults that a program can bring about by what it does with values. -/
def RuntimeFault.Ordinary : RuntimeFault → Prop
  | .undefinedVariable name => name ≠ "this" ∧ name ≠ "super"
  | .invalidUnary | .invalidBinary | .noLoader | .unboundInitializer | .custom _ => False
  | _ => True

/-- The errors that a host and its files can bring about, and all ordinary faults, are among `E`. -/
structure Host.Permits (host : Host) (E : Error → Prop) : Prop where
  fault (t : Token) {fault : RuntimeFault} : fault.Ordinary → E (.runtimeAt t fault)
  native (t : Token) {f : HostFunction} {m : Machine} {args : List Value} {wording : String} :
    f ∈ host.functions → f.run m args = .error wording → E (.runtimeAt t (.custom wording))
  absent (t : Token) : host.loader = .absent → E (.runtimeAt t .noLoader)
  refused (reason : String) : E (.io (.custom reason))
  unreadable (path : String) (fault : IoFault) : E (.script path [.io fault])
  script (path source : String) {m : Machine} {es : List Error} :
    (m.compile source).1 = .error es → E (.script path es)
  loader (path : String) {load : String → Machine → Except Error Unit × Machine} {m : Machine}
    {e : Error} : host.loader = .custom load → (load path m).1 = .error e → E e

theorem Host.Permits.imp {host : Host} {E E' : Error → Prop} (h : host.Permits E) (himp : ∀ {e}, E e → E' e) :
    host.Permits E' where
  fault t _ hf := himp (h.fault t hf)
  native t _ _ _ _ hf hr := himp (h.native t hf hr)
  absent t hl := himp (h.absent t hl)
  refused reason := himp (h.refused reason)
  unreadable path fault := himp (h.unreadable path fault)
  script path source _ _ hc := himp (h.script path source hc)
  loader path _ _ _ hl he := himp (h.loader path hl he)

theorem Host.permits_all (host : Host) : host.Permits fun _ => True where
  fault _ _ _ := trivial
  native _ _ _ _ _ _ _ := trivial
  absent _ _ := trivial
  refused _ := trivial
  unreadable _ _ := trivial
  script _ _ _ _ _ := trivial
  loader _ _ _ _ _ _ := trivial

theorem Machine.orderly_of_compile {m m' : Machine} {source : String} {program : List Stmt}
    {warnings : List Warning} (h : m.compile source = (.ok (program, warnings), m')) :
    Stmt.AllRegular program ∧ Stmt.AllConfined .topLevel false program := by
  obtain ⟨next, hr, he, -, -⟩ := Machine.compile_eq_ok.1 h
  exact ⟨Stmt.read_regular hr, Stmt.confined_of_analyse he⟩

namespace Trace

/-- There is no value where `this` is looked up, or no class and object where `super` is. -/
def Missed (ref : Reference) (m : Machine) : Prop :=
  match ref.access with
  | .receiver => ∀ v, Eval.lookUp ref.id ref.name m ≠ .ok v m
  | .parent => ∀ d, m.distances[ref.id]? = some d →
    ¬ ((∃ c, m.frames.getAt? m.env d "super" = some (.classDef c)) ∧
      ∃ id c, m.frames.getAt? m.env (d - 1) "this" = some (.object id c))
  | _ => False

structure Upkeep where
  Good : State → Prop
  /-- How states may change. -/
  Onward : State → State → Prop
  /-- What values there may be. -/
  Fine : Value → State → Prop
  /-- What functions may be called. -/
  Ready : Closure → State → Prop
  /-- What errors there may be after what is in the log. -/
  Errs : Log → Error → Prop
  /-- Whether it matters where `return` and `break` stand. -/
  strict : Prop

namespace Upkeep

/-- However the computation ends, the upkeep is not broken. -/
def Keeps (u : Upkeep) {α : Type} (s : State) (Q : α → State → Prop) : EStateM.Result Stop State α → Prop
  | .ok a s' => u.Onward s s' ∧ Q a s'
  | .error (.failed e) s' => u.Onward s s' ∧ u.Errs s'.log e
  | .error .exhausted s' => u.Onward s s'

/-- Single steps keep to the upkeep. -/
structure Sound (u : Upkeep) (host : Host) : Prop where
  honest : host.Honest
  permits (log : Log) : host.Permits (u.Errs log)
  refl {s : State} : u.Good s → u.Onward s s
  trans {s₁ s₂ s₃ : State} : u.Onward s₁ s₂ → u.Onward s₂ s₃ → u.Onward s₁ s₃
  good {s s' : State} : u.Onward s s' → u.Good s'
  plain {v : Value} {s : State} : v.isPlain = true → u.Fine v s
  function {id : Nat} {f : Closure} {s : State} : u.Fine (.function id f) s ↔ u.Ready f s
  object {id : Nat} {c : Class} {s : State} : u.Fine (.object id c) s ↔ u.Fine (.classDef c) s
  fine {v : Value} {s s' : State} : u.Onward s s' → u.Fine v s → u.Fine v s'
  frames {s : State} {i : Nat} {name : String} {v : Value} :
    u.Good s → s.machine.frames.read i name = some v → u.Fine v s
  fields {s : State} {id : Nat} {name : String} {v : Value} :
    u.Good s → (s.machine.fields id).get? name = some v → u.Fine v s
  offers {s : State} {args : List Value} {v : Value} :
    u.Good s → (∀ v ∈ args, u.Fine v s) → s.machine.Offers args v → u.Fine v s
  same {s : State} {m : Machine} : u.Good s → m.frames = s.machine.frames → m.objects = s.machine.objects →
    m.env = s.machine.env → u.Onward s { s with machine := m }
  define {s : State} {name : Token} {v : Value} (i : Nat) :
    u.Good s → name.Free → u.Fine v s → u.Onward s (s.define i name.lexeme v)
  setField {s : State} {v : Value} (id : Nat) (name : String) :
    u.Good s → u.Fine v s → u.Onward s (s.withObjects (s.machine.objects.modify id (·.insert name v)))
  newObject {s : State} : u.Good s → u.Onward s (s.withObjects (s.machine.objects.push []))
  onlyGlobals {s : State} {m : Machine} : u.Good s → s.machine.OnlyGlobals m → u.Onward s { s with machine := m }
  accepted {s : State} {p : List Stmt} (d : Distances) : u.Good s → Stmt.AllRegular p →
    Stmt.AllConfined .topLevel false p → u.Onward s (s.note (.accepted p d))
  referred {s : State} (ref : Reference) : u.Good s → u.Onward s (s.note (.referred ref s.machine))
  began {s : State} {st : Stmt} : u.Good s → st.Regular → u.Onward s (s.note (.began st s.machine))
  missed {s : State} {ref : Reference} (t : Token) (fault : RuntimeFault) : Missed ref s.machine →
    u.Errs (.referred ref s.machine :: s.log) (.runtimeAt t fault)
  /-- Back in the environment from before. -/
  back {s s' : State} {env : Env} : u.Good s → u.Onward (s.inEnv env) s' → u.Onward s (s'.inEnv s.machine.env)
  fine_inEnv {v : Value} {s : State} (env : Env) : u.Fine v s → u.Fine v (s.inEnv env)
  globals {s : State} : u.Good s → u.Good (s.inEnv Machine.globals)
  block {s : State} (body : List Stmt) : u.Good s → u.Onward s (s.enter (.block body) s.machine.env []) ∧
    u.Good ((s.enter (.block body) s.machine.env []).inEnv (s.machine.frames.size :: s.machine.env))
  routine {s : State} {f : Closure} {args : List Value} : u.Good s → u.Ready f s → (∀ v ∈ args, u.Fine v s) →
    u.Onward s (s.enter (.routine f.decl) f.env (f.frame args)) ∧
    u.Good ((s.enter (.routine f.decl) f.env (f.frame args)).inEnv (s.machine.frames.size :: f.env))
  body {f : Closure} {s : State} : u.Ready f s →
    Stmt.AllRegular f.decl.body ∧ ∃ role, u.strict → Stmt.AllConfined role false f.decl.body
  closure {s : State} {decl : Routine} : u.Good s → decl.Regular → (u.strict → decl.Confined .function) →
    u.Ready ⟨decl, s.machine.env, false⟩ s
  /-- An initializer that was bound has its object. -/
  unbound {f : Closure} {s s' : State} (paren : Token) : u.Ready f s → u.Onward s s' → f.isInitializer = true →
    s'.machine.frames.getAt? f.env 0 "this" = none → u.Errs s'.log (.runtimeAt paren .unboundInitializer)

/-- So do steps that bind methods. -/
structure Binds (u : Upkeep) : Prop where
  attach {s : State} {c : Class} {name : String} {f : Closure} (id : Nat) : u.Good s → u.Fine (.classDef c) s →
    c.findMethod name = some f → u.Keeps s u.Ready (Trace.attach (.object id c) f s)
  inherited {s : State} {ref : Reference} {d id : Nat} {parent c : Class} {name : String} {f : Closure} :
    u.Good (s.note (.referred ref s.machine)) → ref.access = .parent → s.machine.distances[ref.id]? = some d →
    s.machine.frames.getAt? s.machine.env d "super" = some (.classDef parent) →
    s.machine.frames.getAt? s.machine.env (d - 1) "this" = some (.object id c) → parent.findMethod name = some f →
    u.Keeps (s.note (.referred ref s.machine)) u.Ready
      (Trace.attach (.object id c) f (s.note (.referred ref s.machine)))
  methodEnv {s : State} {parent : Option Class} {methods : List Routine} (name : String) : u.Good s →
    (∀ c, parent = some c → u.Fine (.classDef c) s) → Routine.AllRegular methods →
    (u.strict → Routine.MethodsConfined methods) →
    u.Keeps s (fun env s' => ∀ id, u.Fine (.classDef ⟨id, name, parent, Eval.methodTable env methods⟩) s')
      (Trace.methodEnv parent methods s)

variable {u : Upkeep} {host : Host} (hu : u.Sound host) {α β : Type} {s s' : State} {Q R : α → State → Prop}
include hu

/-! ## Composed computations -/

theorem Keeps.after (h : u.Onward s s') {r : EStateM.Result Stop State α} (hr : u.Keeps s' Q r) : u.Keeps s Q r := by
  cases r with
  | ok a s'' => exact ⟨hu.trans h hr.1, hr.2⟩
  | error e s'' =>
    cases e with
    | failed e => exact ⟨hu.trans h hr.1, hr.2⟩
    | exhausted => exact hu.trans h hr

theorem Keeps.bind {Q : β → State → Prop} {p : Traced β} {f : β → Traced α} (hp : u.Keeps s Q (p s))
    (hf : ∀ b s', u.Onward s s' → u.Good s' → Q b s' → u.Keeps s' R (f b s')) : u.Keeps s R ((p >>= f) s) := by
  cases hps : p s with
  | ok b s' =>
    rw [hps] at hp
    rw [Ending.bind_ok hps]
    exact after hu hp.1 (hf b s' hp.1 (hu.good hp.1) hp.2)
  | error e s' =>
    rw [hps] at hp
    rw [Ending.bind_error hps]
    cases e with
    | failed e => exact hp
    | exhausted => exact hp

namespace Sound

theorem pure (h : u.Good s) {a : α} (hq : Q a s) : u.Keeps s Q ((Pure.pure a : Traced α) s) :=
  ⟨hu.refl h, hq⟩

theorem exhausted (h : u.Good s) : u.Keeps s Q ((throw .exhausted : Traced α) s) := hu.refl h

theorem fail (h : u.Good s) (t : Token) {fault : RuntimeFault} (hf : fault.Ordinary) :
    u.Keeps s Q (lift (Eval.fail t fault) s) :=
  ⟨hu.refl h, (hu.permits _).fault t hf⟩

theorem inEnv (h : u.Good s) {env : Env} {act : Traced α} (hact : u.Keeps (s.inEnv env) Q (act (s.inEnv env)))
    (hQ : ∀ a s', Q a s' → R a (s'.inEnv s.machine.env)) : u.Keeps s R (Trace.inEnv env act s) := by
  unfold Trace.inEnv
  have hs : ({ s with machine := { s.machine with env := env } } : State) = s.inEnv env := rfl
  rw [hs]
  cases hr : act (s.inEnv env) with
  | ok a s' =>
    rw [hr] at hact
    exact ⟨hu.back h hact.1, hQ a s' hact.2⟩
  | error e s' =>
    rw [hr] at hact
    cases e with
    | failed e => exact ⟨hu.back h hact.1, hact.2⟩
    | exhausted => exact hu.back h hact

/-! ## Steps that change neither frames nor fields -/

theorem of_quiet {act : Eval α} (hq : Quiet act) (h : u.Good s)
    (hok : ∀ a m, act s.machine = .ok a m → u.Onward s { s with machine := m } → Q a { s with machine := m })
    (he : ∀ e m, act s.machine = .error e m → ∃ e', e = .failed e' ∧ u.Errs s.log e') : u.Keeps s Q (lift act s) := by
  have hs := hq s.machine
  unfold lift
  cases hact : act s.machine with
  | ok a m =>
    rw [hact] at hs
    have ho := hu.same h hs.frames hs.objects hs.env
    exact ⟨ho, hok a m hact ho⟩
  | error e m =>
    rw [hact] at hs
    obtain ⟨e', rfl, he'⟩ := he e m hact
    exact ⟨hu.same h hs.frames hs.objects hs.env, he'⟩

theorem newFunction (h : u.Good s) {f : Closure} (hf : u.Ready f s) : u.Keeps s u.Fine (lift (Eval.newFunction f) s) :=
  have hs : u.Onward s { s with machine := { s.machine with nextRef := s.machine.nextRef + 1 } } :=
    hu.same h rfl rfl rfl
  ⟨hs, hu.fine hs (hu.function.2 hf)⟩

theorem settles (h : u.Good s) {op : Token} {faults : List RuntimeFault} {act : Eval Value}
    (hs : Eval.Settles op faults act) (he : ∀ fault ∈ faults, fault.Ordinary) : u.Keeps s u.Fine (lift act s) := by
  cases hs with
  | value hv => exact ⟨hu.refl h, hu.plain hv⟩
  | fault hf => exact fail hu h op (he _ hf)

theorem writeLine (h : u.Good s) (text : String) : u.Keeps s (fun _ _ => True) (lift (Eval.writeLine text) s) := by
  refine of_quiet hu (Quiet.writeLine text) h (fun _ _ _ _ => trivial) fun e m he => ?_
  unfold Eval.writeLine at he
  split at he
  · cases he
  · cases he
    exact ⟨_, rfl, (hu.permits _).refused _⟩

theorem flush (h : u.Good s) : u.Keeps s (fun _ s' => s'.log = s.log) (lift Eval.flush s) := by
  refine of_quiet hu Quiet.flush h (fun _ _ _ _ => rfl) fun e m he => ?_
  unfold Eval.flush at he
  split at he
  · cases he
  · cases he
    exact ⟨_, rfl, (hu.permits _).refused _⟩

/-- A refused flush hides the error before it, and there may be that one too. -/
theorem flushing {act : Traced α} (h : u.Keeps s (fun _ _ => True) (act s)) :
    u.Keeps s (fun _ _ => True) (Trace.flushing act s) := by
  unfold Trace.flushing
  cases hact : act s with
  | ok a s' =>
    rw [hact] at h
    exact .after hu h.1 (.bind hu (flush hu (hu.good h.1)) fun _ _ _ hg _ => pure hu hg trivial)
  | error e s' =>
    rw [hact] at h
    cases e with
    | exhausted => exact h
    | failed e =>
      refine .after hu h.1 (.bind hu (flush hu (hu.good h.1)) fun _ s'' _ hg hlog => ⟨hu.refl hg, ?_⟩)
      rw [hlog]
      exact h.2

theorem callNative (h : u.Good s) (paren : Token) (f : Native) {args : List Value} (ha : ∀ v ∈ args, u.Fine v s) :
    u.Keeps s u.Fine (lift (Eval.callNative host paren f args) s) := by
  refine of_quiet hu (Quiet.callNative host paren f args) h (fun v m hv ho => hu.fine ho ?_) fun e m he => ?_
  · unfold Eval.callNative at hv
    split at hv
    · cases hv
      exact hu.plain rfl
    · split at hv
      · cases hv
      case h_2 g hslot =>
        split at hv
        case h_1 w hw =>
          cases hv
          exact hu.offers h ha (hu.honest.functions g (List.mem_of_getElem? hslot) _ _ _ hw)
        case h_2 => cases hv
  · unfold Eval.callNative at he
    split at he
    · cases he
    · split at he
      · cases he
        exact ⟨_, rfl, (hu.permits _).fault paren trivial⟩
      case h_2 g hslot =>
        split at he
        · cases he
        case h_2 wording hw =>
          cases he
          exact ⟨_, rfl, (hu.permits _).native paren (List.mem_of_getElem? hslot) hw⟩

/-! ## Variables and properties -/

/-- What is bound in the frame within which the machine is. -/
theorem bind_name (h : u.Good s) {name : Token} (hn : name.Free) {v : Value} (hv : u.Fine v s) :
    u.Keeps s (fun _ _ => True) (lift (Eval.define name.lexeme v) s) := by
  cases henv : s.machine.env with
  | nil =>
    have hd : Eval.define name.lexeme v s.machine = .ok () s.machine := by
      simp only [Eval.define, henv]
    rw [lift_ok hd]
    exact ⟨hu.refl h, trivial⟩
  | cons i rest =>
    have hd : Eval.define name.lexeme v s.machine =
        .ok () { s.machine with frames := s.machine.frames.define i name.lexeme v } := by
      simp only [Eval.define, henv]
    rw [lift_ok hd]
    exact ⟨hu.define i h hn hv, trivial⟩

theorem store (h : u.Good s) (holder : Machine → Option Nat) {name : Token} (hn : name.Free) {v : Value}
    (hv : u.Fine v s) : u.Keeps s (fun _ _ => True) (lift (Eval.store holder name v) s) := by
  unfold lift Eval.store
  cases holder s.machine with
  | none => exact fail hu h name hn
  | some i => exact ⟨hu.define i h hn hv, trivial⟩

/-- A name of the program is looked up, or `this`. -/
theorem lookUp (h : u.Good s) {ref : Reference} (hr : ref.name.Free ∨ ref.access = .receiver) :
    u.Keeps s u.Fine (Trace.lookUp ref s) := by
  unfold Trace.lookUp
  rw [Ending.bind_ok (note_apply _)]
  have ho := hu.referred ref h
  refine .after hu ho (of_quiet hu (Quiet.lookUp ref.id ref.name) (hu.good ho) (fun v m hv ho' => ?_) fun e m he => ?_)
  · refine hu.fine ho' (hu.fine ho ?_)
    unfold Eval.lookUp at hv
    dsimp only at hv
    split at hv
    case h_1 w hw =>
      cases hv
      split at hw
      · obtain ⟨i, -, hi⟩ := Frames.read_of_getAt? hw
        exact hu.frames h hi
      · rw [Frames.get?_eq_holder?_bind] at hw
        obtain ⟨i, -, hi⟩ := Option.bind_eq_some_iff.1 hw
        exact hu.frames h hi
    case h_2 => cases hv
  · have herr : e = .failed (.runtimeAt ref.name (.undefinedVariable ref.name.lexeme)) := by
      unfold Eval.lookUp at he
      dsimp only at he
      split at he
      · cases he
      · cases he
        rfl
    refine ⟨_, herr, ?_⟩
    rcases hr with hfree | hthis
    · exact (hu.permits _).fault ref.name hfree
    · refine hu.missed ref.name _ ?_
      unfold Missed
      rw [hthis]
      intro v hok
      rw [show (s.note (.referred ref s.machine)).machine = s.machine from rfl, hok] at he
      cases he

theorem assign (h : u.Good s) (ref : Reference) (hn : ref.name.Free) {v : Value} (hv : u.Fine v s) :
    u.Keeps s (fun _ _ => True) (Trace.assign ref v s) := by
  unfold Trace.assign
  rw [Ending.bind_ok (note_apply _)]
  have ho := hu.referred ref h
  exact .after hu ho (store hu (hu.good ho) _ hn (hu.fine ho hv))

theorem method {receiver : Value} {f : Closure} (hf : u.Keeps s u.Ready (Trace.attach receiver f s)) :
    u.Keeps s u.Fine ((do
      let g ← Trace.attach receiver f
      lift (Eval.newFunction g) : Traced Value) s) :=
  .bind hu hf fun _ _ _ h₁ hg => newFunction hu h₁ hg

theorem getProperty (hb : u.Binds) (h : u.Good s) (id : Nat) {c : Class} (hc : u.Fine (.classDef c) s) (name : Token) :
    u.Keeps s u.Fine (Trace.getProperty id c name s) := by
  unfold Trace.getProperty
  rw [Ending.bind_ok lift_get_apply]
  cases hv : (s.machine.fields id).get? name.lexeme with
  | some v => exact pure hu h (hu.fields h hv)
  | none =>
    cases hf : c.findMethod name.lexeme with
    | some f => exact method hu (hb.attach id h hc hf)
    | none => exact fail hu h name trivial

theorem superMethod (hb : u.Binds) (h : u.Good s) (id : Nat) (keyword name : Token) :
    u.Keeps s u.Fine (Trace.superMethod id keyword name s) := by
  unfold Trace.superMethod
  rw [Ending.bind_ok (note_apply _)]
  have ho := hu.referred ⟨.parent, id, keyword⟩ h
  have hg := hu.good ho
  refine .after hu ho ?_
  rw [Ending.bind_ok lift_get_apply]
  -- unless there is a class and an object where they are looked for
  have hmissed : ∀ {t fault}, Missed ⟨.parent, id, keyword⟩ s.machine →
      u.Keeps (s.note (.referred ⟨.parent, id, keyword⟩ s.machine)) u.Fine
        (lift (Eval.fail t fault) (s.note (.referred ⟨.parent, id, keyword⟩ s.machine))) :=
    fun hm => ⟨hu.refl hg, hu.missed _ _ hm⟩
  have hmachine : (s.note (.referred ⟨.parent, id, keyword⟩ s.machine)).machine = s.machine := rfl
  rw [hmachine]
  cases hd : s.machine.distances[id]? with
  | none =>
    refine hmissed fun d hd' => ?_
    rw [hd] at hd'
    cases hd'
  | some d =>
    dsimp only
    have hclass : (∀ c, s.machine.frames.getAt? s.machine.env d "super" ≠ some (.classDef c)) →
        Missed ⟨.parent, id, keyword⟩ s.machine := by
      intro hne d' hd' hboth
      cases hd.symm.trans hd'
      obtain ⟨⟨c, hc⟩, -⟩ := hboth
      exact hne c hc
    have hobject : (∀ oid c, s.machine.frames.getAt? s.machine.env (d - 1) "this" ≠ some (.object oid c)) →
        Missed ⟨.parent, id, keyword⟩ s.machine := by
      intro hne d' hd' hboth
      cases hd.symm.trans hd'
      obtain ⟨-, oid, c, hc⟩ := hboth
      exact hne oid c hc
    cases hparent : s.machine.frames.getAt? s.machine.env d "super" with
    | none => exact hmissed (hclass (by simp [hparent]))
    | some v =>
      cases v with
      | classDef parent =>
        cases hthis : s.machine.frames.getAt? s.machine.env (d - 1) "this" with
        | none => exact hmissed (hobject (by simp [hthis]))
        | some w =>
          cases w with
          | object oid c =>
            dsimp only
            cases hf : parent.findMethod name.lexeme with
            | some f => exact method hu (hb.inherited hg rfl hd hparent hthis hf)
            | none => exact fail hu hg name trivial
          | _ => exact hmissed (hobject (by simp [hthis]))
      | _ => exact hmissed (hclass (by simp [hparent]))

theorem defineClass (hb : u.Binds) (h : u.Good s) {name : Token} (hn : name.Free) {parent : Option Class}
    (hparent : ∀ c, parent = some c → u.Fine (.classDef c) s) {methods : List Routine}
    (hr : Routine.AllRegular methods) (hc : u.strict → Routine.MethodsConfined methods) :
    u.Keeps s (fun _ _ => True) (Trace.defineClass name parent methods s) := by
  unfold Trace.defineClass
  refine .bind hu (hb.methodEnv name.lexeme h hparent hr hc) fun env s₁ _ h₁ hd => ?_
  have href : u.Keeps s₁ (fun _ _ => True) (lift Eval.newRef s₁) := ⟨hu.same h₁ rfl rfl rfl, trivial⟩
  exact .bind hu href fun ref s₂ ho h₂ _ => store hu h₂ _ hn (hu.fine ho (hd ref))

/-- A script that is read is a program that passed. -/
theorem readScript (h : u.Good s) (path : String) :
    u.Keeps s (fun program _ => Stmt.AllRegular program ∧ Stmt.AllConfined .topLevel false program)
      (Trace.readScript host path s) := by
  unfold Trace.readScript
  rw [Ending.bind_ok lift_get_apply]
  cases hr : host.read path with
  | error fault =>
    have hl : Eval.readScript host path s.machine = .error (.failed (.script path [.io fault])) s.machine := by
      rw [Eval.readScript, hr]
    rw [Ending.bind_error (lift_error hl)]
    exact ⟨hu.refl h, (hu.permits _).unreadable path fault⟩
  | ok source =>
    have hc := compiled s.machine source
    have hscript := @Host.Permits.script _ _ (hu.permits s.log) path source s.machine
    cases hm : s.machine.compile source with
    | mk result m =>
      rw [hm] at hc hscript
      have hs : u.Onward s { s with machine := m } := hu.same h hc.frames hc.objects hc.env
      cases result with
      | error es =>
        have hl : Eval.readScript host path s.machine = .error (.failed (.script path es)) m := by
          simp only [Eval.readScript, hr, hm]
        rw [Ending.bind_error (lift_error hl)]
        exact ⟨hs, hscript rfl⟩
      | ok accepted =>
        obtain ⟨program, warnings⟩ := accepted
        have hprogram := Machine.orderly_of_compile hm
        have hl : Eval.readScript host path s.machine = .ok program (m.queueWarnings warnings) := by
          simp only [Eval.readScript, hr, hm]
        rw [Ending.bind_ok (lift_ok hl)]
        have hqueue : u.Onward s { s with machine := m.queueWarnings warnings } :=
          hu.trans hs (hu.same (hu.good hs) rfl rfl rfl)
        exact ⟨hu.trans hqueue (hu.accepted _ (hu.good hqueue) hprogram.1 hprogram.2), hprogram⟩

end Sound
end Upkeep

/-! ## Runs -/

/-- What holds of all runs of depth `n`. -/
structure RunsKeep (u : Upkeep) (host : Host) (n : Nat) : Prop where
  evaluate : ∀ {s e}, u.Good s → e.Regular → u.Keeps s u.Fine (evaluate host n e s)
  evaluateAll : ∀ {s es}, u.Good s → Expr.AllRegular es →
    u.Keeps s (fun vs s' => ∀ v ∈ vs, u.Fine v s') (evaluateAll host n es s)
  call : ∀ {s f args} (paren : Token), u.Good s → u.Fine f s → (∀ v ∈ args, u.Fine v s) →
    u.Keeps s u.Fine (call host n paren f args s)
  callClosure : ∀ {s f args} (paren : Token), u.Good s → u.Ready f s → (∀ v ∈ args, u.Fine v s) →
    u.Keeps s u.Fine (callClosure host n paren f args s)
  execute : ∀ {s role inLoop st}, u.Good s → Stmt.Regular st → (u.strict → Stmt.Confined role inLoop st) →
    u.Keeps s (fun flow s' => u.Fine flow.result s') (execute host n st s)
  executeAll : ∀ {s role inLoop ss}, u.Good s → Stmt.AllRegular ss → (u.strict → Stmt.AllConfined role inLoop ss) →
    u.Keeps s (fun flow s' => u.Fine flow.result s') (executeAll host n ss s)
  repeatWhile : ∀ {s role cond body}, u.Good s → Expr.Regular cond → Stmt.Regular body →
    (u.strict → Stmt.Confined role true body) →
    u.Keeps s (fun flow s' => u.Fine flow.result s') (repeatWhile host n cond body s)
  load : ∀ {s} (keyword : Token) (path : String), u.Good s →
    u.Keeps s (fun _ _ => True) (load host n keyword path s)
  interpret : ∀ {s program}, u.Good s → Stmt.AllRegular program →
    (u.strict → Stmt.AllConfined .topLevel false program) →
    u.Keeps s (fun _ _ => True) (interpret host n program s)

namespace RunsKeep

open Upkeep

variable {u : Upkeep} {host : Host} (hu : u.Sound host) {n : Nat} {s : State} {role : RoutineRole} {inLoop : Bool}
include hu

theorem next_evaluate (hb : u.Binds) (ih : RunsKeep u host n) {e : Expr} (h : u.Good s) (he : e.Regular) :
    u.Keeps s u.Fine (Trace.evaluate host (n + 1) e s) := by
  cases e with
  | literal v => exact hu.pure h (hu.plain (by cases v <;> rfl))
  | group inner => exact ih.evaluate h he
  | unary op right =>
    refine .bind hu (ih.evaluate h he.2) fun v s₁ _ h₁ _ => hu.settles h₁ (Eval.unaryOp_settles he.1 v) fun _ hf => ?_
    obtain rfl := List.mem_singleton.1 hf
    trivial
  | binary left op right =>
    refine .bind hu (ih.evaluate h he.2.1) fun v s₁ _ h₁ _ => ?_
    refine .bind hu (ih.evaluate h₁ he.2.2) fun w s₂ _ h₂ _ => ?_
    refine hu.settles h₂ (Eval.binaryOp_settles he.1 v w) fun _ hf => ?_
    simp only [List.mem_cons, List.not_mem_nil, or_false] at hf
    rcases hf with rfl | rfl
    · trivial
    · trivial
  | logical left op right =>
    refine .bind hu (ih.evaluate h he.1) fun v s₁ _ h₁ hv => ?_
    split
    · exact hu.pure h₁ hv
    · exact ih.evaluate h₁ he.2
  | var id name => exact hu.lookUp h (.inl he)
  | assign id name value =>
    refine .bind hu (ih.evaluate h he.2) fun v s₁ _ h₁ hv => ?_
    exact .bind hu (hu.assign h₁ ⟨.write, id, name⟩ he.1 hv) fun _ s₂ ho h₂ _ => hu.pure h₂ (hu.fine ho hv)
  | call callee paren args =>
    refine .bind hu (ih.evaluate h he.1) fun f s₁ _ h₁ hf => ?_
    refine .bind hu (ih.evaluateAll h₁ he.2) fun vs s₂ ho h₂ hvs => ?_
    cases f.callable? with
    | none => exact hu.fail h₂ paren trivial
    | some c =>
      dsimp only
      split
      · exact ih.call paren h₂ (hu.fine ho hf) hvs
      · exact hu.fail h₂ paren trivial
  | get object name =>
    refine .bind hu (ih.evaluate h he) fun v s₁ _ h₁ hv => ?_
    cases v with
    | object id c => exact hu.getProperty hb h₁ id (hu.object.1 hv) name
    | _ => exact hu.fail h₁ name trivial
  | set object name value =>
    refine .bind hu (ih.evaluate h he.1) fun v s₁ _ h₁ hv => ?_
    cases v with
    | object id c =>
      refine .bind hu (ih.evaluate h₁ he.2) fun w s₂ _ h₂ hw => ?_
      have hset : u.Keeps s₂ (fun _ _ => True) (lift (Eval.setField id name w) s₂) :=
        ⟨hu.setField id name.lexeme h₂ hw, trivial⟩
      exact .bind hu hset fun _ s₃ ho h₃ _ => hu.pure h₃ (hu.fine ho hw)
    | _ => exact hu.fail h₁ name trivial
  | thisRef id keyword => exact hu.lookUp h (.inr rfl)
  | superRef id keyword method => exact hu.superMethod hb h id keyword method

theorem next_evaluateAll (ih : RunsKeep u host n) {es : List Expr} (h : u.Good s) (hes : Expr.AllRegular es) :
    u.Keeps s (fun vs s' => ∀ v ∈ vs, u.Fine v s') (Trace.evaluateAll host (n + 1) es s) := by
  cases es with
  | nil => exact hu.pure h (List.forall_mem_nil _)
  | cons e rest =>
    refine .bind hu (ih.evaluate h hes.1) fun v s₁ _ h₁ hv => ?_
    refine .bind hu (ih.evaluateAll h₁ hes.2) fun vs s₂ ho h₂ hvs => ?_
    exact hu.pure h₂ (List.forall_mem_cons.2 ⟨hu.fine ho hv, hvs⟩)

theorem next_call (hb : u.Binds) (ih : RunsKeep u host n) {f : Value} {args : List Value} (paren : Token) (h : u.Good s)
    (hf : u.Fine f s) (ha : ∀ v ∈ args, u.Fine v s) : u.Keeps s u.Fine (Trace.call host (n + 1) paren f args s) := by
  cases f with
  | native f => exact hu.callNative h paren f ha
  | function id f => exact ih.callClosure paren h (hu.function.1 hf) ha
  | classDef c =>
    have hnew : u.Keeps s (fun v _ => ∃ id, v = .object id c) (lift (Eval.newObject c) s) := ⟨hu.newObject h, _, rfl⟩
    refine .bind hu hnew fun receiver s₁ ho₁ h₁ hr => ?_
    obtain ⟨id, rfl⟩ := hr
    have hc := hu.fine ho₁ hf
    cases hi : c.initializer? with
    | none => exact hu.pure h₁ (hu.object.2 hc)
    | some init =>
      refine .bind hu (hb.attach id h₁ hc hi) fun g s₂ ho₂ h₂ hg => ?_
      have hargs : ∀ v ∈ args, u.Fine v s₂ := fun v hv => hu.fine (hu.trans ho₁ ho₂) (ha v hv)
      refine .bind hu (ih.callClosure paren h₂ hg hargs) fun _ s₃ ho₃ h₃ _ => ?_
      exact hu.pure h₃ (hu.object.2 (hu.fine (hu.trans ho₂ ho₃) hc))
  | _ => exact hu.fail h paren trivial

theorem next_callClosure (ih : RunsKeep u host n) {f : Closure} {args : List Value} (paren : Token) (h : u.Good s)
    (hf : u.Ready f s) (ha : ∀ v ∈ args, u.Fine v s) :
    u.Keeps s u.Fine (Trace.callClosure host (n + 1) paren f args s) := by
  obtain ⟨hbody, role, hconfined⟩ := hu.body hf
  obtain ⟨henter, hinner⟩ := hu.routine h hf ha
  rw [Trace.callClosure, Ending.bind_ok (extend_apply _ _ _)]
  refine .after hu henter ?_
  -- the body is run in the new frame, and the caller goes on where it was
  refine .bind hu (hu.inEnv (hu.good henter) (ih.executeAll hinner hbody hconfined) fun _ _ hq => hu.fine_inEnv _ hq)
    fun flow s₂ ho h₂ hflow => ?_
  split
  case isTrue hinit =>
    rw [Ending.bind_ok lift_get_apply]
    cases hv : s₂.machine.frames.getAt? f.env 0 "this" with
    | none => exact ⟨hu.refl h₂, hu.unbound paren hf (hu.trans henter ho) hinit hv⟩
    | some v =>
      obtain ⟨i, -, hi⟩ := Frames.read_of_getAt? hv
      exact hu.pure h₂ (hu.frames h₂ hi)
  case isFalse => exact hu.pure h₂ hflow

theorem normal (h : u.Good s) :
    u.Keeps s (fun flow s' => u.Fine flow.result s') ((Pure.pure .normal : Traced Flow) s) :=
  hu.pure h (hu.plain rfl)

/-- A value is found and then given a name. -/
theorem define_value {p : Traced Value} {name : Token} (hn : name.Free) (hv : u.Keeps s u.Fine (p s)) :
    u.Keeps s (fun flow s' => u.Fine flow.result s')
      ((do let v ← p
           lift (Eval.define name.lexeme v)
           return .normal : Traced Flow) s) :=
  .bind hu hv fun _ _ _ h₁ hv => .bind hu (hu.bind_name h₁ hn hv) fun _ _ _ h₂ _ => normal hu h₂

theorem execute_classDecl (hb : u.Binds) (ih : RunsKeep u host n) {name : Token} {superclass : Option Expr}
    {methods : List Routine} (h : u.Good s) (hr : (Stmt.classDecl name superclass methods).Regular)
    (hc : u.strict → Routine.MethodsConfined methods) :
    u.Keeps s (fun flow s' => u.Fine flow.result s')
      (Trace.execute host (n + 1) (.classDecl name superclass methods) s) := by
  obtain ⟨hname, hsuper, hmethods⟩ := hr
  -- whichever way the superclass is found, the class is made on top of it
  have hrest : ∀ {s' : State} {p : Traced (Option Class)},
      u.Keeps s' (fun parent s' => ∀ c, parent = some c → u.Fine (.classDef c) s') (p s') →
      u.Keeps s' (fun flow s' => u.Fine flow.result s')
        ((do let parent ← p
             Trace.defineClass name parent methods
             return .normal : Traced Flow) s') :=
    fun hp => .bind hu hp fun _ _ _ h₂ hparent =>
      .bind hu (hu.defineClass hb h₂ hname hparent hmethods hc) fun _ _ _ h₃ _ => normal hu h₃
  refine .bind hu (hu.bind_name h hname (hu.plain rfl)) fun _ s₁ _ h₁ _ => ?_
  cases superclass with
  | none => exact hrest (hu.pure h₁ nofun)
  | some e =>
    refine .bind hu (ih.evaluate h₁ hsuper) fun v s₂ _ h₂ hv => ?_
    cases v with
    | classDef c =>
      refine hrest (hu.pure h₂ ?_)
      rintro _ ⟨⟩
      exact hv
    | _ => exact hrest (hu.fail h₂ _ trivial)

theorem next_execute (hb : u.Binds) (ih : RunsKeep u host n) {st : Stmt} (h : u.Good s) (hr : st.Regular)
    (hc : u.strict → st.Confined role inLoop) :
    u.Keeps s (fun flow s' => u.Fine flow.result s') (Trace.execute host (n + 1) st s) := by
  cases st with
  | expr e => exact .bind hu (ih.evaluate h hr) fun _ _ _ h₁ _ => normal hu h₁
  | print e =>
    refine .bind hu (ih.evaluate h hr) fun v s₁ _ h₁ _ => ?_
    exact .bind hu (hu.writeLine h₁ v.text) fun _ _ _ h₂ _ => normal hu h₂
  | varDecl name init =>
    cases init with
    | none => exact define_value hu (p := pure .nil) hr.1 (hu.pure h (hu.plain rfl))
    | some e => exact define_value hu hr.1 (ih.evaluate h hr.2)
  | block body =>
    have hbegan : u.Onward s (s.note (.began (.block body) s.machine)) := hu.began h hr
    rw [Trace.execute, Ending.bind_ok (note_apply _), Ending.bind_ok lift_get_apply,
      Ending.bind_ok (extend_apply _ _ _)]
    obtain ⟨henter, hinner⟩ := hu.block body (hu.good hbegan)
    refine .after hu (hu.trans hbegan henter) ?_
    exact hu.inEnv (hu.good henter) (ih.executeAll hinner hr hc) fun _ _ hq => hu.fine_inEnv _ hq
  | branch cond yes no =>
    cases no with
    | none =>
      refine .bind hu (ih.evaluate h hr.1) fun v s₁ _ h₁ _ => ?_
      split
      · exact ih.execute h₁ hr.2 hc
      · exact normal hu h₁
    | some no =>
      refine .bind hu (ih.evaluate h hr.1) fun v s₁ _ h₁ _ => ?_
      split
      · exact ih.execute h₁ hr.2.1 fun hs => (hc hs).1
      · exact ih.execute h₁ hr.2.2 fun hs => (hc hs).2
  | loop cond body =>
    have hbegan : u.Onward s (s.note (.began (.loop cond body) s.machine)) := hu.began h hr
    rw [Trace.execute, Ending.bind_ok (note_apply _)]
    exact .after hu hbegan (ih.repeatWhile (hu.good hbegan) hr.1 hr.2 hc)
  | breakLoop keyword => exact hu.pure h (hu.plain rfl)
  | function decl =>
    rw [Trace.execute, Ending.bind_ok lift_get_apply]
    exact define_value hu (Routine.regular_iff.1 hr).1 (hu.newFunction h (hu.closure h hr hc))
  | returnWith keyword value =>
    cases value with
    | none => exact hu.pure h (hu.plain rfl)
    | some e => exact .bind hu (ih.evaluate h hr) fun _ _ _ h₁ hv => hu.pure h₁ hv
  | classDecl name superclass methods => exact ih.execute_classDecl hu hb h hr hc
  | execute keyword path =>
    refine .bind hu (ih.evaluate h hr) fun v s₁ _ h₁ _ => ?_
    cases v with
    | string path => exact .bind hu (ih.load keyword path h₁) fun _ _ _ h₂ _ => normal hu h₂
    | _ => exact hu.fail h₁ keyword trivial

theorem next_executeAll (ih : RunsKeep u host n) {ss : List Stmt} (h : u.Good s) (hr : Stmt.AllRegular ss)
    (hc : u.strict → Stmt.AllConfined role inLoop ss) :
    u.Keeps s (fun flow s' => u.Fine flow.result s') (Trace.executeAll host (n + 1) ss s) := by
  cases ss with
  | nil => exact normal hu h
  | cons st rest =>
    refine .bind hu (ih.execute h hr.1 fun hs => (hc hs).1) fun flow s₁ _ h₁ hflow => ?_
    cases flow with
    | normal => exact ih.executeAll h₁ hr.2 fun hs => (hc hs).2
    | broke => exact hu.pure h₁ hflow
    | returned v => exact hu.pure h₁ hflow

theorem next_repeatWhile (ih : RunsKeep u host n) {cond : Expr} {body : Stmt} (h : u.Good s) (hcond : cond.Regular)
    (hr : body.Regular) (hc : u.strict → body.Confined role true) :
    u.Keeps s (fun flow s' => u.Fine flow.result s') (Trace.repeatWhile host (n + 1) cond body s) := by
  refine .bind hu (ih.evaluate h hcond) fun v s₁ _ h₁ _ => ?_
  split
  · refine .bind hu (ih.execute h₁ hr hc) fun flow s₂ _ h₂ hflow => ?_
    cases flow with
    | normal => exact ih.repeatWhile h₂ hcond hr hc
    | broke => exact normal hu h₂
    | returned v => exact hu.pure h₂ hflow
  · exact normal hu h₁

theorem next_load (ih : RunsKeep u host n) (keyword : Token) (path : String) (h : u.Good s) :
    u.Keeps s (fun _ _ => True) (Trace.load host (n + 1) keyword path s) := by
  rw [Trace.load]
  cases hl : host.loader with
  | absent => exact ⟨hu.refl h, (hu.permits _).absent keyword hl⟩
  | custom f =>
    have hs := hu.onlyGlobals h (hu.honest.loader f hl path s.machine)
    have he := @Host.Permits.loader _ _ (hu.permits s.log) path f s.machine
    dsimp only [lift]
    cases hf : f path s.machine with
    | mk result m =>
      rw [hf] at hs he
      cases result with
      | ok _ => exact ⟨hs, trivial⟩
      | error e => exact ⟨hs, he hl rfl⟩
  | files =>
    have hrequest : u.Keeps s (fun _ _ => True) (lift (Eval.request path) s) := ⟨hu.same h rfl rfl rfl, trivial⟩
    refine .bind hu hrequest fun _ s₁ _ h₁ _ => ?_
    refine .bind hu (hu.readScript h₁ path) fun program s₂ _ h₂ hprogram => ?_
    exact ih.interpret h₂ hprogram.1 fun _ => hprogram.2

theorem next_interpret (ih : RunsKeep u host n) {program : List Stmt} (h : u.Good s) (hr : Stmt.AllRegular program)
    (hc : u.strict → Stmt.AllConfined .topLevel false program) :
    u.Keeps s (fun _ _ => True) (Trace.interpret host (n + 1) program s) := by
  refine hu.flushing (hu.inEnv (Q := fun _ _ => True) h ?_ fun _ _ hq => hq)
  exact .bind hu (ih.executeAll (hu.globals h) hr hc) fun _ _ _ h₁ _ => hu.pure h₁ trivial

end RunsKeep

theorem Upkeep.Sound.runs {u : Upkeep} {host : Host} (hu : u.Sound host) (hb : u.Binds) (n : Nat) :
    RunsKeep u host n := by
  induction n with
  | zero =>
    exact
      { evaluate := fun h _ => hu.exhausted h
        evaluateAll := fun h _ => hu.exhausted h
        call := fun _ h _ _ => hu.exhausted h
        callClosure := fun _ h _ _ => hu.exhausted h
        execute := fun h _ _ => hu.exhausted h
        executeAll := fun h _ _ => hu.exhausted h
        repeatWhile := fun h _ _ _ => hu.exhausted h
        load := fun _ _ h => hu.exhausted h
        interpret := fun h _ _ => hu.exhausted h }
  | succ n ih =>
    exact
      { evaluate := ih.next_evaluate hu hb
        evaluateAll := ih.next_evaluateAll hu
        call := ih.next_call hu hb
        callClosure := ih.next_callClosure hu
        execute := ih.next_execute hu hb
        executeAll := ih.next_executeAll hu
        repeatWhile := ih.next_repeatWhile hu
        load := ih.next_load hu
        interpret := ih.next_interpret hu }

/-- A program that passed, run to any depth. -/
theorem Upkeep.Sound.run {u : Upkeep} {host : Host} (hu : u.Sound host) (hb : u.Binds) (n : Nat) {s : State}
    {program : List Stmt}
    (h : u.Good s) (hr : Stmt.AllRegular program) (hc : u.strict → Stmt.AllConfined .topLevel false program) :
    u.Onward s (Ending.state (interpret host n program s)) ∧
      ∀ e t, interpret host n program s = .error (.failed e) t → u.Errs t.log e := by
  have hk := (hu.runs hb n).interpret h hr hc
  cases hi : interpret host n program s with
  | ok a t =>
    rw [hi] at hk
    exact ⟨hk.1, nofun⟩
  | error e t =>
    rw [hi] at hk
    cases e with
    | exhausted => exact ⟨hk, nofun⟩
    | failed e =>
      refine ⟨hk.1, ?_⟩
      rintro _ _ ⟨⟩
      exact hk.2

end Trace
end Lox
