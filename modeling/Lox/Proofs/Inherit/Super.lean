import Lox.Proofs.Flow.Receivers
import Lox.Proofs.Inherit.Runs

/-!
# `super` is static and `this` is dynamic

A reference to `super` stands in a method of a class with a superclass. When it is evaluated, the frame of
the superclass and the frame of the object lie around the call of that method. The superclass is the one that the
class had when it was declared, the object is the one the method was called on, and nothing else
has a say in which method is found.
-/

namespace Lox
open Scoping

/-! ## Methods of a class and of those above it -/

/-- What the declaration of a class leaves on the machine. -/
structure ClassBody where
  env : Env
  methods : List Routine

/-- The last declaration of the name. -/
def ClassBody.method? (body : ClassBody) (name : String) : Option Closure :=
  (body.methods.reverse.find? (·.name.lexeme = name)).map (·.method body.env)

/-- The bodies of a class and of those above it, in this order. -/
inductive Class.Ancestry : Class → List ClassBody → Prop
  | base {id : Nat} {name : String} (body : ClassBody) :
      Ancestry ⟨id, name, none, Eval.methodTable body.env body.methods⟩ [body]
  | derived {id : Nat} {name : String} {parent : Class} {line : List ClassBody} (body : ClassBody) :
      Ancestry parent line →
      Ancestry ⟨id, name, some parent, Eval.methodTable body.env body.methods⟩ (body :: line)

/-- The nearest class that declares a method of the name counts. -/
theorem Class.Ancestry.findMethod_eq {c : Class} {line : List ClassBody} (h : c.Ancestry line)
    (name : String) : c.findMethod name = line.findSome? (·.method? name) := by
  induction h with
  | base body =>
    rw [Class.findMethod, Eval.get?_methodTable, List.findSome?_singleton, ← ClassBody.method?]
    cases body.method? name with
    | none => rfl
    | some f => rfl
  | derived body _ ih =>
    rw [Class.findMethod, Eval.get?_methodTable, List.findSome?_cons, ← ih, ← ClassBody.method?]
    cases body.method? name with
    | none => rfl
    | some f => rfl

theorem Trace.Declared.ancestry {s : State} {c : Class} (h : Declared s c) : ∃ line, c.Ancestry line := by
  induction h with
  | base => exact ⟨_, .base ⟨_, _⟩⟩
  | derived _ _ _ _ _ _ ih =>
    obtain ⟨line, hline⟩ := ih
    exact ⟨_, .derived ⟨_, _⟩ hline⟩

/-! ## Where `super` stands in a program -/

namespace Scoping

/-- The place is in a method of a class with a superclass, and in no such class within the method. -/
structure Within (sites inner outer : List Site) (decl : Routine) (methods : List Routine) : Prop where
  eq : sites = inner ++ .routine decl :: .receiver decl :: .parent methods :: outer
  mem : decl ∈ methods
  nearest : ∀ methods', .parent methods' ∉ inner

theorem Within.cons {site : Site} {sites inner outer : List Site} {decl : Routine} {methods : List Routine}
    (hsite : ∀ methods', site ≠ .parent methods') (h : Within sites inner outer decl methods) :
    Within (site :: sites) (site :: inner) outer decl methods where
  eq := congrArg (site :: ·) h.eq
  mem := h.mem
  nearest methods' hmem := by
    rcases List.mem_cons.1 hmem with heq | hmem
    · exact hsite methods' heq.symm
    · exact h.nearest methods' hmem

theorem Housed.within {role : ClassRole} {sites : List Site} {ps : List (Option Bool × Option Bool)}
    (h : Housed role sites ps) {d : Nat} (hd : ps.findIdx? (·.2.isSome) = some d) :
    ∃ inner outer decl methods, Within sites inner outer decl methods ∧ d = inner.length + 2 := by
  -- a scope that says nothing of `super` is one step more
  have hstep : ∀ {p : Option Bool × Option Bool} {ps d}, p.2 = none →
      (p :: ps).findIdx? (·.2.isSome) = some d → ∃ k, ps.findIdx? (·.2.isSome) = some k ∧ d = k + 1 := by
    intro p ps d hp hd
    rw [List.findIdx?_cons, hp] at hd
    obtain ⟨k, hk, rfl⟩ := Option.map_eq_some_iff.1 hd
    exact ⟨k, hk, rfl⟩
  induction h generalizing d with
  | nil => cases hd
  | block _ ih =>
    obtain ⟨k, hk, rfl⟩ := hstep rfl hd
    obtain ⟨inner, outer, decl, methods, hw, rfl⟩ := ih hk
    exact ⟨_, outer, decl, methods, hw.cons nofun, rfl⟩
  | routine _ ih =>
    obtain ⟨k, hk, rfl⟩ := hstep rfl hd
    obtain ⟨inner, outer, decl, methods, hw, rfl⟩ := ih hk
    exact ⟨_, outer, decl, methods, hw.cons nofun, rfl⟩
  | method _ ih =>
    obtain ⟨k', hk', rfl⟩ := hstep rfl hd
    obtain ⟨k, hk, rfl⟩ := hstep rfl hk'
    obtain ⟨inner, outer, decl, methods, hw, rfl⟩ := ih hk
    exact ⟨_, outer, decl, methods, .cons nofun (.cons nofun hw), rfl⟩
  | @derived _ sites ps decl methods hmem _ _ =>
    cases hd
    exact ⟨[], sites, decl, methods, ⟨rfl, hmem, fun _ => List.not_mem_nil⟩, rfl⟩

end Scoping

/-! ## Lineal sessions -/

namespace Trace

theorem lineal_start (host : Host) (output : Sink) : Lineal ⟨Machine.start host output, []⟩ where
  frames {i name v} hr := by
    obtain ⟨f, rfl⟩ := native_of_read_start hr
    trivial
  fields hr := by cases hr
  size := Nat.zero_lt_one
  linked := ⟨[], .globals⟩
  plain i outer henv hi := by
    cases henv
    exact absurd rfl hi
  entered := nofun
  younger := nofun
  referred := nofun
  recalled := nofun
  began := nofun

theorem lineal_run {host : Host} (hh : host.Honest) (base : Log) :
    Lasts host fun t => Lineal t ∧ base <:+ t.log := by
  refine .of_programs (fun h hc => ⟨(h.1.same hc.frames hc.objects hc.env).lineal, h.2⟩) ?_
  intro m m' log source program warnings fuel h hm
  have hc := compiled m source
  rw [hm] at hc
  have hl : Lineal ⟨m', log⟩ := (h.1.same hc.frames hc.objects hc.env).lineal
  have hacc : Lineal ⟨m', .accepted program m.distances :: log⟩ :=
    (hl.note (.accepted program m.distances) trivial).lineal
  have hrun := hacc.run hh fuel (Machine.orderly_of_compile hm).1
  exact ⟨hrun.lineal, (h.2.trans (List.suffix_cons _ log)).trans hrun.log⟩

theorem lineal_session {lines : List Session.Line} (hh : ∀ line ∈ lines, line.host.Honest) {s : Session}
    {log : Log} (h : Lineal ⟨s.machine, log⟩) : ∃ m, Lineal ⟨m, (session lines s log).2⟩ :=
  (Lasts.session (fun line hline => lineal_run (hh line hline) []) ⟨h, List.nil_suffix⟩).1.imp fun _ => And.left

/-! ## Which method `super` finds -/

theorem Chain.append {log : Log} {env : Env} {inner rest : List Site} (h : Chain log env (inner ++ rest)) :
    ∃ frames env', env = frames ++ env' ∧ frames.length = inner.length ∧ Chain log env' rest := by
  induction inner generalizing env with
  | nil => exact ⟨[], env, rfl, rfl, h⟩
  | cons site inner ih =>
    cases h with
    | @scope i env' _ _ he hc =>
      obtain ⟨frames, rest', rfl, hl, hc'⟩ := ih hc
      exact ⟨i :: frames, rest', rfl, congrArg (· + 1) hl, hc'⟩

/-- Where a reference to `super` stands in its program, and the frames around it: those of blocks and
functions within the method, that of the call, that of the object and that of the superclass. -/
structure Inside (log : Log) (id : Nat) (keyword : Token) (m : Machine) (decl : Routine)
    (methods : List Routine) (this home : Nat) (outer : Env) : Prop where
  place : ∃ v inner rest, Known log v ∧ v.ref = ⟨.parent, id, keyword⟩ ∧
    Within v.sites inner rest decl methods
  frames : ∃ inner call, m.env = inner ++ call :: this :: home :: outer ∧
    m.distances[id]? = some (inner.length + 2) ∧
    .entered (.routine decl) (this :: home :: outer) call ∈ log
  receiver : .entered (.receiver decl) (home :: outer) this ∈ log
  parent : .entered (.parent methods) outer home ∈ log

/-- Every reference to `super` is evaluated inside a method of a class with a superclass. -/
theorem exists_inside {m₁ : Machine} {log : Log} (hg : Good ⟨m₁, log⟩) {id : Nat}
    {keyword : Token} {m : Machine} (hr : .referred ⟨.parent, id, keyword⟩ m ∈ log) :
    ∃ decl methods this home outer, Inside log id keyword m decl methods this home outer := by
  obtain ⟨v, hv⟩ := hg.referred hr
  obtain ⟨p, distances, hp, hvisit⟩ := hv.known
  have hl := hg.programs hp
  have hacc : v.ref.access = .parent := congrArg Reference.access hv.about
  have hhoused := Stmt.housed_of_visitsProgram hl.wellFormed hl.regular hvisit
  obtain ⟨d, hd⟩ := Option.isSome_iff_exists.1
    ((Stmt.clean_of_analyse hl.wellFormed hl.regular hl.faultless hvisit).2 (.inr hacc))
  have hfound := Visit.distance_eq_some hd
  rw [hhoused.parent hacc] at hfound
  have hindex : ((outlines v.scopes).map Outline.reserved).findIdx? (·.2.isSome) = some d := by
    rw [List.findIdx?_map]
    exact hfound
  obtain ⟨_, hscopes, -⟩ := hhoused.scopes
  obtain ⟨inner, rest, decl, methods, hw, rfl⟩ := hscopes.within hindex
  have hchain := hv.chain
  rw [hw.eq] at hchain
  obtain ⟨frames, env, henv, hlen, hc⟩ := hchain.append
  rcases hc with _ | ⟨hcall, hc⟩
  rcases hc with _ | ⟨hthis, hc⟩
  rcases hc with _ | ⟨hhome, -⟩
  refine ⟨decl, methods, _, _, _, ⟨v, inner, rest, hv.known, hv.about, hw⟩,
    ⟨frames, _, henv, ?_, hcall⟩, hthis, hhome⟩
  rw [hlen, ← hd]
  exact hv.distance

theorem Inside.atHome {log : Log} {id : Nat} {keyword : Token} {m : Machine} {decl : Routine}
    {methods : List Routine} {this home : Nat} {outer : Env}
    (h : Inside log id keyword m decl methods this home outer) :
    ∃ d, m.distances[id]? = some d ∧ m.env[d]? = some home ∧ m.env[d - 1]? = some this := by
  obtain ⟨inner, call, henv, hd, -⟩ := h.frames
  refine ⟨_, hd, ?_, ?_⟩
  · rw [henv]
    simp
  · rw [henv]
    simp

theorem not_stray {m₁ : Machine} {log : Log} (hg : Good ⟨m₁, log⟩) :
    ¬ Stray log := by
  rintro ⟨⟨access, id, keyword⟩, m, hr, hacc, d, hd, hglobal⟩
  cases hacc
  obtain ⟨decl, methods, this, home, outer, hin⟩ := exists_inside hg hr
  obtain ⟨d', hd', hhome, hthis⟩ := hin.atHome
  cases hd.symm.trans hd'
  rcases hglobal with h0 | h0
  · cases h0.symm.trans hhome
    exact absurd (hg.entered hin.parent).1 (Nat.lt_irrefl _)
  · cases h0.symm.trans hthis
    exact absurd (hg.entered hin.receiver).1 (Nat.lt_irrefl _)

end Trace

/-- The outcome of `super`, from what it looks at. -/
theorem Eval.superMethod_of_found {m : Machine} {id d o : Nat} {keyword method : Token} {parent c : Class}
    (hd : m.distances[id]? = some d) (hsuper : m.frames.getAt? m.env d "super" = some (.classDef parent))
    (hthis : m.frames.getAt? m.env (d - 1) "this" = some (.object o c)) :
    (∀ f, parent.findMethod method.lexeme = some f →
      superMethod id keyword method m = .ok (.function m.nextRef { f with env := m.frames.size :: f.env })
        { m with frames := m.frames.add [("this", .object o c)], nextRef := m.nextRef + 1 }) ∧
    (parent.findMethod method.lexeme = none →
      superMethod id keyword method m =
        .error (.failed (.runtimeAt method (.undefinedProperty method.lexeme))) m) := by
  unfold superMethod
  rw [Ending.bind_ok Ending.get_apply]
  simp only [hd, hsuper, hthis]
  refine ⟨fun f hf => ?_, fun hf => ?_⟩
  · rw [hf]
    rfl
  · rw [hf]
    rfl

namespace Trace

/-- The class whose methods look names up in the frame of a superclass. -/
theorem Declared.of_home {m₁ m₂ : Machine} {log : Log} (hg : Good ⟨m₁, log⟩) {d parent : Class}
    (h : Declared ⟨m₂, log⟩ d) {name : String} {decl : Routine} {methods : List Routine} {home : Nat}
    {outer : Env} (hm : d.methods.get? name = some (decl.method (home :: outer)))
    (he : .entered (.parent methods) outer home ∈ log)
    (hv : m₂.frames.read home "super" = some (.classDef parent)) :
    d.superclass = some parent ∧ d.methods = Eval.methodTable (home :: outer) methods ∧
      Declared ⟨m₂, log⟩ parent := by
  have hhome : home ≠ Machine.globalFrame := Nat.ne_of_gt (hg.entered he).1
  have hsuper := h.superclass_eq hm hhome hv
  cases h with
  | base => cases hsuper
  | derived _ _ he' _ _ hparent =>
    cases hsuper
    have henv := congrArg Closure.env (Eval.of_get?_methodTable hm).2
    obtain ⟨rfl, rfl⟩ := List.cons.inj henv
    obtain ⟨hsite, -⟩ := hg.once he he'
    cases hsite
    exact ⟨rfl, rfl, hparent⟩

/-- The methods of `c` see its superclass in the frame `home`, and the object in the frame `this` is of
that class or of one below it. -/
structure Holds (m : Machine) (methods : List Routine) (this home : Nat) (outer : Env)
    (c parent receiver : Class) (o : Nat) : Prop where
  superclass : c.superclass = some parent
  methods : c.methods = Eval.methodTable (home :: outer) methods
  home : m.frames.read home "super" = some (.classDef parent)
  this : m.frames.read this "this" = some (.object o receiver)
  descends : receiver.Descends c

/-- On every machine with the same two frames around the reference, `super` gives the last declaration in
the first of the bodies that has one, bound to the object, and fails if there is none. -/
def Finds (m : Machine) (id : Nat) (keyword : Token) (this home : Nat) (receiver : Class) (o : Nat)
    (line : List ClassBody) : Prop :=
  ∀ (method : Token) (m' : Machine), m'.env = m.env → m'.distances[id]? = m.distances[id]? →
    m'.frames.read home "super" = m.frames.read home "super" →
    m'.frames.read this "this" = m.frames.read this "this" →
    (∀ f, line.findSome? (·.method? method.lexeme) = some f →
      Eval.superMethod id keyword method m' =
        .ok (.function m'.nextRef { f with env := m'.frames.size :: f.env })
          { m' with
            frames := m'.frames.add [("this", .object o receiver)]
            nextRef := m'.nextRef + 1 }) ∧
    (line.findSome? (·.method? method.lexeme) = none →
      Eval.superMethod id keyword method m' =
        .error (.failed (.runtimeAt method (.undefinedProperty method.lexeme))) m')

/-- Whenever `super` is evaluated in a session of honest hosts, it is in a call of a method of a class
with a superclass, on an object of that class or of one below it. What is found depends on that superclass
and that object alone: neither fields, nor classes below the superclass, nor any variable has a say. -/
theorem session_super_static (host : Host) (output diagnostics : Sink) {lines : List Session.Line}
    (hh : ∀ line ∈ lines, line.host.Honest) :
    (session lines (.start host output diagnostics) []).1 =
      (Session.start host output diagnostics).runAll lines ∧
    ∀ id keyword m,
      .referred ⟨.parent, id, keyword⟩ m ∈ (session lines (.start host output diagnostics) []).2 →
      ∃ decl methods this home outer,
        Inside (session lines (.start host output diagnostics) []).2 id keyword m decl methods this home outer ∧
        ∃ c parent receiver o line, Holds m methods this home outer c parent receiver o ∧
          parent.Ancestry line ∧ Finds m id keyword this home receiver o line := by
  refine ⟨session_fst _ _ _, fun id keyword m hr => ?_⟩
  obtain ⟨m₁, hg⟩ := good_session (s := .start host output diagnostics) hh (good_start host output)
  obtain ⟨m₂, ho⟩ := orderly_session (s := .start host output diagnostics) hh (orderly_start host output)
  obtain ⟨m₃, hl⟩ := lineal_session (s := .start host output diagnostics) hh (lineal_start host output)
  generalize (session lines (.start host output diagnostics) []).2 = log at hr hg ho hl
  obtain ⟨decl, methods, this, home, outer, hin⟩ := exists_inside hg hr
  obtain ⟨d, hd, hhome, hthis⟩ := hin.atHome
  refine ⟨decl, methods, this, home, outer, hin, ?_⟩
  -- what the two frames bind, then and at the end
  have hmissed := not_missed hg ho hr
  have hfixes := hl.referred hr
  obtain ⟨hhome0, -, -⟩ := hl.entered hin.parent
  obtain ⟨hthis0, -, -, o', receiver', hend, hattached⟩ := hl.entered hin.receiver
  have hfound : ∃ parent o receiver, m.frames.read home "super" = some (.classDef parent) ∧
      m.frames.read this "this" = some (.object o receiver) := by
    by_contra hnot
    refine hmissed fun d' hd' hboth => hnot ?_
    cases hd.symm.trans hd'
    obtain ⟨⟨parent, hparent⟩, o, receiver, hobject⟩ := hboth
    rw [Frames.getAt?, hhome] at hparent
    rw [Frames.getAt?, hthis] at hobject
    exact ⟨parent, o, receiver, hparent, hobject⟩
  obtain ⟨parent, o, receiver, hparent, hobject⟩ := hfound
  have hobject' := (hfixes.receiver hthis0 (Frames.lt_size_of_read hobject)).trans hobject
  obtain ⟨rfl, rfl⟩ := Value.object.inj (Option.some.inj (hobject'.symm.trans hend))
  obtain ⟨c, name, hdescends, hdeclared, hm⟩ := hattached.resolve_right (not_stray hg)
  obtain ⟨hsuper, htable, hparentDeclared⟩ :=
    hdeclared.of_home hg hm hin.parent (hfixes.read_parent hhome0 hparent)
  obtain ⟨line, hline⟩ := hparentDeclared.ancestry
  refine ⟨c, parent, receiver, o, line, ⟨hsuper, htable, hparent, hobject, hdescends⟩, hline, ?_⟩
  intro method m' henv hdistance hsame hsame'
  rw [← hline.findMethod_eq]
  refine Eval.superMethod_of_found (hdistance.trans hd) ?_ ?_
  · rw [Frames.getAt?, henv, hhome]
    exact hsame.trans hparent
  · rw [Frames.getAt?, henv, hthis]
    exact hsame'.trans hobject

/-- A method that is declared twice, overridden below and hidden by a field, in classes whose variables are
given other values before `super` is evaluated in a function within a method. -/
def superText : List Session.Line :=
  [⟨{}, 40, "class A \x7b n() \x7b print 1; \x7d n() \x7b print 2; \x7d \x7d"⟩,
   ⟨{}, 40, "class B < A \x7b n() \x7b print 3; \x7d " ++
    "m() \x7b fun g() \x7b super.n(); \x7d B = nil; A = nil; g(); \x7d \x7d"⟩,
   ⟨{}, 40, "class C < B \x7b n() \x7b print 4; \x7d \x7d var c = C(); c.n = 5; c.m();"⟩]

theorem session_super_static_superText :
    (∀ line ∈ superText, line.host.Honest) ∧
    ((session superText (.start {} {} {}) []).2.filterMap fun
        | .referred ⟨.parent, _, keyword⟩ _ => some keyword.lexeme
        | _ => none) = ["super"] ∧
    ((Session.start {} {} {}).runAll superText).map (·.machine.output.text) = some "2\n" ∧
    ∀ id keyword m, .referred ⟨.parent, id, keyword⟩ m ∈ (session superText (.start {} {} {}) []).2 →
      ∃ decl methods this home outer,
        Inside (session superText (.start {} {} {}) []).2 id keyword m decl methods this home outer ∧
        ∃ c parent receiver o line, Holds m methods this home outer c parent receiver o ∧
          parent.Ancestry line ∧ Finds m id keyword this home receiver o line :=
  have hh : ∀ line ∈ superText, line.host.Honest := by simp [superText, honest_default]
  ⟨hh, by decide +kernel, by decide +kernel, (session_super_static {} {} {} hh).2⟩

end Trace
end Lox
