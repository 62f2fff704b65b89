import Lox.Proofs.Construct.Calls

/-!
# Construction in a session

At every moment of a session, calls of classes and of initializers keep to the rules that are gathered here.
-/

namespace Lox
open Ending Eval

/-- How classes and initializers are called at these moments. -/
structure Moment.Initializing (S : Moment → Prop) : Prop where
  /-- The number of arguments is wrong if and only if the call fails at once, on the machine that they have left. -/
  rejects : ∀ {host n callee paren args m c vs m'}, S ⟨host, .expr (.call callee paren args), n + 1, m⟩ →
    Calls host n callee args m (.classDef c) vs m' → ∃ k, c.Takes k ∧
      (evaluate host (n + 1) (.call callee paren args) m =
        .error (.failed (.runtimeAt paren (.arity k vs.length))) m' ↔ vs.length ≠ k)
  /-- The number of a new instance is that of no value which there is, nor of one which an expression gave before. -/
  fresh : ∀ {host n callee paren args m c vs m'}, S ⟨host, .expr (.call callee paren args), n + 1, m⟩ →
    Calls host n callee args m (.classDef c) vs m' → ∀ d, .object m'.objects.size d ∉ vs ∧
      (∀ i name, m'.frames.read i name ≠ some (.object m'.objects.size d)) ∧
      (∀ id name, (m'.fields id).get? name ≠ some (.object m'.objects.size d)) ∧
      ∀ host k e m₁ m₂, S ⟨host, .expr e, k, m₁⟩ → evaluate host k e m₁ = .ok (.object m'.objects.size d) m₂ →
        m'.objects.size < m₂.objects.size
  /-- Without an initializer the instance is made, and that is all. -/
  creates : ∀ {host n callee paren args m c m'}, S ⟨host, .expr (.call callee paren args), n + 2, m⟩ →
    Calls host (n + 1) callee args m (.classDef c) [] m' → (∀ init, ¬ c.Nearest initName init) →
    evaluate host (n + 2) (.call callee paren args) m =
      .ok (.object m'.objects.size c) { m' with objects := m'.objects.push [] }
  /-- The nearest initializer is run on the new instance, which is what the call gives unless that fails. -/
  initializes : ∀ {host n callee paren args m c vs m' init}, S ⟨host, .expr (.call callee paren args), n + 3, m⟩ →
    Calls host (n + 2) callee args m (.classDef c) vs m' → c.Nearest initName init →
    vs.length = init.decl.params.length →
    c.Begins init vs m' (c.begin init vs m') ∧
      evaluate host (n + 3) (.call callee paren args) m =
        returning (.object m'.objects.size c) m'.env (executeAll host n init.decl.body (c.begin init vs m'))
  /-- Any other call of an initializer gives the one receiver that it was bound to, unless its body fails. -/
  returns : ∀ {host n callee paren args m ref f vs m'}, S ⟨host, .expr (.call callee paren args), n + 3, m⟩ →
    Calls host (n + 2) callee args m (.function ref f) vs m' → f.isInitializer = true →
    vs.length = f.decl.params.length →
    ∃ receiver, Binds S f receiver ∧ (∀ other, Binds S f other → other = receiver) ∧
      evaluate host (n + 3) (.call callee paren args) m =
        returning receiver m'.env (executeAll host n f.decl.body (f.enter vs m'))
  /-- What is bound is bound to an object, and is an initializer by its name. -/
  bound : ∀ {f receiver}, Binds S f receiver →
    (∃ id c, receiver = .object id c) ∧ (f.isInitializer = true ↔ f.decl.name.lexeme = initName)
  /-- The method of an object is bound to that object. -/
  property : ∀ {host n object name m id c m₁ ref f m₂}, S ⟨host, .expr (.get object name), n + 1, m⟩ →
    evaluate host n object m = .ok (.object id c) m₁ → (m₁.fields id).get? name.lexeme = none →
    evaluate host (n + 1) (.get object name) m = .ok (.function ref f) m₂ → Binds S f (.object id c)
  /-- The method of a superclass is bound to the present object. -/
  inherited : ∀ {host n id keyword method m ref f m₁}, S ⟨host, .expr (.superRef id keyword method), n + 1, m⟩ →
    evaluate host (n + 1) (.superRef id keyword method) m = .ok (.function ref f) m₁ →
    ∃ d receiver, m.distances[id]? = some d ∧ m.frames.getAt? m.env (d - 1) "this" = some receiver ∧
      Binds S f receiver

namespace Moment.Course

variable {host : Host} {S : Moment → Prop} {last : Machine} (h : Course S last)
include h

theorem rejects {n : Nat} {callee : Expr} {paren : Token} {args : List Expr} {m m' : Machine} {c : Class}
    {vs : List Value} (hν : S ⟨host, .expr (.call callee paren args), n + 1, m⟩)
    (hc : Calls host n callee args m (.classDef c) vs m') :
    evaluate host (n + 1) (.call callee paren args) m =
      .error (.failed (.runtimeAt paren (.arity c.arity vs.length))) m' ↔ vs.length ≠ c.arity := by
  have hcallable : (Value.classDef c).callable? = some (c.name, c.arity) := rfl
  rw [hc.evaluate_eq hcallable]
  constructor
  · intro hfailed hlen
    rw [if_pos hlen] at hfailed
    -- the instance would be on the machine
    have hgrown := h.grows_of_failed (h.call_mem hν hc (hlen ▸ hcallable)) hfailed
    exact Nat.lt_irrefl _ hgrown
  · intro hlen
    rw [if_neg hlen]

theorem fresh {n : Nat} {callee : Expr} {paren : Token} {args : List Expr} {m m' : Machine} {f : Value}
    {vs : List Value} (hν : S ⟨host, .expr (.call callee paren args), n + 1, m⟩)
    (hc : Calls host n callee args m f vs m') (d : Class) : .object m'.objects.size d ∉ vs ∧
      (∀ i name, m'.frames.read i name ≠ some (.object m'.objects.size d)) ∧
      (∀ id name, (m'.fields id).get? name ≠ some (.object m'.objects.size d)) ∧
      ∀ host k e m₁ m₂, S ⟨host, .expr e, k, m₁⟩ → evaluate host k e m₁ = .ok (.object m'.objects.size d) m₂ →
        m'.objects.size < m₂.objects.size := by
  obtain ⟨hm, -, hvs⟩ := h.before_call hν hc
  have hnot : ¬ (Value.object m'.objects.size d).Fine ⟨Binds S, False⟩ m' := fun hfine => Nat.lt_irrefl _ hfine.present
  refine ⟨fun hmem => hnot (hvs _ hmem), fun i name hr => hnot (hm.frames hr), fun id name hr => hnot (hm.fields hr),
    fun _ k e m₁ m₂ hin he => ?_⟩
  have hfine : (Value.object m'.objects.size d).Fine ⟨Binds S, False⟩ m₂ := (h.keeps hin).value he
  exact hfine.present

theorem initializes {n : Nat} {callee : Expr} {paren : Token} {args : List Expr} {m m' : Machine} {c : Class}
    {vs : List Value} {init : Closure} (hν : S ⟨host, .expr (.call callee paren args), n + 3, m⟩)
    (hc : Calls host (n + 2) callee args m (.classDef c) vs m') (hi : c.Nearest initName init)
    (hlen : vs.length = init.decl.params.length) :
    c.Begins init vs m' (c.begin init vs m') ∧
      evaluate host (n + 3) (.call callee paren args) m =
        returning (.object m'.objects.size c) m'.env (executeAll host n init.decl.body (c.begin init vs m')) := by
  have hinit : c.initializer? = some init := Class.findMethod_eq_some_iff.2 hi
  have hcallable : (Value.classDef c).callable? = some (c.name, vs.length) := by
    rw [hlen]
    simp [Value.callable?, Class.arity, hinit, Closure.arity, Routine.arity]
  obtain ⟨-, hclass, -⟩ := h.before_call hν hc
  have hdistinct := (hclass.rooted.apt initName init hinit).1.apt.distinct
  refine ⟨Class.begins hdistinct hlen m', ?_⟩
  rw [hc.evaluate_eq hcallable, if_pos rfl]
  exact h.returning_class (h.call_mem hν hc hcallable) hinit

theorem returns {n : Nat} {callee : Expr} {paren : Token} {args : List Expr} {m m' : Machine} {ref : Nat}
    {f : Closure} {vs : List Value} (hν : S ⟨host, .expr (.call callee paren args), n + 3, m⟩)
    (hc : Calls host (n + 2) callee args m (.function ref f) vs m') (hi : f.isInitializer = true)
    (hlen : vs.length = f.decl.params.length) :
    ∃ receiver, Binds S f receiver ∧ (∀ other, Binds S f other → other = receiver) ∧
      evaluate host (n + 3) (.call callee paren args) m =
        returning receiver m'.env (executeAll host n f.decl.body (f.enter vs m')) := by
  have hcallable : (Value.function ref f).callable? = some (f.name, vs.length) := by
    rw [hlen]
    rfl
  have hcall := h.call_mem hν hc hcallable
  have hready : f.Ready ⟨Binds S, False⟩ m'.frames := (h.before_call hν hc).2.1.rooted
  obtain ⟨i, outer, receiver, henv, hglobal, hthis, hborn⟩ := hready.bound hi
  refine ⟨receiver, hborn, fun other hother => h.binds_unique hother hborn, ?_⟩
  rw [hc.evaluate_eq hcallable, if_pos rfl]
  exact h.returning_closure (h.honored.closed hcall ⟨n + 1, rfl, rfl⟩) hi henv hglobal hthis

end Moment.Course

/-- A host that has neither functions nor a loader makes nothing up. -/
theorem Host.sincere_default : ({} : Host).Sincere where
  toHonest := Trace.honest_default
  given := nofun
  loaded := nofun

theorem Machine.bound_start (terms : Terms) (host : Host) (output : Sink) :
    (Machine.start host output).Bound terms where
  frames hr := by
    obtain ⟨f, rfl⟩ := Trace.native_of_read_start hr
    exact .of_isPlain rfl
  fields hr := by cases hr
  size := Nat.zero_lt_one

/-- The moments of a session are such a course. -/
theorem Session.exists_course {lines : List Line} (hh : ∀ line ∈ lines, line.host.Sincere) {s : Session}
    (hs : s.machine.Bound ⟨Moment.Binds (s.Passes lines), False⟩) : ∃ last, Moment.Course (s.Passes lines) last := by
  have hhonored : (Contract.binding ⟨Moment.Binds (s.Passes lines), False⟩).Honored (s.Passes lines) := by
    refine Contract.binding_honored (fun hμ hp => hμ.part hp) (fun hμ => ?_) fun _ => False.elim
    obtain ⟨line, hline, hhost⟩ := hμ.exists_host
    rw [hhost]
    exact hh line hline
  obtain ⟨last, -, hfits⟩ := hhonored.fits_session (fun hc => Stmt.apt_of_compile hc) hs fun _ hν => hν
  exact ⟨last, hhonored, fun hν => hfits _ hν⟩

/-- In a session of hosts that make no objects up, classes and initializers are called by the rules: a class makes a
new instance and gives just that one, and every other call of an initializer gives the receiver it was bound to. -/
theorem Session.instances_initialized (host : Host) (output diagnostics : Sink) {lines : List Line}
    (hh : ∀ line ∈ lines, line.host.Sincere) :
    Moment.Initializing ((Session.start host output diagnostics).Passes lines) := by
  obtain ⟨last, h⟩ : ∃ last, Moment.Course ((Session.start host output diagnostics).Passes lines) last :=
    exists_course hh (Machine.bound_start _ host output)
  exact
    { rejects := fun hν hc => ⟨_, Class.takes_arity _, h.rejects hν hc⟩
      fresh := fun hν hc => h.fresh hν hc
      creates := fun {host n callee paren args m c m'} hν hc hnone => by
        have hinit : c.initializer? = none := by
          cases hi : c.initializer? with
          | none => rfl
          | some init => exact absurd (Class.findMethod_eq_some_iff.1 hi) (hnone init)
        have hcallable : (Value.classDef c).callable? = some (c.name, 0) := by
          simp [Value.callable?, Class.arity, hinit]
        rw [hc.evaluate_eq hcallable]
        exact call_class_none hinit
      initializes := fun hν hc hi hlen => h.initializes hν hc hi hlen
      returns := fun hν hc hi hlen => h.returns hν hc hi hlen
      bound := fun hb => h.of_binds hb
      property := fun hν hobject hfield hget => h.binds_of_get hν hobject hfield hget
      inherited := fun hν hsuper => h.binds_of_super hν hsuper }

/-- What is called at a moment with what number of arguments, if it is that of a call that comes about. -/
def Moment.called? : Moment → Option (String × Nat)
  | ⟨host, .expr (.call callee _ args), n + 1, m⟩ =>
    match evaluate host n callee m with
    | .ok f m₁ =>
      match evaluateAll host n args m₁ with
      | .ok vs _ => some (f.text, vs.length)
      | .error _ _ => none
    | .error _ _ => none
  | _ => none

/-- An initializer that returns from within a loop, inherited, called through `super`, through the instance and as a
bound method that was kept. In the end the number of arguments is wrong. -/
def initializingText : List Session.Line :=
  [⟨{}, 40, "class A \x7b init(x, y) \x7b this.x = x; while (true) \x7b \x7b return; \x7d \x7d \x7d \x7d"⟩,
   ⟨{}, 40, "class B < A \x7b \x7d"⟩,
   ⟨{}, 40, "class D < B \x7b init(x) \x7b this.r = super.init(x, nil); \x7d \x7d"⟩,
   ⟨{}, 40, "var b = B(\"p\", \"q\"); var kept = b.init; print b.x; print kept(\"s\", nil) == b; print b.x;"⟩,
   ⟨{}, 40, "print b.init(\"u\", nil) == b; var d = D(\"z\"); print d.r == d; print D(\"z\") == d; B(\"p\");"⟩]

theorem Session.instances_initialized_initializingText :
    (∀ line ∈ initializingText, line.host.Sincere) ∧
    ((Session.start {} {} {}).runAll initializingText).map (fun s => (s.machine.output.text, s.errors.length)) =
      some ("p\ntrue\ns\ntrue\ntrue\nfalse\n", 1) ∧
    ((Session.start {} {} {}).moments initializingText).filterMap Moment.called? =
      [("<class B>", 2), ("<fn init>", 2), ("<fn init>", 2), ("<class D>", 1), ("<fn init>", 2), ("<class D>", 1),
        ("<fn init>", 2), ("<class B>", 1)] ∧
    (∀ ν ∈ (Session.start {} {} {}).moments initializingText,
      (Session.start {} {} {}).Passes initializingText ν) ∧
    Moment.Initializing ((Session.start {} {} {}).Passes initializingText) :=
  have hh : ∀ line ∈ initializingText, line.host.Sincere := by simp [initializingText, Host.sincere_default]
  ⟨hh, by decide +kernel, by decide +kernel, fun _ hν => Session.passes_of_mem_moments hν,
    Session.instances_initialized {} {} {} hh⟩

end Lox
