import Lox.Proofs.Construct.Runs

/-!
# Instances and their initializers

A call of a class makes a new instance, runs the nearest initializer on it and gives that instance, however the body of
the initializer comes to its end. Any other call of an initializer gives the receiver that it was bound to.
-/

namespace Lox
open Ending Eval

/-! ## The nearest method -/

/-- The method of that name which the class itself has, or else the class above it. -/
inductive Class.Nearest (name : String) : Class → Closure → Prop
  | own {c : Class} {f : Closure} : c.methods.get? name = some f → Nearest name c f
  | above {c parent : Class} {f : Closure} : c.methods.get? name = none → c.superclass = some parent →
      Nearest name parent f → Nearest name c f

theorem Class.nearest_of_findMethod {name : String} {f : Closure} :
    ∀ c : Class, c.findMethod name = some f → c.Nearest name f
  | ⟨id, label, superclass, methods⟩, h => by
    unfold Class.findMethod at h
    split at h
    case h_1 found hown =>
      cases h
      exact .own hown
    case h_2 hown =>
      split at h
      case h_1 parent => exact .above hown rfl (nearest_of_findMethod parent h)
      case h_2 => cases h

theorem Class.findMethod_eq_some_iff {c : Class} {name : String} {f : Closure} :
    c.findMethod name = some f ↔ c.Nearest name f := by
  refine ⟨c.nearest_of_findMethod, fun h => ?_⟩
  induction h with
  | own hown => rw [Class.findMethod_eq, hown, Option.some_or]
  | above hown hsuper _ ih => rw [Class.findMethod_eq, hown, hsuper, Option.none_or, Option.bind_some, ih]

/-- The class takes the parameters of its nearest initializer, and nothing if there is none. -/
def Class.Takes (c : Class) (k : Nat) : Prop :=
  (∃ init, c.Nearest initName init ∧ k = init.decl.params.length) ∨ ((∀ init, ¬ c.Nearest initName init) ∧ k = 0)

theorem Class.takes_arity (c : Class) : c.Takes c.arity := by
  unfold Class.arity Class.initializer?
  cases h : c.findMethod initName with
  | some init => exact .inl ⟨init, findMethod_eq_some_iff.1 h, rfl⟩
  | none =>
    refine .inr ⟨fun init hi => ?_, rfl⟩
    cases h.symm.trans (findMethod_eq_some_iff.2 hi)

/-! ## Calls -/

/-- The callee and then the arguments have been evaluated, and the call itself is next. -/
def Calls (host : Host) (n : Nat) (callee : Expr) (args : List Expr) (m : Machine) (f : Value) (vs : List Value)
    (m' : Machine) : Prop :=
  ∃ m₁, evaluate host n callee m = .ok f m₁ ∧ evaluateAll host n args m₁ = .ok vs m'

/-- The machine on which the body of a called function is run. -/
def Closure.enter (f : Closure) (args : List Value) (m : Machine) : Machine :=
  { m with frames := m.frames.add (f.frame args), env := m.frames.size :: f.env }

/-- A call that gives the receiver whenever its body comes to an end, in whatever way. -/
def Eval.returning (receiver : Value) (here : Env) :
    EStateM.Result Stop Machine Flow → EStateM.Result Stop Machine Value
  | .ok _ m => .ok receiver { m with env := here }
  | .error e m => .error e { m with env := here }

/-- The machine with a new instance, which a new frame binds to `this`. -/
def Class.birth (c : Class) (m : Machine) : Machine :=
  { m with
    objects := m.objects.push []
    frames := m.frames.add [("this", .object m.objects.size c)] }

/-- The machine on which the initializer of a new instance is run. -/
def Class.begin (c : Class) (init : Closure) (args : List Value) (m : Machine) : Machine :=
  Closure.enter { init with env := m.frames.size :: init.env } args (c.birth m)

/-- The initializer sees the new instance as `this`, and each argument as the parameter at the same position. -/
structure Class.Begins (c : Class) (init : Closure) (args : List Value) (m m' : Machine) : Prop where
  env : m'.env = (m.frames.size + 1) :: m.frames.size :: init.env
  this : m'.frames.read m.frames.size "this" = some (.object m.objects.size c)
  params : ∀ {j : Nat} {p : Token} {v : Value}, init.decl.params[j]? = some p → args[j]? = some v →
    m'.frames.read (m.frames.size + 1) p.lexeme = some v
  others : ∀ {i}, i < m.frames.size → ∀ name, m'.frames.read i name = m.frames.read i name
  objects : m'.objects = m.objects.push []

theorem Class.begins {c : Class} {init : Closure} (hi : init.decl.Distinct) {args : List Value}
    (hlen : args.length = init.arity) (m : Machine) : c.Begins init args m (c.begin init args m) where
  env := by simp [Class.begin, Closure.enter, Class.birth]
  this := by
    have hlt : m.frames.size < (c.birth m).frames.size := by simp [Class.birth]
    rw [Class.begin, Closure.enter, Frames.read_add_of_lt _ _ hlt, Class.birth, Frames.read_add, if_pos rfl]
    rfl
  params {j p v} hp hv := by
    have hframe := Closure.get?_frame (f := { init with env := m.frames.size :: init.env }) hi hlen hp hv
    rw [Class.begin, Closure.enter, Frames.read_add, if_pos (by simp [Class.birth])]
    exact hframe
  others {i} hlt name := by
    have hlt' : i < (c.birth m).frames.size := by simp [Class.birth]; omega
    rw [Class.begin, Closure.enter, Frames.read_add_of_lt _ _ hlt', Class.birth, Frames.read_add_of_lt _ _ hlt]
  objects := rfl

variable {host : Host} {n : Nat} {callee : Expr} {paren : Token} {args : List Expr} {m m' : Machine} {f : Value}
  {vs : List Value}

/-- What is done with a function or class that has been evaluated, and its arguments. -/
theorem Calls.evaluate_eq (h : Calls host n callee args m f vs m') {name : String} {k : Nat}
    (hf : f.callable? = some (name, k)) :
    evaluate host (n + 1) (.call callee paren args) m =
      if vs.length = k then call host n paren f vs m'
      else .error (.failed (.runtimeAt paren (.arity k vs.length))) m' := by
  obtain ⟨m₁, hcallee, hargs⟩ := h
  rw [evaluate, bind_ok hcallee, bind_ok hargs, hf]
  dsimp only
  split
  · rfl
  · rfl

theorem inEnv_ok {α : Type} {env : Env} {act : Eval α} {a : α} (h : act { m with env := env } = .ok a m') :
    inEnv env act m = .ok a { m' with env := m.env } := by
  unfold inEnv
  rw [h]

theorem inEnv_error {α : Type} {env : Env} {act : Eval α} {e : Stop} (h : act { m with env := env } = .error e m') :
    inEnv env act m = .error e { m' with env := m.env } := by
  unfold inEnv
  rw [h]

/-- The body of an initializer decides about the error, but not about the value. -/
theorem callClosure_eq_returning {f : Closure} (hi : f.isInitializer = true) {receiver : Value}
    (hthis : ∀ flow m', executeAll host n f.decl.body (f.enter vs m) = .ok flow m' →
      m'.frames.getAt? f.env 0 "this" = some receiver) :
    callClosure host (n + 1) paren f vs m =
      returning receiver m.env (executeAll host n f.decl.body (f.enter vs m)) := by
  have hextend : extend f.env (f.frame vs) m =
      .ok (m.frames.size :: f.env) { m with frames := m.frames.add (f.frame vs) } := rfl
  rw [callClosure, bind_ok hextend]
  cases hbody : executeAll host n f.decl.body (f.enter vs m) with
  | ok flow m₁ =>
    rw [bind_ok (inEnv_ok hbody), if_pos hi, bind_ok get_apply, hthis flow m₁ hbody]
    rfl
  | error e m₁ =>
    rw [bind_error (inEnv_error hbody)]
    rfl

theorem call_class_none {c : Class} (hi : c.initializer? = none) :
    call host (n + 1) paren (.classDef c) vs m =
      .ok (.object m.objects.size c) { m with objects := m.objects.push [] } := by
  have hnew : newObject c m = .ok (.object m.objects.size c) { m with objects := m.objects.push [] } := rfl
  rw [call, bind_ok hnew, hi]
  rfl

theorem call_class_eq {c : Class} {init : Closure} (hi : c.initializer? = some init) :
    call host (n + 1) paren (.classDef c) vs m =
      (do let _ ← callClosure host n paren { init with env := m.frames.size :: init.env } vs
          return .object m.objects.size c : Eval Value) (c.birth m) := by
  have hnew : newObject c m = .ok (.object m.objects.size c) { m with objects := m.objects.push [] } := rfl
  rw [call, bind_ok hnew, hi]
  rfl

/-- What `super` has found if it gives a value. -/
theorem found_of_superMethod {id : Nat} {keyword method : Token} {v : Value}
    (h : superMethod id keyword method m = .ok v m') :
    ∃ d parent o c g, m.distances[id]? = some d ∧ m.frames.getAt? m.env d "super" = some (.classDef parent) ∧
      m.frames.getAt? m.env (d - 1) "this" = some (.object o c) ∧ parent.findMethod method.lexeme = some g ∧
      v = .function m.nextRef { g with env := m.frames.size :: g.env } := by
  unfold superMethod at h
  rw [bind_ok get_apply] at h
  cases hd : m.distances[id]? with
  | none =>
    rw [hd] at h
    cases h
  | some d =>
    simp only [hd] at h
    cases hparent : m.frames.getAt? m.env d "super" with
    | none =>
      rw [hparent] at h
      cases h
    | some w =>
      cases w with
      | classDef parent =>
        simp only [hparent] at h
        cases hthis : m.frames.getAt? m.env (d - 1) "this" with
        | none =>
          rw [hthis] at h
          cases h
        | some w =>
          cases w with
          | object o c =>
            simp only [hthis] at h
            cases hmethod : parent.findMethod method.lexeme with
            | none =>
              rw [hmethod] at h
              cases h
            | some g =>
              rw [hmethod] at h
              cases h
              exact ⟨d, parent, o, c, g, rfl, hparent, hthis, hmethod, rfl⟩
          | _ =>
            rw [hthis] at h
            cases h
      | _ =>
        rw [hparent] at h
        cases h

/-! ## At every moment of a course of runs -/

/-- These are the moments of runs that lead from machine to machine and at last to this one. -/
structure Moment.Course (S : Moment → Prop) (last : Machine) : Prop where
  honored : (Contract.binding ⟨Moment.Binds S, False⟩).Honored S
  fits : ∀ {ν}, S ν → (Contract.binding ⟨Moment.Binds S, False⟩).Fits last ν

namespace Moment.Course

variable {S : Moment → Prop} {last : Machine} (h : Course S last)
include h

theorem keeps {ν : Moment} (hν : S ν) :
    (Contract.binding ⟨Moment.Binds S, False⟩).Keeps ν.machine ((Contract.binding ⟨Moment.Binds S, False⟩).Post ν.job)
      ν.ending :=
  h.honored.keeps hν (h.fits hν).good (h.fits hν).pre

section calls

variable (hν : S ⟨host, .expr (.call callee paren args), n + 1, m⟩) (hc : Calls host n callee args m f vs m')
include hν hc

/-- The machine before the call, what is called and the arguments. -/
theorem before_call :
    m'.Bound ⟨Moment.Binds S, False⟩ ∧ f.Fine ⟨Moment.Binds S, False⟩ m' ∧
      ∀ v ∈ vs, v.Fine ⟨Moment.Binds S, False⟩ m' := by
  obtain ⟨m₁, hcallee, hargs⟩ := hc
  have hin₁ : S ⟨host, .expr callee, n, m⟩ := h.honored.closed hν ⟨n, rfl, .inl rfl⟩
  have hin₂ : S ⟨host, .exprs args, n, m₁⟩ := h.honored.closed hν ⟨n, rfl, .inr ⟨f, m₁, hcallee, .inl rfl⟩⟩
  have hk₂ := h.keeps hin₂
  have hf : f.Fine ⟨Moment.Binds S, False⟩ m₁ := (h.keeps hin₁).value hcallee
  have hfol : m₁.Follows _ (state (evaluateAll host n args m₁)) := hk₂.onward
  have hgood : (state (evaluateAll host n args m₁)).Bound ⟨Moment.Binds S, False⟩ := hk₂.good
  rw [hargs] at hfol hgood
  exact ⟨hgood, hf.follows hfol, hk₂.value hargs⟩

/-- The call itself, if the number of arguments is right. -/
theorem call_mem {name : String} (hf : f.callable? = some (name, vs.length)) : S ⟨host, .call paren f vs, n, m'⟩ := by
  obtain ⟨m₁, hcallee, hargs⟩ := hc
  refine h.honored.closed hν ⟨n, rfl, .inr ⟨f, m₁, hcallee, .inr ⟨vs, m', hargs, ?_⟩⟩⟩
  dsimp only
  rw [hf]
  dsimp only
  rw [if_pos rfl]
  rfl

end calls

/-- What an initializer that was bound gives. -/
theorem returning_closure {g : Closure} (hν : S ⟨host, .closure paren g vs, n + 1, m⟩) (hi : g.isInitializer = true)
    {i : Nat} {outer : Env} (henv : g.env = i :: outer) (hglobal : i ≠ Machine.globalFrame) {receiver : Value}
    (hthis : m.frames.read i "this" = some receiver) :
    callClosure host (n + 1) paren g vs m =
      returning receiver m.env (executeAll host n g.decl.body (g.enter vs m)) := by
  refine callClosure_eq_returning hi fun flow m₁ hbody => ?_
  have hin : S ⟨host, .stmts g.decl.body, n, g.enter vs m⟩ := h.honored.closed hν ⟨n, rfl, _, _, rfl, .inl rfl⟩
  have hfol : (g.enter vs m).Follows _ (state (executeAll host n g.decl.body (g.enter vs m))) := (h.keeps hin).onward
  rw [hbody] at hfol
  have hstart : (g.enter vs m).frames.read i "this" = some receiver :=
    (Frames.Fixes.add _ _).read_receiver hglobal hthis
  rw [Frames.getAt?, henv]
  exact hfol.frames.read_receiver hglobal hstart

section classes

variable {c : Class}

/-- The initializer is run on the new instance. -/
theorem closure_mem {init : Closure} (hν : S ⟨host, .call paren (.classDef c) vs, n + 1, m⟩)
    (hi : c.initializer? = some init) :
    S ⟨host, .closure paren { init with env := m.frames.size :: init.env } vs, n, c.birth m⟩ := by
  refine h.honored.closed hν ⟨n, rfl, .object m.objects.size c, { m with objects := m.objects.push [] }, rfl, ?_⟩
  dsimp only
  rw [hi]
  exact .inr ⟨_, _, rfl, .inl rfl⟩

/-- A call of a class that fails has made an instance before. -/
theorem grows_of_failed (hν : S ⟨host, .call paren (.classDef c) vs, n, m⟩) {e : Error} {m₁ : Machine}
    (hcall : call host n paren (.classDef c) vs m = .error (.failed e) m₁) : m.objects.size < m₁.objects.size := by
  cases n with
  | zero => cases hcall
  | succ n =>
    cases hi : c.initializer? with
    | none =>
      rw [call_class_none hi] at hcall
      cases hcall
    | some init =>
      have hin := h.closure_mem hν hi
      have hfol : (c.birth m).Follows _
          (state (callClosure host n paren { init with env := m.frames.size :: init.env } vs (c.birth m))) :=
        (h.keeps hin).onward
      rw [call_class_eq hi] at hcall
      rcases bind_eq_error.1 hcall with herror | ⟨v, m₂, -, hpure⟩
      · rw [herror] at hfol
        have hsize : (m.objects.push []).size ≤ m₁.objects.size := hfol.objects
        rw [Array.size_push] at hsize
        exact hsize
      · cases hpure

/-- However the body of the initializer ends, the instance is what the call of the class gives. -/
theorem returning_class (hν : S ⟨host, .call paren (.classDef c) vs, n + 2, m⟩) {init : Closure}
    (hi : c.initializer? = some init) :
    call host (n + 2) paren (.classDef c) vs m =
      returning (.object m.objects.size c) m.env (executeAll host n init.decl.body (c.begin init vs m)) := by
  have hfits := h.fits hν
  have hapt : c.Apt := hfits.pre.1.rooted.apt
  obtain ⟨hmethod, hname⟩ := hapt initName init hi
  have hinit : init.isInitializer = true := by rw [hmethod.initializer, decide_eq_true hname]
  have hglobal : m.frames.size ≠ Machine.globalFrame := Nat.ne_of_gt hfits.good.size
  have hthis : (c.birth m).frames.read m.frames.size "this" = some (.object m.objects.size c) := by
    rw [Class.birth, Frames.read_add, if_pos rfl]
    rfl
  have hbody : callClosure host (n + 1) paren { init with env := m.frames.size :: init.env } vs (c.birth m) =
      returning (.object m.objects.size c) m.env (executeAll host n init.decl.body (c.begin init vs m)) :=
    h.returning_closure (h.closure_mem hν hi) hinit rfl hglobal hthis
  rw [call_class_eq hi]
  cases hrun : executeAll host n init.decl.body (c.begin init vs m) with
  | ok flow m₁ =>
    rw [hrun] at hbody
    rw [bind_ok hbody]
    rfl
  | error e m₁ =>
    rw [hrun] at hbody
    rw [bind_error hbody]
    rfl

end classes

/-! ### Where initializers were bound -/

/-- Of what a function was bound to, its `this` tells to the last. -/
theorem read_of_binds {g : Closure} {receiver : Value} (hb : Moment.Binds S g receiver) :
    ∃ i outer, g.env = i :: outer ∧ i ≠ Machine.globalFrame ∧ last.frames.read i "this" = some receiver := by
  obtain ⟨host, method, depth, m₀, m₁, hin, hattach⟩ := hb
  have hfits := h.fits hin
  cases hattach
  have hglobal : m₀.frames.size ≠ Machine.globalFrame := Nat.ne_of_gt hfits.good.size
  refine ⟨m₀.frames.size, method.env, rfl, hglobal, ?_⟩
  have hon : ({ m₀ with frames := m₀.frames.add [("this", receiver)] } : Machine).Follows _ last := hfits.onward
  refine hon.frames.read_receiver hglobal ?_
  rw [Frames.read_add, if_pos rfl]
  rfl

/-- A function was bound to one receiver only. -/
theorem binds_unique {g : Closure} {v w : Value} (hv : Moment.Binds S g v) (hw : Moment.Binds S g w) : v = w := by
  obtain ⟨i, outer, henv, -, hi⟩ := h.read_of_binds hv
  obtain ⟨j, outer', henv', -, hj⟩ := h.read_of_binds hw
  obtain ⟨rfl, -⟩ := List.cons.inj (henv.symm.trans henv')
  exact Option.some.inj (hi.symm.trans hj)

/-- What is bound is a method, and to an object. -/
theorem of_binds {g : Closure} {receiver : Value} (hb : Moment.Binds S g receiver) :
    (∃ id c, receiver = .object id c) ∧ (g.isInitializer = true ↔ g.decl.name.lexeme = initName) := by
  obtain ⟨host, method, depth, m₀, m₁, hin, hattach⟩ := hb
  obtain ⟨hobject, -, hmethod⟩ := (h.fits hin).pre
  cases hattach
  refine ⟨hobject, ?_⟩
  show method.isInitializer = true ↔ method.decl.name.lexeme = initName
  rw [hmethod.initializer, decide_eq_true_iff]

/-- A method that is found on an object is bound to it. -/
theorem binds_of_get {object : Expr} {name : Token} (hν : S ⟨host, .expr (.get object name), n + 1, m⟩) {id ref : Nat}
    {c : Class} {m₁ m₂ : Machine} {g : Closure} (hobject : evaluate host n object m = .ok (.object id c) m₁)
    (hfield : (m₁.fields id).get? name.lexeme = none)
    (hget : evaluate host (n + 1) (.get object name) m = .ok (.function ref g) m₂) :
    Moment.Binds S g (.object id c) := by
  rw [evaluate, bind_ok hobject] at hget
  change getProperty id c name m₁ = _ at hget
  unfold getProperty at hget
  rw [bind_ok get_apply, hfield] at hget
  cases hmethod : c.findMethod name.lexeme with
  | none =>
    rw [hmethod] at hget
    cases hget
  | some method =>
    rw [hmethod] at hget
    cases hget
    refine ⟨host, method, n, m₁, _, h.honored.closed hν ⟨n, rfl, .inr ⟨_, m₁, hobject, m₁, m₁, rfl, ?_⟩⟩, rfl⟩
    dsimp only
    rw [hfield, hmethod]
    exact .inl rfl

/-- A method that is found through `super` is bound to the present object. -/
theorem binds_of_super {id ref : Nat} {keyword method : Token}
    (hν : S ⟨host, .expr (.superRef id keyword method), n + 1, m⟩) {m₁ : Machine} {g : Closure}
    (hsuper : evaluate host (n + 1) (.superRef id keyword method) m = .ok (.function ref g) m₁) :
    ∃ d receiver, m.distances[id]? = some d ∧ m.frames.getAt? m.env (d - 1) "this" = some receiver ∧
      Moment.Binds S g receiver := by
  obtain ⟨d, parent, o, c, f, hd, hparent, hthis, hmethod, hfunction⟩ := found_of_superMethod hsuper
  cases hfunction
  refine ⟨d, .object o c, hd, hthis, host, f, n, m, _, h.honored.closed hν ⟨n, rfl, m, m, rfl, ?_⟩, rfl⟩
  simp only [hd, hparent, hthis, hmethod]
  exact .inl rfl

end Moment.Course

end Lox
