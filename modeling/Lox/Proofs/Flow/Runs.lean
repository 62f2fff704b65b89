import Lox.Proofs.Flow.Heap

/-!
# Every run stays orderly

Runs lead from orderly states to orderly ones, and fail only with errors that are permitted. The one exception is a
reference to `this` or `super` that finds nothing: such an error is not judged here, but traced back to the
reference in the log.
-/

namespace Lox
open Scoping

/-- A class is proper if its own methods are, and those of its superclass. -/
theorem proper_of_methods {ref : Nat} {name : String} {parent : Option Class} {env : Env}
    {methods : List Routine} (hp : ∀ c, parent = some c → c.Proper) (hr : Routine.AllRegular methods)
    (hc : Routine.MethodsConfined methods) :
    Class.Proper ⟨ref, name, parent, Eval.methodTable env methods⟩ := by
  intro x f hf
  unfold Class.findMethod at hf
  cases ht : (Eval.methodTable env methods).get? x with
  | some g =>
    simp only [ht, Option.some.injEq] at hf
    subst hf
    rcases Table.mem_of_get?_foldl ht with ⟨r, hmem, rfl⟩ | h
    · exact ⟨Routine.regular_of_mem hr hmem, Routine.confined_of_mem hc hmem, methodRole_ne_topLevel _⟩
    · cases h
  | none =>
    simp only [ht] at hf
    cases parent with
    | none => cases hf
    | some c => exact hp c rfl x f hf

namespace Trace

/-- The frame of a call binds no name that only the machine binds. -/
theorem get?_frame_eq_none {f : Closure} {args : List Value} {name : String}
    (hn : ∀ p ∈ f.decl.params, p.lexeme ≠ name) : (f.frame args).get? name = none := by
  by_contra h
  have hsome : ((f.frame args).get? name).isSome = true := Option.isSome_iff_ne_none.2 h
  unfold Closure.frame at hsome
  rw [Table.isSome_get?_foldl (fun p : Token × Value => p.1.lexeme) Prod.snd] at hsome
  rcases hsome with hmem | hnil
  · obtain ⟨⟨param, arg⟩, hp, rfl⟩ := List.mem_map.1 hmem
    exact hn param (List.of_mem_zip hp).1 rfl
  · cases hnil

def Missing (log : Log) : Prop := ∃ ref m, .referred ref m ∈ log ∧ Missed ref m

/-- Orderly states, and errors among `E`. -/
def orderly (E : Error → Prop) : Upkeep where
  Good := Orderly
  Onward := Onward
  Fine v s := Tame s.machine.frames v
  Ready f s := TameFunction s.machine.frames f
  Errs log e := E e ∨ Missing log
  strict := True

variable {E : Error → Prop} {s : State}

theorem Orderly.routine (h : Orderly s) {f : Closure} (hf : TameFunction s.machine.frames f) {args : List Value}
    (ha : ∀ v ∈ args, Tame s.machine.frames v) : Onward s (s.enter (.routine f.decl) f.env (f.frame args)) := by
  obtain ⟨role, hproper⟩ := hf.proper
  obtain ⟨-, hparams, -⟩ := Routine.regular_iff.1 hproper.regular
  refine h.enter ⟨role, hproper⟩ (fun hv => ha _ (Closure.mem_of_get?_frame hv)) (fun hv => ?_) fun hv => ?_
  · rw [get?_frame_eq_none fun p hmem => (hparams p hmem).1] at hv
    cases hv
  · rw [get?_frame_eq_none fun p hmem => (hparams p hmem).2] at hv
    cases hv

/-- The object that an initializer is bound to is still there. -/
theorem TameFunction.getAt?_ne_none {f : Closure} {fs : Frames} (h : TameFunction fs f) (hi : f.isInitializer = true) :
    fs.getAt? f.env 0 "this" ≠ none := by
  obtain ⟨i, outer, henv, hthis⟩ := h.bound hi
  obtain ⟨v, hv⟩ := Option.isSome_iff_exists.1 hthis
  rw [henv]
  exact fun hnone => by cases hv.symm.trans hnone

theorem orderly_sound {host : Host} (hh : host.Honest) (hp : host.Permits E) : (orderly E).Sound host where
  honest := hh
  permits _ := hp.imp .inl
  refl h := .refl h
  trans h h' := h.trans h'
  good h := h.orderly
  plain h := .of_isPlain h
  function := Iff.rfl
  object := Iff.rfl
  fine ho hv := Tame.grow hv ho.grow
  frames h hr := h.frames hr
  fields h hr := h.fields hr
  offers h ha hv := .of_offers h ha hv
  same h hf ho _ := h.same hf ho
  define _ h hn hv := h.define hn hv
  setField id name h hv := h.setField id name hv
  newObject h := h.newObject
  onlyGlobals h hm := h.onlyGlobals hm
  accepted _ h hr hc := h.note _ ⟨hr, hc⟩
  referred _ h := h.note _ h.reserved
  began h hr := h.note _ hr
  missed _ _ hm := .inr ⟨_, _, List.mem_cons_self, hm⟩
  back _ ho := ⟨ho.grow, ho.orderly.inEnv _⟩
  fine_inEnv _ hv := hv
  globals h := h.inEnv _
  block {s} body h :=
    have ho : Onward s (s.enter (.block body) s.machine.env []) := h.enter trivial nofun nofun nofun
    ⟨ho, ho.orderly.inEnv _⟩
  routine h hf ha := ⟨h.routine hf ha, (h.routine hf ha).orderly.inEnv _⟩
  body hf :=
    have ⟨role, hproper⟩ := hf.proper
    ⟨(Routine.regular_iff.1 hproper.regular).2.2, role, fun _ => Routine.confined_iff.1 hproper.confined⟩
  closure _ hr hc := ⟨⟨.function, hr, hc trivial, RoutineRole.noConfusion⟩, nofun⟩
  unbound _ hf ho hi hnone := absurd hnone ((TameFunction.grow hf ho.grow).getAt?_ne_none hi)

theorem Orderly.attach (h : Orderly s) (id : Nat) {c : Class} (hc : c.Proper) {f : Closure}
    (hf : f.decl.Proper (methodRole f.decl.name)) :
    (orderly E).Keeps s (orderly E).Ready (Trace.attach (.object id c) f s) := by
  have ho : Onward s (s.enter (.receiver f.decl) f.env [("this", .object id c)]) := by
    refine h.enter hf (fun {name v} hv => ?_) (fun {v} hv => ?_) (fun {v} hv => ?_)
    · rw [Table.eq_of_get?_singleton hv]
      exact hc
    · cases hv
      exact ⟨id, c, rfl⟩
    · simp [Table.get?] at hv
  refine ⟨ho, ⟨_, hf⟩, fun _ => ⟨_, f.env, rfl, ?_⟩⟩
  show ((s.machine.frames.add [("this", Value.object id c)]).read s.machine.frames.size "this").isSome = true
  rw [Frames.read_add, if_pos rfl]
  rfl

theorem Orderly.getAt? (h : Orderly s) {k : Nat} {name : String} {v : Value}
    (hv : s.machine.frames.getAt? s.machine.env k name = some v) : Tame s.machine.frames v := by
  obtain ⟨i, -, hi⟩ := Frames.read_of_getAt? hv
  exact h.frames hi

theorem orderly_binds : (orderly E).Binds where
  attach id h hc hf := Orderly.attach h id hc (hc _ _ hf)
  inherited h _ _ hparent hthis hf :=
    have hproper : Class.Proper _ := h.getAt? hparent
    h.attach _ (h.getAt? hthis) (hproper _ _ hf)
  methodEnv {_ parent methods} name h hparent hr hc := by
    have hproper : ∀ env id, Class.Proper ⟨id, name, parent, Eval.methodTable env methods⟩ :=
      fun _ _ => proper_of_methods hparent hr (hc trivial)
    cases parent with
    | none => exact ⟨.refl h, hproper _⟩
    | some c =>
      refine ⟨h.enter trivial (fun {name v} hv => ?_) (fun {v} hv => ?_) (fun {v} hv => ?_), hproper _⟩
      · rw [Table.eq_of_get?_singleton hv]
        exact hparent c rfl
      · simp [Table.get?] at hv
      · cases hv
        exact ⟨c, rfl⟩

/-- A program that passed keeps states orderly, and fails only as is permitted or where a reference finds nothing. -/
theorem Orderly.run {host : Host} (hh : host.Honest) (hp : host.Permits E) (n : Nat) {program : List Stmt}
    (h : Orderly s) (hprogram : Stmt.AllRegular program ∧ Stmt.AllConfined .topLevel false program) :
    Onward s (Ending.state (interpret host n program s)) ∧
      ∀ e t, interpret host n program s = .error (.failed e) t → E e ∨ Missing t.log :=
  (orderly_sound hh hp).run orderly_binds n h hprogram.1 fun _ => hprogram.2

end Trace
end Lox
