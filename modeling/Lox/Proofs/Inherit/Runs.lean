import Lox.Proofs.Inherit.Lineage

/-!
# Every run stays lineal

The pieces of regular programs lead from lineal states to lineal ones. The step that needs an argument
is a reference to `super`: the frames that hold the superclass and the object lie next to each other, so
the method that is found belongs to a class above that of the object.
-/

namespace Lox
open Scoping
namespace Trace

/-- A frame within an environment is that of the globals or was made on top of those after it. -/
theorem Chain.entered_of_getElem? {log : Log} {env : Env} {sites : List Site} (h : Chain log env sites)
    {d i : Nat} (hd : env[d]? = some i) :
    i = Machine.globalFrame ∨ ∃ site, .entered site (env.drop (d + 1)) i ∈ log := by
  induction h generalizing d with
  | globals =>
    cases d with
    | zero =>
      cases hd
      exact .inl rfl
    | succ d => cases hd
  | scope he _ ih =>
    cases d with
    | zero =>
      cases hd
      exact .inr ⟨_, he⟩
    | succ d => exact ih hd

/-- An object in a frame just inside one with a superclass is of a class below it. -/
theorem Lineal.descends {s : State} (h : Lineal s) {d oid : Nat} {parent c : Class}
    (hsuper : s.machine.frames.getAt? s.machine.env d "super" = some (.classDef parent))
    (hthis : s.machine.frames.getAt? s.machine.env (d - 1) "this" = some (.object oid c))
    (hlocal : ¬ (s.machine.env[d]? = some Machine.globalFrame ∨
      s.machine.env[d - 1]? = some Machine.globalFrame)) :
    c.Descends parent ∨ Stray s.log := by
  obtain ⟨i, hi, hread⟩ := Frames.read_of_getAt? hsuper
  obtain ⟨j, hj, hread'⟩ := Frames.read_of_getAt? hthis
  have hi0 : i ≠ Machine.globalFrame := fun h0 => hlocal (.inl (h0 ▸ hi))
  have hj0 : j ≠ Machine.globalFrame := fun h0 => hlocal (.inr (h0 ▸ hj))
  obtain ⟨sites, hchain⟩ := h.linked
  obtain ⟨site, he⟩ := (hchain.entered_of_getElem? hj).resolve_left hj0
  have hplaced := (h.entered he).placed
  cases site with
  | receiver decl =>
    obtain ⟨hnone, id, c', hc', hattached⟩ := hplaced
    cases hc'.symm.trans hread'
    cases d with
    | zero =>
      -- one frame does not hold both
      cases hi.symm.trans hj
      cases hnone.symm.trans hread
    | succ d =>
      refine hattached.imp_left fun ha => ?_
      obtain ⟨e, name, hdesc, hdecl, hm⟩ := ha
      have hdrop : s.machine.env.drop (d + 1) = i :: s.machine.env.drop (d + 2) := by
        obtain ⟨hlt, hget⟩ := List.getElem?_eq_some_iff.1 hi
        rw [List.drop_eq_getElem_cons hlt, hget]
      rw [Nat.add_sub_cancel, hdrop] at hm
      exact hdesc.trans (.up (hdecl.superclass_eq hm hi0 hread) (.refl parent))
  | parent methods => cases hplaced.1.symm.trans hread'
  | block body => cases hplaced.1.symm.trans hread'
  | routine decl => cases hplaced.1.symm.trans hread'

theorem Attached.of_descends {s : State} {decl : Routine} {outer : Env} {c parent : Class}
    (h : Attached s decl outer parent) (hd : c.Descends parent) : Attached s decl outer c := by
  obtain ⟨e, name, he, hdecl, hm⟩ := h
  exact ⟨e, name, hd.trans he, hdecl, hm⟩

/-! ## The upkeep -/

/-- Lineal states, whatever the errors. -/
def lineal : Upkeep where
  Good := Lineal
  Onward := Heir
  Fine v s := Rooted s v
  Ready f s := Callable s f
  Errs _ _ := True
  strict := False

variable {s : State}

theorem Rooted.of_isPlain {v : Value} (h : v.isPlain = true) : Rooted s v := by
  cases v with
  | function id f => cases h
  | classDef c => cases h
  | object id c => cases h
  | _ => trivial

theorem Rooted.inEnv {v : Value} (h : Rooted s v) (env : Env) : Rooted (s.inEnv env) v :=
  have hg : Grown s (s.inEnv env) := ⟨List.suffix_refl _, .refl _⟩
  h.grown hg

theorem Lineal.routine (h : Lineal s) {f : Closure} (hf : Callable s f) {args : List Value}
    (ha : ∀ v ∈ args, Rooted s v) : Heir s (s.enter (.routine f.decl) f.env (f.frame args)) ∧
      Lineal ((s.enter (.routine f.decl) f.env (f.frame args)).inEnv (s.machine.frames.size :: f.env)) := by
  obtain ⟨-, hparams, -⟩ := Routine.regular_iff.1 hf.regular
  have hnone : (f.frame args).get? "this" = none ∧ (f.frame args).get? "super" = none :=
    ⟨get?_frame_eq_none fun p hmem => (hparams p hmem).1, get?_frame_eq_none fun p hmem => (hparams p hmem).2⟩
  have henter : Heir s (s.enter (.routine f.decl) f.env (f.frame args)) := by
    refine h.enter hf.linked (fun hv => ha _ (Closure.mem_of_get?_frame hv)) ⟨?_, ?_⟩
    · rw [State.read_push, hnone.1]
    · rw [State.read_push, hnone.2]
  refine ⟨henter, henter.lineal.enterEnv List.mem_cons_self (hf.linked.mono henter.log) ?_⟩
  exact (State.read_push s (f.frame args) "super").trans hnone.2

theorem Lineal.block (h : Lineal s) (body : List Stmt) : Heir s (s.enter (.block body) s.machine.env []) ∧
    Lineal ((s.enter (.block body) s.machine.env []).inEnv (s.machine.frames.size :: s.machine.env)) := by
  have hnone : ∀ name, (s.push []).machine.frames.read s.machine.frames.size name = none :=
    fun name => (State.read_push s [] name).trans rfl
  have henter : Heir s (s.enter (.block body) s.machine.env []) :=
    h.enter h.linked (fun hv => by cases hv) ⟨hnone "this", hnone "super"⟩
  exact ⟨henter, henter.lineal.enterEnv List.mem_cons_self (h.linked.mono henter.log) (hnone "super")⟩

theorem lineal_sound {host : Host} (hh : host.Honest) : lineal.Sound host where
  honest := hh
  permits _ := host.permits_all
  refl h := .refl h
  trans h h' := h.trans h'
  good h := h.lineal
  plain h := .of_isPlain h
  function := Iff.rfl
  object := Iff.rfl
  fine ho hv := Rooted.grown ho.toGrown hv
  frames h hr := h.frames hr
  fields h hr := h.fields hr
  offers h ha hv := .of_offers h ha hv
  same h hf ho henv := h.same hf ho henv
  define i h hn hv := h.define i hn hv
  setField id name h hv := h.setField id name hv
  newObject h := h.newObject
  onlyGlobals h hm := h.onlyGlobals hm
  accepted _ h _ _ := h.note _ trivial
  referred ref h := h.note (.referred ref _) ⟨.refl _, h.toKnows⟩
  began {_ st} h _ := h.note (.began st _) h.plain
  missed _ _ _ := trivial
  back h ho := ⟨⟨ho.log, ho.frames⟩, rfl, ho.lineal.inEnv (h.linked.mono ho.log) (h.plain.fixes ho.frames)⟩
  fine_inEnv env hv := Rooted.inEnv hv env
  globals h := h.inGlobals
  block body h := h.block body
  routine h hf ha := h.routine hf ha
  body hf := ⟨(Routine.regular_iff.1 hf.regular).2.2, .topLevel, False.elim⟩
  closure h hr _ := ⟨hr, h.linked⟩
  unbound _ _ _ _ _ := trivial

/-! ## Methods and classes -/

theorem Lineal.attach (h : Lineal s) {id : Nat} {c : Class} (hc : Declared s c) {f : Closure}
    (hf : Callable s f) (ha : Attached s f.decl f.env c ∨ Stray s.log) :
    lineal.Keeps s lineal.Ready (Trace.attach (.object id c) f s) := by
  have henter : Heir s (s.enter (.receiver f.decl) f.env [("this", .object id c)]) := by
    have hpush : Grown s (s.push [("this", .object id c)]) := ⟨List.suffix_refl _, .add _ _⟩
    refine h.enter hf.linked (fun {name v} hv => ?_) ⟨?_, id, c, ?_, ?_⟩
    · rw [Table.eq_of_get?_singleton hv]
      exact hc
    · rw [State.read_push]
      rfl
    · rw [State.read_push]
      rfl
    · exact ha.imp (fun ha => ha.grown hpush) fun hs => hs
  obtain ⟨sites, hchain⟩ := hf.linked
  exact ⟨henter, hf.regular, _, .scope List.mem_cons_self (hchain.mono henter.log)⟩

/-- The class and the frame with its superclass are made together. -/
theorem Lineal.methodEnv (h : Lineal s) (name : String) {parent : Option Class}
    (hparent : ∀ c, parent = some c → Declared s c) {methods : List Routine} (hr : Routine.AllRegular methods) :
    lineal.Keeps s (fun env s' => ∀ id, Declared s' ⟨id, name, parent, Eval.methodTable env methods⟩)
      (Trace.methodEnv parent methods s) := by
  cases parent with
  | none => exact ⟨.refl h, fun id => .base hr h.linked h.plain⟩
  | some c =>
    have henter : Heir s (s.enter (.parent methods) s.machine.env [("super", .classDef c)]) := by
      refine h.enter h.linked (fun {name v} hv => ?_) ⟨?_, c, ?_⟩
      · rw [Table.eq_of_get?_singleton hv]
        exact hparent c rfl
      · rw [State.read_push]
        rfl
      · rw [State.read_push]
        rfl
    refine ⟨henter, fun id => .derived hr (h.linked.mono henter.log) List.mem_cons_self (Nat.ne_of_gt h.size)
      ?_ ((hparent c rfl).grown henter.toGrown)⟩
    exact State.read_push s [("super", .classDef c)] "super"

theorem lineal_binds : lineal.Binds where
  attach id h hc hf := by
    obtain ⟨hcall, hattached⟩ := Declared.of_findMethod hc hf
    exact Lineal.attach h hc hcall (.inl hattached)
  inherited {s ref d _ _ _ _ _} h haccess hd hparent hthis hf := by
    obtain ⟨i, -, hi⟩ := Frames.read_of_getAt? hparent
    obtain ⟨j, -, hj⟩ := Frames.read_of_getAt? hthis
    obtain ⟨hcall, hattached⟩ := Declared.of_findMethod (h.frames hi) hf
    refine Lineal.attach h (h.frames hj) hcall ?_
    by_cases hlocal : s.machine.env[d]? = some Machine.globalFrame ∨ s.machine.env[d - 1]? = some Machine.globalFrame
    · exact .inr ⟨ref, s.machine, List.mem_cons_self, haccess, d, hd, hlocal⟩
    · exact (h.descends hparent hthis hlocal).imp_left hattached.of_descends
  methodEnv name h hparent hr _ := h.methodEnv name hparent hr

/-- A regular program keeps states lineal. -/
theorem Lineal.run {host : Host} (hh : host.Honest) (n : Nat) (h : Lineal s) {program : List Stmt}
    (hr : Stmt.AllRegular program) : Heir s (Ending.state (interpret host n program s)) :=
  ((lineal_sound hh).run lineal_binds n h hr False.elim).1

end Trace
end Lox
