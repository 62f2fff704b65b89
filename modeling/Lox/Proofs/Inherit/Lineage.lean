import Lox.Proofs.Flow.Runs

/-!
# Where classes and receivers come from

A class comes from a declaration: its table holds the declared methods over one environment, and if there
is a superclass then this environment begins with a frame that binds `super` to it. A method is bound only to
an object whose class descends from the class with that method. A state is lineal if this can be read off
its values and its log, and each single step leads from a lineal state to a lineal one.
-/

namespace Lox
open Scoping

/-! ## Classes -/

/-- The second class is the first or one above it. -/
inductive Class.Descends : Class → Class → Prop
  | refl (c : Class) : Descends c c
  | up {c parent d : Class} : c.superclass = some parent → Descends parent d → Descends c d

theorem Class.Descends.trans {c d e : Class} (h : c.Descends d) (h' : d.Descends e) : c.Descends e := by
  induction h with
  | refl => exact h'
  | up hparent _ ih => exact .up hparent (ih h')

/-- The last entry of a name counts. -/
theorem Table.get?_foldl_insert {α β : Type} (key : β → String) (value : β → α) (xs : List β) (t : Table α)
    (name : String) :
    (xs.foldl (fun t x => t.insert (key x) (value x)) t).get? name =
      ((xs.reverse.find? (key · = name)).map value).or (t.get? name) := by
  induction xs generalizing t with
  | nil => rfl
  | cons x rest ih =>
    rw [List.foldl_cons, ih, get?_insert, List.reverse_cons, List.find?_append]
    cases rest.reverse.find? (key · = name) with
    | some y => rfl
    | none =>
      by_cases h : key x = name
      · simp [h]
      · simp [h]

/-- The method as it is declared, looking names up in `env`. -/
def Routine.method (env : Env) (r : Routine) : Closure := ⟨r, env, r.name.lexeme = initName⟩

theorem Eval.get?_methodTable (env : Env) (methods : List Routine) (name : String) :
    (methodTable env methods).get? name =
      (methods.reverse.find? (·.name.lexeme = name)).map (·.method env) := by
  have h := Table.get?_foldl_insert (fun r : Routine => r.name.lexeme) (Routine.method env) methods [] name
  rw [Table.get?_nil, Option.or_none] at h
  exact h

theorem Eval.of_get?_methodTable {env : Env} {methods : List Routine} {name : String} {f : Closure}
    (h : (methodTable env methods).get? name = some f) : f.decl ∈ methods ∧ f = f.decl.method env := by
  rw [get?_methodTable] at h
  obtain ⟨r, hr, rfl⟩ := Option.map_eq_some_iff.1 h
  exact ⟨List.mem_reverse.1 (List.mem_of_find?_eq_some hr), rfl⟩

/-! ## Names that stay -/

/-- Outside the globals, `this` and `super` stay what they are. -/
structure Frames.Fixes (fs fs' : Frames) : Prop where
  size : fs.size ≤ fs'.size
  receiver : ∀ {i}, i ≠ Machine.globalFrame → i < fs.size → fs'.read i "this" = fs.read i "this"
  parent : ∀ {i}, i ≠ Machine.globalFrame → i < fs.size → fs'.read i "super" = fs.read i "super"

namespace Frames.Fixes

variable {fs fs' fs'' : Frames}

theorem refl (fs : Frames) : Fixes fs fs := ⟨Nat.le_refl _, fun _ _ => rfl, fun _ _ => rfl⟩

theorem trans (h : Fixes fs fs') (h' : Fixes fs' fs'') : Fixes fs fs'' where
  size := Nat.le_trans h.size h'.size
  receiver hl hi := (h'.receiver hl (Nat.lt_of_lt_of_le hi h.size)).trans (h.receiver hl hi)
  parent hl hi := (h'.parent hl (Nat.lt_of_lt_of_le hi h.size)).trans (h.parent hl hi)

theorem read_parent (h : Fixes fs fs') {i : Nat} (hl : i ≠ Machine.globalFrame) {v : Value}
    (hv : fs.read i "super" = some v) : fs'.read i "super" = some v := by
  rw [h.parent hl (Frames.lt_size_of_read hv), hv]

theorem read_receiver (h : Fixes fs fs') {i : Nat} (hl : i ≠ Machine.globalFrame) {v : Value}
    (hv : fs.read i "this" = some v) : fs'.read i "this" = some v := by
  rw [h.receiver hl (Frames.lt_size_of_read hv), hv]

theorem define (fs : Frames) (i : Nat) {name : Token} (hn : name.Free) (v : Value) :
    Fixes fs (fs.define i name.lexeme v) := by
  have hread : ∀ {other}, name.lexeme ≠ other → ∀ j,
      (fs.define i name.lexeme v).read j other = fs.read j other := by
    intro other hne j
    by_cases hi : i < fs.size
    · rw [Frames.read_define fs hi, if_neg fun h => hne h.2]
    · rw [Frames.define_of_size_le (Nat.le_of_not_lt hi)]
  exact ⟨Nat.le_of_eq (Frames.size_define _ _ _ _).symm, fun _ _ => hread hn.1 _,
    fun _ _ => hread hn.2 _⟩

theorem add (fs : Frames) (frame : Frame) : Fixes fs (fs.add frame) where
  size := by
    rw [Frames.size_add]
    exact Nat.le_succ _
  receiver _ hi := Frames.read_add_of_lt fs frame hi _
  parent _ hi := Frames.read_add_of_lt fs frame hi _

end Frames.Fixes

namespace Trace

/-! ## Lineal states -/

/-- Each frame but that of the globals was made on top of those after it. -/
def Linked (log : Log) (env : Env) : Prop := ∃ sites, Chain log env sites

/-- The innermost frame does not bind `super`. -/
def Plain (fs : Frames) (env : Env) : Prop :=
  ∀ i outer, env = i :: outer → i ≠ Machine.globalFrame → i < fs.size ∧ fs.read i "super" = none

/-- A class as a declaration makes it. -/
inductive Declared (s : State) : Class → Prop
  | base {id : Nat} {name : String} {env : Env} {methods : List Routine} :
      Routine.AllRegular methods → Linked s.log env → Plain s.machine.frames env →
      Declared s ⟨id, name, none, Eval.methodTable env methods⟩
  | derived {id : Nat} {name : String} {parent : Class} {i : Nat} {outer : Env} {methods : List Routine} :
      Routine.AllRegular methods → Linked s.log outer → .entered (.parent methods) outer i ∈ s.log →
      i ≠ Machine.globalFrame → s.machine.frames.read i "super" = some (.classDef parent) →
      Declared s parent → Declared s ⟨id, name, some parent, Eval.methodTable (i :: outer) methods⟩

/-- A function can be called. -/
structure Callable (s : State) (f : Closure) : Prop where
  regular : f.decl.Regular
  linked : Linked s.log f.env

/-- The classes behind a value come from declarations. -/
def Rooted (s : State) : Value → Prop
  | .function _ f => Callable s f
  | .classDef c | .object _ c => Declared s c
  | _ => True

/-- The reference to `super` leads to the globals, where a host may have put anything. -/
def Strayed (ref : Reference) (m : Machine) : Prop :=
  ref.access = .parent ∧ ∃ d, m.distances[ref.id]? = some d ∧
    (m.env[d]? = some Machine.globalFrame ∨ m.env[d - 1]? = some Machine.globalFrame)

def Stray (log : Log) : Prop := ∃ ref m, .referred ref m ∈ log ∧ Strayed ref m

/-- The class has the method, itself or from above. -/
def Attached (s : State) (decl : Routine) (outer : Env) (c : Class) : Prop :=
  ∃ d name, c.Descends d ∧ Declared s d ∧ d.methods.get? name = some (decl.method outer)

/-- What a frame holds under the names that only the machine binds. -/
def Placed (s : State) (outer : Env) (i : Nat) : Site → Prop
  | .receiver decl => s.machine.frames.read i "super" = none ∧
    ∃ id c, s.machine.frames.read i "this" = some (.object id c) ∧ (Attached s decl outer c ∨ Stray s.log)
  | .parent _ => s.machine.frames.read i "this" = none ∧
    ∃ c, s.machine.frames.read i "super" = some (.classDef c)
  | _ => s.machine.frames.read i "this" = none ∧ s.machine.frames.read i "super" = none

/-- A frame that was made, and what it holds. -/
structure Made (s : State) (site : Site) (outer : Env) (i : Nat) : Prop where
  inner : i ≠ Machine.globalFrame
  lt_size : i < s.machine.frames.size
  placed : Placed s outer i site

/-- A frame lies in older ones. -/
def Younger (log : Log) (outer : Env) (i : Nat) : Prop := Linked log outer ∧ ∀ j ∈ outer, j < i

/-- All that the machine holds is known to the state. -/
structure Knows (s : State) (m : Machine) : Prop where
  frames : ∀ {i name v}, m.frames.read i name = some v → Rooted s v
  fields : ∀ {id name v}, (m.fields id).get? name = some v → Rooted s v
  linked : Linked s.log m.env

structure Lineal (s : State) : Prop extends Knows s s.machine where
  size : 0 < s.machine.frames.size
  plain : Plain s.machine.frames s.machine.env
  entered : ∀ {site outer i}, .entered site outer i ∈ s.log → Made s site outer i
  younger : ∀ {site outer i}, .entered site outer i ∈ s.log → Younger s.log outer i
  referred : ∀ {ref m}, .referred ref m ∈ s.log → m.frames.Fixes s.machine.frames
  recalled : ∀ {ref m}, .referred ref m ∈ s.log → Knows s m
  began : ∀ {st m}, .began st m ∈ s.log → Plain m.frames m.env

/-! ## What is lineal stays so -/

/-- The log grows, and what was bound to `this` and `super` stays. -/
structure Grown (s s' : State) : Prop where
  log : s.log <:+ s'.log
  frames : s.machine.frames.Fixes s'.machine.frames

theorem Grown.trans {s₁ s₂ s₃ : State} (h : Grown s₁ s₂) (h' : Grown s₂ s₃) : Grown s₁ s₃ :=
  ⟨h.log.trans h'.log, h.frames.trans h'.frames⟩

theorem Linked.mono {log log' : Log} {env : Env} (h : Linked log env) (hl : log <:+ log') :
    Linked log' env :=
  h.imp fun _ hc => hc.mono hl

theorem Plain.fixes {fs fs' : Frames} {env : Env} (h : Plain fs env) (hf : fs.Fixes fs') :
    Plain fs' env := by
  intro i outer henv hi
  obtain ⟨hlt, hnone⟩ := h i outer henv hi
  exact ⟨Nat.lt_of_lt_of_le hlt hf.size, (hf.parent hi hlt).trans hnone⟩

theorem Stray.mono {log log' : Log} (h : Stray log) (hl : log <:+ log') : Stray log' := by
  obtain ⟨ref, m, hr, hs⟩ := h
  exact ⟨ref, m, hl.subset hr, hs⟩

section grown

variable {s s' : State} (hg : Grown s s')
include hg

theorem Declared.grown {c : Class} (h : Declared s c) : Declared s' c := by
  induction h with
  | base hr hl hp => exact .base hr (hl.mono hg.log) (hp.fixes hg.frames)
  | derived hr hl he hi hv _ ih =>
    exact .derived hr (hl.mono hg.log) (hg.log.subset he) hi (hg.frames.read_parent hi hv) ih

theorem Callable.grown {f : Closure} (h : Callable s f) : Callable s' f :=
  ⟨h.regular, h.linked.mono hg.log⟩

theorem Rooted.grown {v : Value} (h : Rooted s v) : Rooted s' v := by
  cases v with
  | function id f => exact Callable.grown hg h
  | classDef c => exact Declared.grown hg h
  | object id c => exact Declared.grown hg h
  | _ => trivial

theorem Attached.grown {decl : Routine} {outer : Env} {c : Class} (h : Attached s decl outer c) :
    Attached s' decl outer c := by
  obtain ⟨d, name, hd, hdecl, hm⟩ := h
  exact ⟨d, name, hd, hdecl.grown hg, hm⟩

theorem Placed.grown {outer : Env} {i : Nat} {site : Site} (hi : i ≠ Machine.globalFrame)
    (hlt : i < s.machine.frames.size) (h : Placed s outer i site) : Placed s' outer i site := by
  have hthis := hg.frames.receiver hi hlt
  have hsuper := hg.frames.parent hi hlt
  cases site with
  | receiver decl =>
    obtain ⟨hnone, id, c, hc, ha⟩ := h
    refine ⟨hsuper.trans hnone, id, c, hthis.trans hc, ?_⟩
    exact ha.imp (fun ha => ha.grown hg) fun hs => hs.mono hg.log
  | parent methods =>
    obtain ⟨hnone, c, hc⟩ := h
    exact ⟨hthis.trans hnone, c, hsuper.trans hc⟩
  | block body => exact ⟨hthis.trans h.1, hsuper.trans h.2⟩
  | routine decl => exact ⟨hthis.trans h.1, hsuper.trans h.2⟩

theorem Made.grown {site : Site} {outer : Env} {i : Nat} (h : Made s site outer i) : Made s' site outer i :=
  ⟨h.inner, Nat.lt_of_lt_of_le h.lt_size hg.frames.size, h.placed.grown hg h.inner h.lt_size⟩

theorem Younger.grown {outer : Env} {i : Nat} (h : Younger s.log outer i) : Younger s'.log outer i :=
  ⟨h.1.mono hg.log, h.2⟩

theorem Knows.grown {m : Machine} (h : Knows s m) : Knows s' m :=
  ⟨fun hr => (h.frames hr).grown hg, fun hr => (h.fields hr).grown hg, h.linked.mono hg.log⟩

end grown

/-! ## Methods of declared classes -/

theorem Declared.own {s : State} {d : Class} (h : Declared s d) {name : String} {f : Closure}
    (hf : d.methods.get? name = some f) : Callable s f ∧ f = f.decl.method f.env := by
  cases h with
  | base hr hl _ =>
    obtain ⟨hmem, heq⟩ := Eval.of_get?_methodTable hf
    rw [heq]
    exact ⟨⟨Routine.regular_of_mem hr hmem, hl⟩, rfl⟩
  | derived hr hl he _ _ _ =>
    obtain ⟨hmem, heq⟩ := Eval.of_get?_methodTable hf
    obtain ⟨sites, hc⟩ := hl
    rw [heq]
    exact ⟨⟨Routine.regular_of_mem hr hmem, _, .scope he hc⟩, rfl⟩

/-- A method that is found belongs to a class from there upwards. -/
theorem Declared.of_findMethod {s : State} {c : Class} (h : Declared s c) {name : String} {f : Closure}
    (hf : c.findMethod name = some f) : Callable s f ∧ Attached s f.decl f.env c := by
  have hown : ∀ {d}, Declared s d → d.methods.get? name = some f →
      Callable s f ∧ Attached s f.decl f.env d := by
    intro d hd hm
    obtain ⟨hcall, heq⟩ := hd.own hm
    exact ⟨hcall, d, name, .refl d, hd, heq ▸ hm⟩
  induction h with
  | @base _ _ env methods hr hl hp =>
    rw [Class.findMethod] at hf
    cases ht : (Eval.methodTable env methods).get? name with
    | none => simp [ht] at hf
    | some g =>
      simp only [ht, Option.some.injEq] at hf
      exact hown (.base hr hl hp) (hf ▸ ht)
  | @derived _ _ parent i outer methods hr hl he hi hv hparent ih =>
    rw [Class.findMethod] at hf
    cases ht : (Eval.methodTable (i :: outer) methods).get? name with
    | none =>
      simp only [ht] at hf
      obtain ⟨hcall, d, name', hd, hdecl, hm⟩ := ih hf
      exact ⟨hcall, d, name', .up rfl hd, hdecl, hm⟩
    | some g =>
      simp only [ht, Option.some.injEq] at hf
      exact hown (.derived hr hl he hi hv hparent) (hf ▸ ht)

/-- A class whose methods look names up in a frame with `super` has that superclass. -/
theorem Declared.superclass_eq {s : State} {d parent : Class} (h : Declared s d) {name : String}
    {decl : Routine} {i : Nat} {outer : Env} (hm : d.methods.get? name = some (decl.method (i :: outer)))
    (hi : i ≠ Machine.globalFrame) (hv : s.machine.frames.read i "super" = some (.classDef parent)) :
    d.superclass = some parent := by
  cases h with
  | base _ _ hp =>
    have henv := congrArg Closure.env (Eval.of_get?_methodTable hm).2
    obtain ⟨-, hnone⟩ := hp i outer henv.symm hi
    rw [hv] at hnone
    cases hnone
  | derived _ _ _ _ hread _ =>
    have henv := congrArg Closure.env (Eval.of_get?_methodTable hm).2
    obtain ⟨rfl, -⟩ := List.cons.inj henv
    cases hread.symm.trans hv
    rfl

/-! ## Single steps -/

/-- Along a run, states stay lineal and the environment is the same again. -/
structure Heir (s s' : State) : Prop extends Grown s s' where
  env : s'.machine.env = s.machine.env
  lineal : Lineal s'

variable {s : State}

theorem Heir.refl (h : Lineal s) : Heir s s := ⟨⟨List.suffix_refl _, .refl _⟩, rfl, h⟩

theorem Heir.trans {s₁ s₂ s₃ : State} (h : Heir s₁ s₂) (h' : Heir s₂ s₃) : Heir s₁ s₃ :=
  ⟨h.toGrown.trans h'.toGrown, h'.env.trans h.env, h'.lineal⟩

/-- Values are what is to be looked at when only the machine changes. -/
theorem Lineal.changed (h : Lineal s) {m : Machine} (hf : s.machine.frames.Fixes m.frames)
    (henv : m.env = s.machine.env)
    (hframes : ∀ {i name v}, m.frames.read i name = some v →
      Rooted s v ∨ s.machine.frames.read i name = some v)
    (hfields : ∀ {id name v}, (m.fields id).get? name = some v →
      Rooted s v ∨ (s.machine.fields id).get? name = some v) : Heir s { s with machine := m } := by
  have hg : Grown s { s with machine := m } := ⟨List.suffix_refl _, hf⟩
  refine ⟨hg, henv, ?_⟩
  exact
    { frames := fun hr => ((hframes hr).elim id h.frames).grown hg
      fields := fun hr => ((hfields hr).elim id h.fields).grown hg
      size := Nat.lt_of_lt_of_le h.size hf.size
      linked := henv ▸ h.linked
      plain := henv ▸ h.plain.fixes hf
      entered := fun he => (h.entered he).grown hg
      younger := h.younger
      referred := fun hr => (h.referred hr).trans hf
      recalled := fun hr => (h.recalled hr).grown hg
      began := h.began }

theorem Lineal.same (h : Lineal s) {m : Machine} (hf : m.frames = s.machine.frames)
    (ho : m.objects = s.machine.objects) (henv : m.env = s.machine.env) :
    Heir s { s with machine := m } := by
  refine h.changed (hf ▸ .refl _) henv (fun hr => .inr ?_) fun hr => .inr ?_
  · rwa [hf] at hr
  · rwa [Machine.fields, ho] at hr

theorem Lineal.define (h : Lineal s) (i : Nat) {name : Token} (hn : name.Free) {v : Value}
    (hv : Rooted s v) : Heir s (s.define i name.lexeme v) := by
  refine h.changed (.define _ i hn v) rfl (fun hr => ?_) .inr
  rcases Frames.read_of_define hr with ⟨-, -, rfl⟩ | hr
  · exact .inl hv
  · exact .inr hr

theorem Lineal.setField (h : Lineal s) (id : Nat) (name : String) {v : Value} (hv : Rooted s v) :
    Heir s (s.withObjects (s.machine.objects.modify id (·.insert name v))) := by
  refine h.changed (.refl _) rfl .inr fun hr => ?_
  rcases Machine.get?_of_setField hr with rfl | hr
  · exact .inl hv
  · exact .inr hr

theorem Lineal.newObject (h : Lineal s) : Heir s (s.withObjects (s.machine.objects.push [])) :=
  h.changed (.refl _) rfl .inr fun hr => .inr (Machine.get?_of_newObject hr)

/-- What makes an event one of a lineal state. -/
def Marks (s : State) : Event → Prop
  | .accepted _ _ => True
  | .entered site outer i => Made s site outer i ∧ Younger s.log outer i
  | .referred _ m => m.frames.Fixes s.machine.frames ∧ Knows s m
  | .began _ m => Plain m.frames m.env

theorem Lineal.note (h : Lineal s) (event : Event) (he : Marks s event) : Heir s (s.note event) := by
  have hg : Grown s (s.note event) := ⟨List.suffix_cons _ _, .refl _⟩
  refine ⟨hg, rfl, ?_⟩
  exact
    { toKnows := h.toKnows.grown hg
      size := h.size
      plain := h.plain
      entered := fun hm => by
        rcases List.mem_cons.1 hm with rfl | hm
        · exact he.1.grown hg
        · exact (h.entered hm).grown hg
      younger := fun hm => by
        rcases List.mem_cons.1 hm with rfl | hm
        · exact he.2.grown hg
        · exact (h.younger hm).grown hg
      referred := fun hm => by
        rcases List.mem_cons.1 hm with rfl | hm
        · exact he.1
        · exact h.referred hm
      recalled := fun hm => by
        rcases List.mem_cons.1 hm with rfl | hm
        · exact he.2.grown hg
        · exact (h.recalled hm).grown hg
      began := fun hm => by
        rcases List.mem_cons.1 hm with rfl | hm
        · exact he
        · exact h.began hm }

/-- All frames of a linked environment are there. -/
theorem Lineal.lt_size (h : Lineal s) {env : Env} (hl : Linked s.log env) : ∀ j ∈ env, j < s.machine.frames.size := by
  obtain ⟨sites, hc⟩ := hl
  induction hc with
  | globals => exact List.forall_mem_singleton.2 h.size
  | scope he _ ih => exact List.forall_mem_cons.2 ⟨(h.entered he).lt_size, ih⟩

/-- A new frame with what belongs to its site. -/
theorem Lineal.enter (h : Lineal s) {site : Site} {outer : Env} (hl : Linked s.log outer) {frame : Frame}
    (hv : ∀ {name v}, frame.get? name = some v → Rooted s v)
    (hp : Placed (s.push frame) outer s.machine.frames.size site) :
    Heir s (s.enter site outer frame) := by
  have hpush : Heir s (s.push frame) := by
    refine h.changed (.add _ frame) rfl (fun hr => ?_) .inr
    rw [Frames.read_add] at hr
    split at hr
    · exact .inl (hv hr)
    · exact .inr hr
  refine hpush.trans (hpush.lineal.note _ ⟨⟨Nat.ne_of_gt h.size, ?_, hp⟩, hl, h.lt_size hl⟩)
  rw [State.size_push]
  exact Nat.lt_succ_self _

/-- What the frame that was just made binds. -/
theorem State.read_push (s : State) (frame : Frame) (name : String) :
    (s.push frame).machine.frames.read s.machine.frames.size name = frame.get? name := by
  rw [State.push, Frames.read_add, if_pos rfl]

theorem Lineal.inEnv (h : Lineal s) {env : Env} (hl : Linked s.log env)
    (hp : Plain s.machine.frames env) : Lineal (s.inEnv env) :=
  have hg : Grown s (s.inEnv env) := ⟨List.suffix_refl _, .refl _⟩
  { frames := fun hr => (h.frames hr).grown hg
    fields := fun hr => (h.fields hr).grown hg
    size := h.size
    linked := hl
    plain := hp
    entered := fun he => (h.entered he).grown hg
    younger := h.younger
    referred := h.referred
    recalled := fun hr => (h.recalled hr).grown hg
    began := h.began }

/-- The environment of a frame that was just made. -/
theorem Lineal.enterEnv (h : Lineal s) {site : Site} {outer : Env} {i : Nat}
    (he : .entered site outer i ∈ s.log) (hl : Linked s.log outer)
    (hn : s.machine.frames.read i "super" = none) : Lineal (s.inEnv (i :: outer)) := by
  obtain ⟨sites, hc⟩ := hl
  refine h.inEnv ⟨_, .scope he hc⟩ ?_
  rintro j outer' henv -
  cases henv
  exact ⟨(h.entered he).lt_size, hn⟩

theorem Lineal.inGlobals (h : Lineal s) : Lineal (s.inEnv Machine.globals) := by
  refine h.inEnv ⟨[], .globals⟩ ?_
  rintro i outer henv hi
  cases henv
  exact absurd rfl hi

theorem Rooted.of_offers (h : Lineal s) {args : List Value} (ha : ∀ v ∈ args, Rooted s v)
    {v : Value} (hv : s.machine.Offers args v) : Rooted s v := by
  induction hv with
  | argument hv => exact ha _ hv
  | bound hv => exact h.frames hv
  | field hv => exact h.fields hv
  | object _ _ ih => exact ih
  | classDef _ ih => exact ih
  | _ => trivial

theorem Lineal.onlyGlobals (h : Lineal s) {m : Machine} (hm : s.machine.OnlyGlobals m) :
    Heir s { s with machine := m } := by
  have hf : s.machine.frames.Fixes m.frames :=
    ⟨Nat.le_of_eq hm.size.symm, fun hi _ => hm.locals _ _ hi, fun hi _ => hm.locals _ _ hi⟩
  refine h.changed hf hm.env (fun {i name v} hr => ?_) fun hr => .inr ?_
  · by_cases hi : i = Machine.globalFrame
    · subst hi
      exact .inl (.of_offers h (List.forall_mem_nil _) (hm.offered name v hr))
    · exact .inr (by rwa [hm.locals i name hi] at hr)
  · rwa [Machine.fields, hm.objects] at hr

end Trace
end Lox
