import Lox.Proofs.Construct.Parameters

/-!
# Machines on which every initializer is bound

All routines on the machine come from programs that passed, every object is one that the machine has made, and a
function that is an initializer has its receiver in the first frame of its environment. There it stays: no program
can give another value to `this`. If the host leaves identities alone then a class is also younger than the one above.
-/

namespace Lox
open Ending Eval

/-! ## Methods and classes -/

/-- A routine as a program that passed declares it. -/
structure Routine.Apt (r : Routine) : Prop where
  regular : r.Regular
  distinct : r.Distinct

/-- A method as it is declared: an initializer by its name. -/
structure Closure.IsMethod (f : Closure) : Prop where
  apt : f.decl.Apt
  initializer : f.isInitializer = decide (f.decl.name.lexeme = initName)

def Class.Apt (c : Class) : Prop :=
  ∀ name f, c.findMethod name = some f → f.IsMethod ∧ f.decl.name.lexeme = name

theorem Class.findMethod_eq (c : Class) (name : String) :
    c.findMethod name = (c.methods.get? name).or (c.superclass.bind (·.findMethod name)) := by
  obtain ⟨id, own, superclass, methods⟩ := c
  cases superclass with
  | none =>
    rw [Class.findMethod]
    cases methods.get? name <;> rfl
  | some parent =>
    rw [Class.findMethod]
    cases methods.get? name <;> rfl

/-- The class of a declaration, over a superclass that is apt if there is one. -/
theorem Class.Apt.declared {id : Nat} {name : String} {parent : Option Class} (hp : ∀ c, parent = some c → c.Apt)
    (env : Env) {methods : List Routine} (hm : ∀ r ∈ methods, r.Apt) :
    (⟨id, name, parent, methodTable env methods⟩ : Class).Apt := by
  intro key f hf
  rw [Class.findMethod_eq] at hf
  cases hown : (methodTable env methods).get? key with
  | some g =>
    simp only [hown, Option.some_or, Option.some.injEq] at hf
    subst hf
    rw [get?_methodTable] at hown
    obtain ⟨r, hr, rfl⟩ := Option.map_eq_some_iff.1 hown
    refine ⟨⟨hm r (List.mem_reverse.1 (List.mem_of_find?_eq_some hr)), rfl⟩, ?_⟩
    simpa [Routine.method] using List.find?_some hr
  | none =>
    simp only [hown, Option.none_or] at hf
    obtain ⟨c, hc, hf⟩ := Option.bind_eq_some_iff.1 hf
    exact hp c hc key f hf

/-! ## Values -/

/-- The class and all those above it have identities below `k`, and each a greater one than the next. -/
def Class.Ordered (k : Nat) (c : Class) : Prop :=
  ∀ d, c.Descends d → d.id < k ∧ ∀ parent, d.superclass = some parent → parent.id < d.id

theorem Class.Ordered.mono {k l : Nat} {c : Class} (h : c.Ordered k) (hk : k ≤ l) : c.Ordered l :=
  fun d hd => ⟨Nat.lt_of_lt_of_le (h d hd).1 hk, (h d hd).2⟩

/-- The next class, over one that is there. -/
theorem Class.Ordered.next {k : Nat} {name : String} {parent : Option Class} {methods : Table Closure}
    (hp : ∀ c, parent = some c → c.Ordered k) : (⟨k, name, parent, methods⟩ : Class).Ordered (k + 1) := by
  intro d hd
  cases hd with
  | refl => exact ⟨Nat.lt_succ_self k, fun c hc => (hp c hc c (.refl c)).1⟩
  | up hc hd => exact ((hp _ hc).mono (Nat.le_succ k)) d hd

/-- What machines are looked at for. -/
structure Terms where
  /-- The receiver that a function counts as bound to. -/
  born : Closure → Value → Prop
  /-- Whether classes have to be younger than those above them. -/
  ordered : Prop

/-- The function can be called. An initializer was bound, and the receiver it was bound to is its `this`. -/
structure Closure.Ready (terms : Terms) (fs : Frames) (f : Closure) : Prop where
  apt : f.decl.Apt
  bound : f.isInitializer = true → ∃ i outer receiver, f.env = i :: outer ∧ i ≠ Machine.globalFrame ∧
    fs.read i "this" = some receiver ∧ terms.born f receiver

structure Class.Known (terms : Terms) (m : Machine) (c : Class) : Prop where
  apt : c.Apt
  ordered : terms.ordered → c.Ordered m.nextRef

/-- The routines behind the value come from programs that passed. -/
def Value.Rooted (terms : Terms) (m : Machine) : Value → Prop
  | .function _ f => f.Ready terms m.frames
  | .classDef c | .object _ c => c.Known terms m
  | _ => True

/-- If it is an object then the machine has made it. -/
def Value.Present (m : Machine) : Value → Prop
  | .object id _ => id < m.objects.size
  | _ => True

structure Value.Fine (terms : Terms) (m : Machine) (v : Value) : Prop where
  rooted : v.Rooted terms m
  present : v.Present m

/-! ## Machines -/

structure Machine.Bound (terms : Terms) (m : Machine) : Prop where
  frames : ∀ {i name v}, m.frames.read i name = some v → v.Fine terms m
  fields : ∀ {id name v}, (m.fields id).get? name = some v → v.Fine terms m
  size : 0 < m.frames.size

/-- What was bound to `this` stays so, and objects are there to stay. -/
structure Machine.Follows (terms : Terms) (m m' : Machine) : Prop where
  frames : m.frames.Fixes m'.frames
  objects : m.objects.size ≤ m'.objects.size
  nextRef : terms.ordered → m.nextRef ≤ m'.nextRef

section follows

variable {terms : Terms} {m m' : Machine} {v : Value}

theorem Machine.Follows.refl (m : Machine) : m.Follows terms m := ⟨.refl _, Nat.le_refl _, fun _ => Nat.le_refl _⟩

theorem Machine.Follows.trans {m₁ m₂ m₃ : Machine} (h : m₁.Follows terms m₂) (h' : m₂.Follows terms m₃) :
    m₁.Follows terms m₃ :=
  ⟨h.frames.trans h'.frames, Nat.le_trans h.objects h'.objects, fun ht => Nat.le_trans (h.nextRef ht) (h'.nextRef ht)⟩

theorem Closure.Ready.fixes {fs fs' : Frames} {f : Closure} (h : f.Ready terms fs) (hf : fs.Fixes fs') :
    f.Ready terms fs' := by
  refine ⟨h.apt, fun hi => ?_⟩
  obtain ⟨i, outer, receiver, henv, hglobal, hthis, hborn⟩ := h.bound hi
  exact ⟨i, outer, receiver, henv, hglobal, hf.read_receiver hglobal hthis, hborn⟩

theorem Class.Known.follows {c : Class} (h : c.Known terms m) (hf : m.Follows terms m') : c.Known terms m' :=
  ⟨h.apt, fun ht => (h.ordered ht).mono (hf.nextRef ht)⟩

theorem Value.Rooted.follows (h : v.Rooted terms m) (hf : m.Follows terms m') : v.Rooted terms m' := by
  cases v with
  | function id f => exact Closure.Ready.fixes h hf.frames
  | classDef c => exact Class.Known.follows h hf
  | object id c => exact Class.Known.follows h hf
  | _ => trivial

theorem Value.Present.follows (h : v.Present m) (hf : m.Follows terms m') : v.Present m' := by
  cases v with
  | object id c => exact Nat.lt_of_lt_of_le h hf.objects
  | _ => trivial

theorem Value.Fine.follows (h : v.Fine terms m) (hf : m.Follows terms m') : v.Fine terms m' :=
  ⟨h.rooted.follows hf, h.present.follows hf⟩

theorem Value.Fine.of_isPlain (h : v.isPlain = true) : v.Fine terms m := by
  cases v with
  | function id f => cases h
  | classDef c => cases h
  | object id c => cases h
  | _ => exact ⟨trivial, trivial⟩

/-- Only new values have to be looked at. -/
theorem Machine.Bound.follows (h : m.Bound terms) (hf : m.Follows terms m')
    (hframes : ∀ {i name v}, m'.frames.read i name = some v → v.Fine terms m' ∨ m.frames.read i name = some v)
    (hfields : ∀ {id name v}, (m'.fields id).get? name = some v →
      v.Fine terms m' ∨ (m.fields id).get? name = some v) : m'.Bound terms where
  frames hr := (hframes hr).elim id fun hr => (h.frames hr).follows hf
  fields hr := (hfields hr).elim id fun hr => (h.fields hr).follows hf
  size := Nat.lt_of_lt_of_le h.size hf.frames.size

theorem Machine.Bound.getAt? (h : m.Bound terms) {env : Env} {d : Nat} {name : String}
    (hv : m.frames.getAt? env d name = some v) : v.Fine terms m := by
  obtain ⟨i, -, hi⟩ := Frames.read_of_getAt? hv
  exact h.frames hi

theorem Machine.Follows.same (hf : m'.frames = m.frames) (ho : m'.objects = m.objects)
    (hn : m.nextRef ≤ m'.nextRef) : m.Follows terms m' :=
  ⟨hf ▸ .refl _, Nat.le_of_eq (congrArg Array.size ho.symm), fun _ => hn⟩

/-- Neither frames nor fields change. -/
theorem Machine.Bound.same (h : m.Bound terms) (hf : m'.frames = m.frames) (ho : m'.objects = m.objects)
    (hn : m.nextRef ≤ m'.nextRef) : m.Follows terms m' ∧ m'.Bound terms := by
  have hfol : m.Follows terms m' := .same hf ho hn
  refine ⟨hfol, h.follows hfol (fun hr => .inr ?_) fun hr => .inr ?_⟩
  · rwa [hf] at hr
  · rwa [Machine.fields, ho] at hr

theorem Machine.Bound.define (h : m.Bound terms) (i : Nat) {name : Token} (hn : name.Free) (hv : v.Fine terms m) :
    m.Follows terms { m with frames := m.frames.define i name.lexeme v } ∧
      ({ m with frames := m.frames.define i name.lexeme v } : Machine).Bound terms := by
  have hf : m.Follows terms { m with frames := m.frames.define i name.lexeme v } :=
    ⟨.define _ i hn v, Nat.le_refl _, fun _ => Nat.le_refl _⟩
  refine ⟨hf, h.follows hf (fun hr => ?_) .inr⟩
  rcases Frames.read_of_define hr with ⟨-, -, rfl⟩ | hr
  · exact .inl (hv.follows hf)
  · exact .inr hr

theorem Machine.Bound.add (h : m.Bound terms) {frame : Frame}
    (hv : ∀ {name v}, frame.get? name = some v → v.Fine terms m) :
    m.Follows terms { m with frames := m.frames.add frame } ∧
      ({ m with frames := m.frames.add frame } : Machine).Bound terms := by
  have hf : m.Follows terms { m with frames := m.frames.add frame } := ⟨.add _ _, Nat.le_refl _, fun _ => Nat.le_refl _⟩
  refine ⟨hf, h.follows hf (fun {i name v} hr => ?_) .inr⟩
  change (m.frames.add frame).read i name = some v at hr
  rw [Frames.read_add] at hr
  split at hr
  · exact .inl ((hv hr).follows hf)
  · exact .inr hr

theorem Machine.Bound.setField (h : m.Bound terms) (id : Nat) (name : String) (hv : v.Fine terms m) :
    m.Follows terms { m with objects := m.objects.modify id (·.insert name v) } ∧
      ({ m with objects := m.objects.modify id (·.insert name v) } : Machine).Bound terms := by
  have hf : m.Follows terms { m with objects := m.objects.modify id (·.insert name v) } :=
    ⟨.refl _, by simp, fun _ => Nat.le_refl _⟩
  refine ⟨hf, h.follows hf .inr fun hw => ?_⟩
  rcases Machine.get?_of_setField hw with rfl | hw
  · exact .inl (hv.follows hf)
  · exact .inr hw

theorem Machine.Bound.newObject (h : m.Bound terms) :
    m.Follows terms { m with objects := m.objects.push [] } ∧
      ({ m with objects := m.objects.push [] } : Machine).Bound terms := by
  have hf : m.Follows terms { m with objects := m.objects.push [] } := ⟨.refl _, by simp, fun _ => Nat.le_refl _⟩
  exact ⟨hf, h.follows hf .inr fun hw => .inr (Machine.get?_of_newObject hw)⟩

end follows

/-! ## The host -/

/-- An honest host that does not make objects up. -/
structure Host.Sincere (host : Host) : Prop extends host.Honest where
  given : ∀ f ∈ host.functions, ∀ m args v, f.run m args = .ok v → v ∈ args ∨ v.Present m
  loaded : ∀ f, host.loader = .custom f → ∀ path m name v, (f path m).2.global? name = some v → v.Present m

/-- A loader does not give identities back. -/
def Host.Steady (host : Host) : Prop :=
  ∀ load, host.loader = .custom load → ∀ path m, m.nextRef ≤ (load path m).2.nextRef

section host

variable {terms : Terms} {m m' : Machine} {v : Value}

theorem Value.Rooted.of_offers (h : m.Bound terms) {args : List Value} (ha : ∀ v ∈ args, v.Fine terms m)
    (hv : m.Offers args v) : v.Rooted terms m := by
  induction hv with
  | argument hv => exact (ha _ hv).rooted
  | bound hv => exact (h.frames hv).rooted
  | field hv => exact (h.fields hv).rooted
  | object _ _ ih => exact ih
  | classDef _ ih => exact ih
  | _ => trivial

theorem Machine.Bound.onlyGlobals (h : m.Bound terms) (hm : m.OnlyGlobals m')
    (hpresent : ∀ name v, m'.global? name = some v → v.Present m) (hn : terms.ordered → m.nextRef ≤ m'.nextRef) :
    m.Follows terms m' ∧ m'.Bound terms := by
  have hf : m.Follows terms m' := by
    refine ⟨⟨Nat.le_of_eq hm.size.symm, fun hi _ => ?_, fun hi _ => ?_⟩, Nat.le_of_eq ?_, hn⟩
    · exact hm.locals _ _ hi
    · exact hm.locals _ _ hi
    · rw [hm.objects]
  refine ⟨hf, h.follows hf (fun {i name v} hr => ?_) fun hr => .inr ?_⟩
  · by_cases hi : i = Machine.globalFrame
    · subst hi
      have hrooted : v.Rooted terms m := .of_offers h (List.forall_mem_nil _) (hm.offered name v hr)
      exact .inl ⟨hrooted.follows hf, (hpresent name v hr).follows hf⟩
    · exact .inr (by rwa [hm.locals i name hi] at hr)
  · rwa [Machine.fields, hm.objects] at hr

/-- A text that is compiled changes no value. -/
theorem Machine.Bound.compile (h : m.Bound terms) {source : String}
    {result : Except (List Error) (List Stmt × List Warning)} (hc : m.compile source = (result, m')) :
    m.Follows terms m' ∧ m'.Bound terms := by
  have hm : m' = (m.compile source).2 := by rw [hc]
  rw [m.compile_snd] at hm
  rw [hm]
  exact h.same rfl rfl (Nat.le_refl _)

end host

theorem Stmt.apt_of_compile {m m' : Machine} {source : String} {program : List Stmt} {warnings : List Warning}
    (h : m.compile source = (.ok (program, warnings), m')) : Stmt.AllRegular program ∧ Stmt.AllDistinct program := by
  obtain ⟨next, hr, he, -, -⟩ := Machine.compile_eq_ok.1 h
  exact ⟨Stmt.read_regular hr, Stmt.distinct_of_analyse he⟩

end Lox
