import Lox.Proofs.Flow.Upkeep

/-!
# What a machine holds

All functions on a machine come from programs that passed the analysis, so their bodies are confined to
the role they were declared in. An initializer is called on an object only, `this` is always
an object and `super` a class. A state is orderly if this holds of its values and of its log. Each
single step leads from an orderly state to an orderly one.
-/

namespace Lox
open Scoping

/-! ## Orderly states -/

/-- A routine as a program may declare it in that role. -/
structure Routine.Proper (role : RoutineRole) (r : Routine) : Prop where
  regular : r.Regular
  confined : r.Confined role
  inside : role ≠ .topLevel

/-- Every method is proper, own or inherited. -/
def Class.Proper (c : Class) : Prop :=
  ∀ name f, c.findMethod name = some f → f.decl.Proper (methodRole f.decl.name)

/-- The routine of the site is proper. -/
def Scoping.Site.Proper : Site → Prop
  | .routine decl => ∃ role, decl.Proper role
  | .receiver decl => decl.Proper (methodRole decl.name)
  | _ => True

namespace Trace

/-- A function that may be called: if it is an initializer, on an object. -/
structure TameFunction (fs : Frames) (f : Closure) : Prop where
  proper : ∃ role, f.decl.Proper role
  bound : f.isInitializer = true → ∃ i outer, f.env = i :: outer ∧ (fs.read i "this").isSome = true

def Tame (fs : Frames) : Value → Prop
  | .function _ f => TameFunction fs f
  | .classDef c | .object _ c => c.Proper
  | _ => True

theorem TameFunction.grow {fs fs' : Frames} {f : Closure} (h : TameFunction fs f) (hg : fs.Grow fs') :
    TameFunction fs' f := by
  refine ⟨h.proper, fun hi => ?_⟩
  obtain ⟨i, outer, henv, hb⟩ := h.bound hi
  exact ⟨i, outer, henv, hg i _ hb⟩

theorem Tame.grow {fs fs' : Frames} {v : Value} (h : Tame fs v) (hg : fs.Grow fs') : Tame fs' v := by
  cases v with
  | function id f => exact TameFunction.grow h hg
  | classDef c => exact h
  | object id c => exact h
  | _ => trivial

theorem Tame.of_isPlain {fs : Frames} {v : Value} (h : v.isPlain = true) : Tame fs v := by
  cases v with
  | function id f => cases h
  | classDef c => cases h
  | object id c => cases h
  | _ => trivial

/-- Apart from globals, `this` is an object and `super` is a class. -/
structure Reserved (fs : Frames) : Prop where
  receiver : ∀ {i v}, i ≠ Machine.globalFrame → fs.read i "this" = some v → ∃ id c, v = .object id c
  parent : ∀ {i v}, i ≠ Machine.globalFrame → fs.read i "super" = some v → ∃ c, v = .classDef c

structure Orderly (s : State) : Prop where
  frames : ∀ {i name v}, s.machine.frames.read i name = some v → Tame s.machine.frames v
  fields : ∀ {id name v}, (s.machine.fields id).get? name = some v → Tame s.machine.frames v
  size : 0 < s.machine.frames.size
  reserved : Reserved s.machine.frames
  accepted : ∀ {p d}, .accepted p d ∈ s.log → Stmt.AllRegular p ∧ Stmt.AllConfined .topLevel false p
  entered : ∀ {site outer i}, .entered site outer i ∈ s.log → site.Proper
  referred : ∀ {ref m}, .referred ref m ∈ s.log → Reserved m.frames
  began : ∀ {st m}, .began st m ∈ s.log → st.Regular

/-! ## Single steps -/

structure Onward (s s' : State) : Prop where
  grow : s.machine.frames.Grow s'.machine.frames
  orderly : Orderly s'

theorem Onward.refl {s : State} (h : Orderly s) : Onward s s := ⟨.refl _, h⟩

theorem Onward.trans {s₁ s₂ s₃ : State} (h : Onward s₁ s₂) (h' : Onward s₂ s₃) : Onward s₁ s₃ :=
  ⟨h.grow.trans h'.grow, h'.orderly⟩

variable {s : State}

/-- Values are what is to be looked at when only the machine changes. -/
theorem Orderly.onward (h : Orderly s) {m : Machine} (hg : s.machine.frames.Grow m.frames)
    (hsize : s.machine.frames.size ≤ m.frames.size)
    (hframes : ∀ {i name v}, m.frames.read i name = some v →
      Tame m.frames v ∨ s.machine.frames.read i name = some v)
    (hfields : ∀ {id name v}, (m.fields id).get? name = some v →
      Tame m.frames v ∨ (s.machine.fields id).get? name = some v)
    (hreserved : Reserved m.frames) : Onward s { s with machine := m } where
  grow := hg
  orderly :=
    { frames := fun hr => (hframes hr).elim id fun hr => (h.frames hr).grow hg
      fields := fun hr => (hfields hr).elim id fun hr => (h.fields hr).grow hg
      size := Nat.lt_of_lt_of_le h.size hsize
      reserved := hreserved
      accepted := h.accepted
      entered := h.entered
      referred := h.referred
      began := h.began }

/-- Neither frames nor fields change. -/
theorem Orderly.same (h : Orderly s) {m : Machine} (hf : m.frames = s.machine.frames)
    (ho : m.objects = s.machine.objects) : Onward s { s with machine := m } := by
  refine h.onward ?_ ?_ (fun hr => .inr ?_) (fun hr => .inr ?_) ?_
  · rw [hf]
    exact .refl _
  · rw [hf]
  · rwa [hf] at hr
  · rwa [Machine.fields, ho] at hr
  · rw [hf]
    exact h.reserved

theorem Orderly.define (h : Orderly s) {i : Nat} {name : Token} (hn : name.Free) {v : Value}
    (hv : Tame s.machine.frames v) : Onward s (s.define i name.lexeme v) := by
  have hg : s.machine.frames.Grow (s.machine.frames.define i name.lexeme v) := .define _ _ _ _
  refine h.onward hg ?_ (fun hr => ?_) (fun hr => .inr hr) ⟨fun hi hr => ?_, fun hi hr => ?_⟩
  · exact Nat.le_of_eq (Frames.size_define _ _ _ _).symm
  · rcases Frames.read_of_define hr with ⟨-, -, rfl⟩ | hr
    · exact .inl (hv.grow hg)
    · exact .inr hr
  · rcases Frames.read_of_define hr with ⟨-, hthis, -⟩ | hr
    · exact absurd hthis hn.1
    · exact h.reserved.receiver hi hr
  · rcases Frames.read_of_define hr with ⟨-, hsuper, -⟩ | hr
    · exact absurd hsuper hn.2
    · exact h.reserved.parent hi hr

theorem Orderly.withObjects (h : Orderly s) {objects : Array (Table Value)}
    (ho : ∀ {id : Nat} {name : String} {v : Value}, ((objects[id]?).getD []).get? name = some v →
      Tame s.machine.frames v ∨ (s.machine.fields id).get? name = some v) :
    Onward s (s.withObjects objects) :=
  h.onward (.refl _) (Nat.le_refl _) .inr ho h.reserved

theorem Orderly.setField (h : Orderly s) (id : Nat) (name : String) {v : Value}
    (hv : Tame s.machine.frames v) :
    Onward s (s.withObjects (s.machine.objects.modify id (·.insert name v))) := by
  refine h.withObjects fun hw => ?_
  rcases Machine.get?_of_setField hw with rfl | hw
  · exact .inl hv
  · exact .inr hw

theorem Orderly.newObject (h : Orderly s) : Onward s (s.withObjects (s.machine.objects.push [])) :=
  h.withObjects fun hw => .inr (Machine.get?_of_newObject hw)

/-- What makes an event an orderly one. -/
def Suits : Event → Prop
  | .accepted p _ => Stmt.AllRegular p ∧ Stmt.AllConfined .topLevel false p
  | .entered site _ _ => site.Proper
  | .referred _ m => Reserved m.frames
  | .began st _ => st.Regular

theorem Orderly.note (h : Orderly s) (event : Event) (he : Suits event) : Onward s (s.note event) where
  grow := .refl _
  orderly :=
    { frames := h.frames
      fields := h.fields
      size := h.size
      reserved := h.reserved
      accepted := fun hp => by
        rcases List.mem_cons.1 hp with rfl | hp
        · exact he
        · exact h.accepted hp
      entered := fun hp => by
        rcases List.mem_cons.1 hp with rfl | hp
        · exact he
        · exact h.entered hp
      referred := fun hp => by
        rcases List.mem_cons.1 hp with rfl | hp
        · exact he
        · exact h.referred hp
      began := fun hp => by
        rcases List.mem_cons.1 hp with rfl | hp
        · exact he
        · exact h.began hp }

/-- A new frame for a proper site. -/
theorem Orderly.enter (h : Orderly s) {site : Site} {outer : Env} {frame : Frame} (hs : site.Proper)
    (hv : ∀ {name v}, frame.get? name = some v → Tame s.machine.frames v)
    (hthis : ∀ {v}, frame.get? "this" = some v → ∃ id c, v = .object id c)
    (hsuper : ∀ {v}, frame.get? "super" = some v → ∃ c, v = .classDef c) :
    Onward s (s.enter site outer frame) := by
  have hg : s.machine.frames.Grow (s.machine.frames.add frame) := .add _ _
  have hpush : Onward s (s.push frame) := by
    refine h.onward hg ?_ (fun hr => ?_) (fun hr => .inr hr) ⟨fun hi hr => ?_, fun hi hr => ?_⟩
    · rw [Frames.size_add]
      exact Nat.le_succ _
    · rw [Frames.read_add] at hr
      split at hr
      · exact .inl ((hv hr).grow hg)
      · exact .inr hr
    · rw [Frames.read_add] at hr
      split at hr
      · exact hthis hr
      · exact h.reserved.receiver hi hr
    · rw [Frames.read_add] at hr
      split at hr
      · exact hsuper hr
      · exact h.reserved.parent hi hr
  exact hpush.trans (hpush.orderly.note _ hs)

theorem Orderly.inEnv (h : Orderly s) (env : Env) : Orderly (s.inEnv env) :=
  (h.same (m := { s.machine with env := env }) rfl rfl).orderly

theorem Tame.of_offers (h : Orderly s) {args : List Value} (ha : ∀ v ∈ args, Tame s.machine.frames v)
    {v : Value} (hv : s.machine.Offers args v) : Tame s.machine.frames v := by
  induction hv with
  | argument hv => exact ha _ hv
  | bound hv => exact h.frames hv
  | field hv => exact h.fields hv
  | object _ _ ih => exact ih
  | classDef _ ih => exact ih
  | _ => trivial

theorem Orderly.onlyGlobals (h : Orderly s) {m : Machine} (hm : s.machine.OnlyGlobals m) :
    Onward s { s with machine := m } := by
  have hg : s.machine.frames.Grow m.frames := by
    intro i name hb
    by_cases hi : i = Machine.globalFrame
    · subst hi
      exact hm.kept name hb
    · rwa [hm.locals i name hi]
  refine h.onward hg (Nat.le_of_eq hm.size.symm) (fun {i name v} hr => ?_) (fun hr => .inr ?_)
    ⟨fun hi hr => ?_, fun hi hr => ?_⟩
  · by_cases hi : i = Machine.globalFrame
    · subst hi
      have hv : Tame s.machine.frames v := .of_offers h (List.forall_mem_nil _) (hm.offered name v hr)
      exact .inl (hv.grow hg)
    · exact .inr (by rwa [hm.locals i name hi] at hr)
  · rwa [Machine.fields, hm.objects] at hr
  · exact h.reserved.receiver hi (by rwa [hm.locals _ _ hi] at hr)
  · exact h.reserved.parent hi (by rwa [hm.locals _ _ hi] at hr)

/-- A text that is compiled changes no value, and a program that passed is orderly. -/
theorem Orderly.compile (h : Orderly s) (source : String) :
    Onward s { s with machine := (s.machine.compile source).2 } :=
  have hc := compiled s.machine source
  h.same hc.frames hc.objects

end Trace

end Lox
