import Lox.Proofs.Effects
import Lox.Proofs.Inherit.Lineage

/-!
# Cells and what mentions them

What changes on a machine is kept in cells: the frames of variables and the fields of objects. A value mentions cells,
through the environment of a closure, the methods of a class and of the classes above it, and the identity of an
object. A cell is reached from some roots if a chain of values leads from them to it.

Some cells are set apart. Two machines are alike if they agree in all else and nothing outside mentions a cell set
apart.
-/

namespace Lox

/-- Where something is kept that changes: the variables of a frame or the fields of an object. -/
inductive Cell where
  | frame (i : Nat)
  | object (id : Nat)
  deriving DecidableEq

/-- The names of a cell with their values, if it is there. -/
def Machine.contents (m : Machine) : Cell → Option (Table Value)
  | .frame i => m.frames[i]?
  | .object id => m.objects[id]?

/-! ## Mentioning and reaching -/

def Env.Mentions (env : Env) (c : Cell) : Prop := ∃ i ∈ env, c = .frame i

/-- A class mentions what its methods mention, also those of the classes above. -/
def Class.Mentions (k : Class) (c : Cell) : Prop :=
  ∃ above name f, k.Descends above ∧ above.methods.get? name = some f ∧ f.env.Mentions c

def Value.Mentions : Value → Cell → Prop
  | .function _ f, c => f.env.Mentions c
  | .classDef k, c => k.Mentions c
  | .object id k, c => c = .object id ∨ k.Mentions c
  | _, _ => False

/-- A root, or what a value in a cell that is reached mentions. -/
inductive Machine.Reaches (m : Machine) (roots : Cell → Prop) : Cell → Prop
  | root {c : Cell} : roots c → Reaches m roots c
  | held {c d : Cell} {t : Table Value} {name : String} {v : Value} : Reaches m roots c → m.contents c = some t →
      t.get? name = some v → v.Mentions d → Reaches m roots d

/-! ## Avoiding cells -/

section Avoiding

variable (S : Cell → Prop)

def Env.Avoids (env : Env) : Prop := ∀ c, env.Mentions c → ¬ S c

def Class.Avoids (k : Class) : Prop := ∀ c, k.Mentions c → ¬ S c

def Value.Avoids (v : Value) : Prop := ∀ c, v.Mentions c → ¬ S c

def Table.Avoids (t : Table Value) : Prop := ∀ name v, t.get? name = some v → v.Avoids S

end Avoiding

variable {S : Cell → Prop}

theorem Env.Avoids.not_mem {env : Env} (h : env.Avoids S) {i : Nat} (hi : i ∈ env) : ¬ S (.frame i) :=
  h _ ⟨i, hi, rfl⟩

theorem Env.Avoids.tail {env : Env} {i : Nat} (h : Env.Avoids S (i :: env)) : env.Avoids S :=
  fun c ⟨j, hj, heq⟩ => h c ⟨j, List.mem_cons_of_mem i hj, heq⟩

theorem Env.Avoids.cons {env : Env} (h : env.Avoids S) {i : Nat} (hi : ¬ S (.frame i)) :
    Env.Avoids S (i :: env) := by
  rintro c ⟨j, hj, rfl⟩
  rcases List.mem_cons.1 hj with rfl | hj
  · exact hi
  · exact h.not_mem hj

/-- A method that is found is that of the class or of one above it. -/
theorem Class.exists_of_findMethod {name : String} {f : Closure} :
    ∀ k : Class, k.findMethod name = some f → ∃ above, k.Descends above ∧ above.methods.get? name = some f
  | ⟨id, label, superclass, methods⟩, h => by
    unfold Class.findMethod at h
    split at h
    case h_1 found hg =>
      cases h
      exact ⟨_, .refl _, hg⟩
    case h_2 =>
      split at h
      case h_1 parent =>
        obtain ⟨above, hd, hg⟩ := exists_of_findMethod parent h
        exact ⟨above, .up rfl hd, hg⟩
      case h_2 => cases h

theorem Class.Avoids.findMethod {k : Class} (h : k.Avoids S) {name : String} {f : Closure}
    (hf : k.findMethod name = some f) : f.env.Avoids S := by
  obtain ⟨above, hd, hg⟩ := Class.exists_of_findMethod k hf
  exact fun c hc => h c ⟨above, name, f, hd, hg, hc⟩

theorem Value.Avoids.object {id : Nat} {k : Class} (hid : ¬ S (.object id)) (hk : k.Avoids S) :
    (Value.object id k).Avoids S := by
  rintro c (rfl | hc)
  · exact hid
  · exact hk c hc

theorem Value.Avoids.of_object {id : Nat} {k : Class} (h : (Value.object id k).Avoids S) :
    ¬ S (.object id) ∧ k.Avoids S :=
  ⟨h _ (.inl rfl), fun c hc => h c (.inr hc)⟩

theorem Value.Avoids.of_isPlain {v : Value} (h : v.isPlain = true) : v.Avoids S := by
  intro c hc
  cases v with
  | function _ _ | classDef _ | object _ _ => cases h
  | _ => exact hc.elim

theorem Table.avoids_nil : Table.Avoids S [] := nofun

theorem Table.Avoids.insert {t : Table Value} (h : Table.Avoids S t) (name : String) {v : Value} (hv : v.Avoids S) :
    Table.Avoids S (t.insert name v) := by
  intro other w hw
  rw [Table.get?_insert] at hw
  split at hw
  · cases hw
    exact hv
  · exact h other w hw

theorem Table.avoids_singleton (name : String) {v : Value} (hv : v.Avoids S) : Table.Avoids S [(name, v)] :=
  avoids_nil.insert name hv

theorem Closure.avoids_frame (f : Closure) {args : List Value} (ha : ∀ v ∈ args, v.Avoids S) :
    Table.Avoids S (f.frame args) :=
  fun _ _ hv => ha _ (Closure.mem_of_get?_frame hv)

/-! ## Changing one cell -/

namespace Machine

theorem contents_define (m : Machine) (i : Nat) (name : String) (v : Value) (c : Cell) :
    { m with frames := m.frames.define i name v }.contents c =
      if c = .frame i then (m.contents c).map (·.insert name v) else m.contents c := by
  cases c with
  | frame j => simp [contents, Frames.define, Array.getElem?_modify, eq_comm]
  | object id => simp [contents]

theorem contents_add (m : Machine) (frame : Frame) (c : Cell) :
    { m with frames := m.frames.add frame }.contents c =
      if c = .frame m.frames.size then some frame else m.contents c := by
  cases c with
  | frame j => simp [contents, Frames.add, Array.getElem?_push]
  | object id => simp [contents]

theorem contents_setField (m : Machine) (id : Nat) (name : String) (v : Value) (c : Cell) :
    { m with objects := m.objects.modify id (·.insert name v) }.contents c =
      if c = .object id then (m.contents c).map (·.insert name v) else m.contents c := by
  cases c with
  | frame j => simp [contents]
  | object id => simp [contents, Array.getElem?_modify, eq_comm]

theorem contents_newObject (m : Machine) (c : Cell) :
    { m with objects := m.objects.push [] }.contents c =
      if c = .object m.objects.size then some [] else m.contents c := by
  cases c with
  | frame j => simp [contents]
  | object id => simp [contents, Array.getElem?_push]

end Machine

/-! ## Machines that are alike -/

/-- Cells are set apart, but not the globals. In them two machines hold what they held at first. -/
structure Division where
  apart : Cell → Prop
  left : Machine
  right : Machine
  globals : ¬ apart (.frame Machine.globalFrame)

namespace Division

variable {D : Division} {env : Env} {m m' : Machine}

/-- Both machines are in the environment, they differ at most in cells set apart, these are as they were, and no cell
but these mentions one of these. -/
structure Alike (D : Division) (env : Env) (m m' : Machine) : Prop where
  env : m.env = env
  rest : m' = { m with frames := m'.frames, objects := m'.objects }
  frames : m'.frames.size = m.frames.size
  objects : m'.objects.size = m.objects.size
  same : ∀ c, ¬ D.apart c → m'.contents c = m.contents c
  kept : ∀ c, D.apart c → m.contents c = D.left.contents c ∧ m'.contents c = D.right.contents c
  there : ∀ c, D.apart c → (m.contents c).isSome = true
  avoids : ∀ c t, ¬ D.apart c → m.contents c = some t → Table.Avoids D.apart t

namespace Alike

/-- A cell that is not there is not set apart. -/
theorem not_apart (h : D.Alike env m m') {c : Cell} (hc : m.contents c = none) : ¬ D.apart c := by
  intro hapart
  have hthere := h.there c hapart
  rw [hc] at hthere
  cases hthere

/-- The machines change in no cell and in the same way. -/
theorem carry (h : D.Alike env m m') {env₁ : Env} {m₁ m₁' : Machine} (henv : m₁.env = env₁)
    (hrest : m₁' = { m₁ with frames := m₁'.frames, objects := m₁'.objects })
    (hcells : m₁.frames = m.frames ∧ m₁.objects = m.objects)
    (hcells' : m₁'.frames = m'.frames ∧ m₁'.objects = m'.objects) : D.Alike env₁ m₁ m₁' := by
  have hleft : ∀ c, m₁.contents c = m.contents c := by
    intro c
    cases c <;> simp [Machine.contents, hcells]
  have hright : ∀ c, m₁'.contents c = m'.contents c := by
    intro c
    cases c <;> simp [Machine.contents, hcells']
  refine ⟨henv, hrest, ?_, ?_, fun c hc => ?_, fun c hc => ?_, fun c hc => ?_, fun c t hc ht => ?_⟩
  · rw [hcells.1, hcells'.1, h.frames]
  · rw [hcells.2, hcells'.2, h.objects]
  · rw [hleft, hright, h.same c hc]
  · rw [hleft, hright]
    exact h.kept c hc
  · rw [hleft]
    exact h.there c hc
  · rw [hleft] at ht
    exact h.avoids c t hc ht

/-- One cell that is not set apart changes, in the same way on both machines. -/
theorem change (h : D.Alike env m m') {c : Cell} (hc : ¬ D.apart c) {m₁ m₁' : Machine}
    {f : Option (Table Value) → Option (Table Value)} (hf : ∀ t, f (m.contents c) = some t → Table.Avoids D.apart t)
    (henv : m₁.env = env) (hrest : m₁' = { m₁ with frames := m₁'.frames, objects := m₁'.objects })
    (hframes : m₁'.frames.size = m₁.frames.size) (hobjects : m₁'.objects.size = m₁.objects.size)
    (hleft : ∀ d, m₁.contents d = if d = c then f (m.contents d) else m.contents d)
    (hright : ∀ d, m₁'.contents d = if d = c then f (m'.contents d) else m'.contents d) : D.Alike env m₁ m₁' := by
  have hother : ∀ {d}, D.apart d → d ≠ c := fun hd heq => hc (heq ▸ hd)
  refine ⟨henv, hrest, hframes, hobjects, fun d hd => ?_, fun d hd => ?_, fun d hd => ?_, fun d t hd ht => ?_⟩
  · rw [hleft, hright, h.same d hd]
  · rw [hleft, hright, if_neg (hother hd), if_neg (hother hd)]
    exact h.kept d hd
  · rw [hleft, if_neg (hother hd)]
    exact h.there d hd
  · rw [hleft] at ht
    split at ht
    case isTrue heq =>
      subst heq
      exact hf t ht
    case isFalse => exact h.avoids d t hd ht

variable {name : String} {v : Value}

theorem avoids_insert (h : D.Alike env m m') {c : Cell} (hc : ¬ D.apart c) (hv : v.Avoids D.apart)
    (t : Table Value) (ht : (m.contents c).map (·.insert name v) = some t) : Table.Avoids D.apart t := by
  obtain ⟨old, hold, rfl⟩ := Option.map_eq_some_iff.1 ht
  exact (h.avoids c old hc hold).insert name hv

theorem define (h : D.Alike env m m') {i : Nat} (hi : ¬ D.apart (.frame i)) (hv : v.Avoids D.apart) :
    D.Alike env { m with frames := m.frames.define i name v } { m' with frames := m'.frames.define i name v } := by
  obtain ⟨frames, objects, rfl⟩ : ∃ fs os, m' = { m with frames := fs, objects := os } := ⟨_, _, h.rest⟩
  refine h.change hi (h.avoids_insert hi hv) h.env rfl ?_ h.objects (m.contents_define i name v)
    (Machine.contents_define _ i name v)
  simpa using h.frames

theorem setField (h : D.Alike env m m') {id : Nat} (hid : ¬ D.apart (.object id)) (hv : v.Avoids D.apart) :
    D.Alike env { m with objects := m.objects.modify id (·.insert name v) }
      { m' with objects := m'.objects.modify id (·.insert name v) } := by
  obtain ⟨frames, objects, rfl⟩ : ∃ fs os, m' = { m with frames := fs, objects := os } := ⟨_, _, h.rest⟩
  refine h.change hid (h.avoids_insert hid hv) h.env rfl h.frames ?_ (m.contents_setField id name v)
    (Machine.contents_setField _ id name v)
  simpa using h.objects

/-- A new frame is not set apart. -/
theorem add (h : D.Alike env m m') {frame : Frame} (hv : Table.Avoids D.apart frame) :
    ¬ D.apart (.frame m.frames.size) ∧
    D.Alike env { m with frames := m.frames.add frame } { m' with frames := m'.frames.add frame } := by
  have hnew : ¬ D.apart (.frame m.frames.size) := h.not_apart (by simp [Machine.contents])
  obtain ⟨frames, objects, rfl⟩ : ∃ fs os, m' = { m with frames := fs, objects := os } := ⟨_, _, h.rest⟩
  have hright := Machine.contents_add { m with frames := frames, objects := objects } frame
  refine ⟨hnew, h.change hnew (f := fun _ => some frame) ?_ h.env rfl ?_ h.objects (m.contents_add frame) ?_⟩
  · intro t ht
    cases ht
    exact hv
  · simpa using h.frames
  · rwa [h.frames] at hright

theorem newObject (h : D.Alike env m m') :
    ¬ D.apart (.object m.objects.size) ∧
    D.Alike env { m with objects := m.objects.push [] } { m' with objects := m'.objects.push [] } := by
  have hnew : ¬ D.apart (.object m.objects.size) := h.not_apart (by simp [Machine.contents])
  obtain ⟨frames, objects, rfl⟩ : ∃ fs os, m' = { m with frames := fs, objects := os } := ⟨_, _, h.rest⟩
  have hright := Machine.contents_newObject { m with frames := frames, objects := objects }
  refine ⟨hnew, h.change hnew (f := fun _ => some []) ?_ h.env rfl h.frames ?_ m.contents_newObject ?_⟩
  · intro t ht
    cases ht
    exact Table.avoids_nil
  · simpa using h.objects
  · rwa [h.objects] at hright

/-! ## Looking at machines that are alike -/

theorem read (h : D.Alike env m m') {i : Nat} (hi : ¬ D.apart (.frame i)) (name : String) :
    m'.frames.read i name = m.frames.read i name := by
  have hsame : m'.frames[i]? = m.frames[i]? := h.same (.frame i) hi
  simp only [Frames.read, hsame]

theorem avoids_read (h : D.Alike env m m') {i : Nat} (hi : ¬ D.apart (.frame i))
    (hr : m.frames.read i name = some v) : v.Avoids D.apart := by
  unfold Frames.read at hr
  split at hr
  case h_1 frame hframe => exact h.avoids (.frame i) frame hi hframe name v hr
  case h_2 => cases hr

theorem holder? (h : D.Alike env m m') {chain : Env} (hc : chain.Avoids D.apart) (name : String) :
    m'.frames.holder? chain name = m.frames.holder? chain name := by
  induction chain with
  | nil => rfl
  | cons i rest ih =>
    rw [Frames.holder?, Frames.holder?, h.read (hc.not_mem List.mem_cons_self), ih hc.tail]

theorem not_apart_of_holder? {chain : Env} (hc : chain.Avoids D.apart) {i : Nat}
    (hi : m.frames.holder? chain name = some i) : ¬ D.apart (.frame i) := by
  induction chain with
  | nil => cases hi
  | cons j rest ih =>
    unfold Frames.holder? at hi
    split at hi
    · cases hi
      exact hc.not_mem List.mem_cons_self
    · exact ih hc.tail hi

theorem getAt? (h : D.Alike env m m') {chain : Env} (hc : chain.Avoids D.apart) (d : Nat) (name : String) :
    m'.frames.getAt? chain d name = m.frames.getAt? chain d name := by
  unfold Frames.getAt?
  cases hi : chain[d]? with
  | none => rfl
  | some i => exact h.read (hc.not_mem (List.mem_of_getElem? hi)) name

theorem avoids_getAt? (h : D.Alike env m m') {chain : Env} (hc : chain.Avoids D.apart) {d : Nat}
    (hv : m.frames.getAt? chain d name = some v) : v.Avoids D.apart := by
  obtain ⟨i, hi, hread⟩ := Frames.read_of_getAt? hv
  exact h.avoids_read (hc.not_mem (List.mem_of_getElem? hi)) hread

theorem holderAt? (h : D.Alike env m m') {chain : Env} (hc : chain.Avoids D.apart) (d : Nat) (name : String) :
    m'.frames.holderAt? chain d name = m.frames.holderAt? chain d name := by
  unfold Frames.holderAt?
  cases hi : chain[d]? with
  | none => rfl
  | some i =>
    dsimp only
    rw [h.read (hc.not_mem (List.mem_of_getElem? hi))]

theorem not_apart_of_holderAt? {chain : Env} (hc : chain.Avoids D.apart) {d i : Nat}
    (hi : m.frames.holderAt? chain d name = some i) : ¬ D.apart (.frame i) := by
  unfold Frames.holderAt? at hi
  split at hi
  case h_1 j hj =>
    split at hi
    · cases hi
      exact hc.not_mem (List.mem_of_getElem? hj)
    · cases hi
  case h_2 => cases hi

theorem fields (h : D.Alike env m m') {id : Nat} (hid : ¬ D.apart (.object id)) : m'.fields id = m.fields id := by
  have hsame : m'.objects[id]? = m.objects[id]? := h.same (.object id) hid
  simp only [Machine.fields, hsame]

theorem avoids_fields (h : D.Alike env m m') {id : Nat} (hid : ¬ D.apart (.object id)) :
    Table.Avoids D.apart (m.fields id) := by
  unfold Machine.fields
  cases ht : m.objects[id]? with
  | none => exact Table.avoids_nil
  | some t => exact h.avoids (.object id) t hid ht

end Alike
end Division
end Lox
