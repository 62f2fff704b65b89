import Lox.Machine
import Lox.Proofs.Match.Trees

/-!
# Matched machines

Two machines are matched when they hold the same values up to the identities and lines in the
functions among them, and will go on to hand out identities in step. A class counts by the methods
that it finds, a frame by the names that it binds.
-/

namespace Lox

/-! ## Values -/

structure Closure.Matched (ρ : Matching) (f f' : Closure) : Prop where
  decl : f.decl.Matched ρ f'.decl
  env : f'.env = f.env
  isInitializer : f'.isInitializer = f.isInitializer

structure Class.Matched (ρ : Matching) (c c' : Class) : Prop where
  id : c'.id = c.id
  name : c'.name = c.name
  methods : ∀ name, Option.Rel (Closure.Matched ρ) (c.findMethod name) (c'.findMethod name)

inductive Value.Matched (ρ : Matching) : Value → Value → Prop
  | nil : Value.Matched ρ .nil .nil
  | bool (b : Bool) : Value.Matched ρ (.bool b) (.bool b)
  | number (x : Float) : Value.Matched ρ (.number x) (.number x)
  | string (s : String) : Value.Matched ρ (.string s) (.string s)
  | native (f : Native) : Value.Matched ρ (.native f) (.native f)
  | function (id : Nat) {f f' : Closure} : f.Matched ρ f' →
      Value.Matched ρ (.function id f) (.function id f')
  | classDef {c c' : Class} : c.Matched ρ c' → Value.Matched ρ (.classDef c) (.classDef c')
  | object (id : Nat) {c c' : Class} : c.Matched ρ c' →
      Value.Matched ρ (.object id c) (.object id c')

section

variable {ρ : Matching}

theorem Routine.Matched.name {r r' : Routine} (h : r.Matched ρ r') : r.name.Matched ρ r'.name := by
  cases h with
  | mk hname _ _ => exact hname

theorem Routine.Matched.params {r r' : Routine} (h : r.Matched ρ r') :
    List.Forall₂ (Token.Matched ρ) r.params r'.params := by
  cases h with
  | mk _ hparams _ => exact hparams

theorem Routine.Matched.body {r r' : Routine} (h : r.Matched ρ r') :
    Stmt.MatchedAll ρ r.body r'.body := by
  cases h with
  | mk _ _ hbody => exact hbody

theorem Closure.Matched.arity {f f' : Closure} (h : f.Matched ρ f') : f'.arity = f.arity :=
  h.decl.params.length_eq.symm

theorem Closure.Matched.name {f f' : Closure} (h : f.Matched ρ f') : f'.name = f.name :=
  h.decl.name.lexeme

theorem Class.Matched.arity {c c' : Class} (h : c.Matched ρ c') : c'.arity = c.arity := by
  have hi := h.methods initName
  unfold Class.arity Class.initializer?
  generalize c.findMethod initName = o at hi
  generalize c'.findMethod initName = o' at hi
  cases hi with
  | none => rfl
  | some hf => exact hf.arity

namespace Value.Matched

variable {v v' w w' : Value}

theorem truthy (h : v.Matched ρ v') : v'.truthy = v.truthy := by
  cases h <;> rfl

theorem text (h : v.Matched ρ v') : v'.text = v.text := by
  cases h with
  | function _ hf => exact congrArg ("<fn " ++ · ++ ">") hf.name
  | classDef hc => exact congrArg ("<class " ++ · ++ ">") hc.name
  | object _ hc => exact congrArg ("<instance " ++ · ++ ">") hc.name
  | _ => rfl

theorem callable? (h : v.Matched ρ v') : v'.callable? = v.callable? := by
  cases h with
  | function _ hf => simp only [Value.callable?, hf.name, hf.arity]
  | classDef hc => simp only [Value.callable?, hc.name, hc.arity]
  | _ => rfl

theorem equal (h : v.Matched ρ v') (k : w.Matched ρ w') : v'.equal w' = v.equal w := by
  cases h with
  | classDef hc =>
    cases k with
    | classDef kc => simp only [Value.equal, hc.id, kc.id]
    | _ => rfl
  | _ => cases k <;> rfl

end Value.Matched

theorem Value.matched_ofLiteral (v : Literal) : (Value.ofLiteral v).Matched ρ (.ofLiteral v) := by
  cases v with
  | nil => exact .nil
  | bool b => exact .bool b
  | number x => exact .number x
  | string s => exact .string s

end

/-! ## Tables -/

/-- Both tables have the same names, with values that go together. -/
def Table.Agree {α : Type} (R : α → α → Prop) (t t' : Table α) : Prop :=
  ∀ name, Option.Rel R (t.get? name) (t'.get? name)

theorem Table.Agree.insert {α : Type} {R : α → α → Prop} {t t' : Table α} (h : t.Agree R t')
    (name : String) {v v' : α} (hv : R v v') : (t.insert name v).Agree R (t'.insert name v') := by
  intro x
  rw [Table.get?_insert, Table.get?_insert]
  split
  · exact .some hv
  · exact h x

theorem Table.Agree.single {α : Type} {R : α → α → Prop} (name : String) {v v' : α} (hv : R v v') :
    Table.Agree R [(name, v)] [(name, v')] := by
  have hnil : Table.Agree R [] [] := fun _ => .none
  exact hnil.insert name hv

/-! ## Pairings -/

/-- Which identities and lines on one machine go with which on another, which errors are alike, and which
warnings waited before. Identities from `low` on go with those from `low'` on, one by one. -/
structure Pairing where
  base : Nat → Nat → Prop
  low : Nat
  low' : Nat
  line : Nat → Nat → Prop
  error : Error → Error → Prop
  older : List Warning
  older' : List Warning
  base_lt {i j : Nat} : base i j → i < low ∧ j < low'
  base_unique {i j i' j' : Nat} : base i j → base i' j' → (i = i' ↔ j = j')
  line_refl (k : Nat) : line k k
  error_refl (e : Error) : error e e
  error_runtime {k l : Nat} (fault : RuntimeFault) : line k l →
    error (.runtime k fault) (.runtime l fault)

namespace Pairing

def InStep (π : Pairing) (i j : Nat) : Prop := ∃ k, i = π.low + k ∧ j = π.low' + k

def matching (π : Pairing) : Matching where
  node i j := π.base i j ∨ π.InStep i j
  line := π.line

/-- An identity goes with one other. -/
theorem node_unique (π : Pairing) {i j i' j' : Nat} (h : π.matching.node i j)
    (h' : π.matching.node i' j') : i = i' ↔ j = j' := by
  rcases h with h | ⟨k, rfl, rfl⟩
  · rcases h' with h' | ⟨k', rfl, rfl⟩
    · exact π.base_unique h h'
    · have := π.base_lt h
      omega
  · rcases h' with h' | ⟨k', rfl, rfl⟩
    · have := π.base_lt h'
      omega
    · omega

end Pairing

/-! ## Machines -/

/-- A new object has no fields, as one that is not there. -/
theorem Machine.fields_push (m : Machine) (id : Nat) :
    { m with objects := m.objects.push [] }.fields id = m.fields id := by
  unfold Machine.fields
  rw [Array.getElem?_push]
  split
  case isTrue hid => simp [hid]
  case isFalse => rfl

theorem Machine.fields_modify (m : Machine) (id : Nat) (name : String) (v : Value) (k : Nat) :
    { m with objects := m.objects.modify id (·.insert name v) }.fields k =
      if k < m.objects.size ∧ id = k then (m.fields k).insert name v else m.fields k := by
  unfold Machine.fields
  dsimp only
  by_cases hk : k < m.objects.size
  · by_cases hid : id = k
    · simp [hk, hid, Array.getElem_modify]
    · simp [hk, hid, Array.getElem_modify]
  · simp [hk]

/-- The same text, and the same refusals from now on. -/
structure Sink.Matched (o o' : Sink) : Prop where
  text : o'.text = o.text
  writes : ∀ k, o'.refusesWrite (o'.writes + k) = o.refusesWrite (o.writes + k)
  flushes : ∀ k, o'.refusesFlush (o'.flushes + k) = o.refusesFlush (o.flushes + k)

structure Machine.Matched (π : Pairing) (m m' : Machine) : Prop where
  size : m'.frames.size = m.frames.size
  frames : ∀ i name, Option.Rel (Value.Matched π.matching) (m.frames.read i name) (m'.frames.read i name)
  objects : m'.objects.size = m.objects.size
  fields : ∀ id, (m.fields id).Agree (Value.Matched π.matching) (m'.fields id)
  nextRef : m'.nextRef = m.nextRef
  env : m'.env = m.env
  ticks : m'.ticks = m.ticks
  requested : m'.requested = m.requested
  nodes : π.InStep m.nextNode m'.nextNode
  distances : ∀ i j, π.matching.node i j → m'.distances[j]? = m.distances[i]?
  fresh : ∀ i, m.nextNode ≤ i → m.distances[i]? = none
  fresh' : ∀ j, m'.nextNode ≤ j → m'.distances[j]? = none
  output : m.output.Matched m'.output
  warnings : ∃ new, m.warnings = π.older ++ new ∧ m'.warnings = π.older' ++ new

namespace Sink.Matched

variable {o o' : Sink}

theorem write (h : o.Matched o') (s : String) :
    (o'.write s).1 = (o.write s).1 ∧ (o.write s).2.Matched (o'.write s).2 := by
  have hw : o'.refusesWrite o'.writes = o.refusesWrite o.writes := h.writes 0
  have hnext : ∀ k, o'.refusesWrite (o'.writes + 1 + k) = o.refusesWrite (o.writes + 1 + k) := by
    intro k
    rw [Nat.add_assoc, Nat.add_assoc]
    exact h.writes (1 + k)
  unfold Sink.write
  rw [hw]
  cases o.refusesWrite o.writes with
  | none => exact ⟨rfl, congrArg (· ++ s) h.text, hnext, h.flushes⟩
  | some refusal => exact ⟨rfl, congrArg (· ++ refusal.kept s) h.text, hnext, h.flushes⟩

theorem flush (h : o.Matched o') : o'.flush.1 = o.flush.1 ∧ o.flush.2.Matched o'.flush.2 := by
  refine ⟨h.flushes 0, h.text, h.writes, fun k => ?_⟩
  show o'.refusesFlush (o'.flushes + 1 + k) = o.refusesFlush (o.flushes + 1 + k)
  rw [Nat.add_assoc, Nat.add_assoc]
  exact h.flushes (1 + k)

end Sink.Matched

namespace Machine.Matched

variable {π : Pairing} {m m' : Machine}

/-! ## Reading -/

theorem getAt? (h : m.Matched π m') (env : Env) (d : Nat) (name : String) :
    Option.Rel (Value.Matched π.matching) (m.frames.getAt? env d name) (m'.frames.getAt? env d name) := by
  unfold Frames.getAt?
  cases env[d]? with
  | none => exact .none
  | some i => exact h.frames i name

theorem get? (h : m.Matched π m') (env : Env) (name : String) :
    Option.Rel (Value.Matched π.matching) (m.frames.get? env name) (m'.frames.get? env name) := by
  induction env with
  | nil => exact .none
  | cons i rest ih =>
    have hr := h.frames i name
    unfold Frames.get?
    generalize m.frames.read i name = o at hr
    generalize m'.frames.read i name = o' at hr
    cases hr with
    | none => exact ih
    | some hv => exact .some hv

theorem isSome_read (h : m.Matched π m') (i : Nat) (name : String) :
    (m'.frames.read i name).isSome = (m.frames.read i name).isSome := by
  have hr := h.frames i name
  generalize m.frames.read i name = o at hr
  generalize m'.frames.read i name = o' at hr
  cases hr <;> rfl

theorem holder? (h : m.Matched π m') (env : Env) (name : String) :
    m'.frames.holder? env name = m.frames.holder? env name := by
  induction env with
  | nil => rfl
  | cons i rest ih =>
    unfold Frames.holder?
    rw [h.isSome_read, ih]

theorem holderAt? (h : m.Matched π m') (env : Env) (d : Nat) (name : String) :
    m'.frames.holderAt? env d name = m.frames.holderAt? env d name := by
  unfold Frames.holderAt?
  cases env[d]? with
  | none => rfl
  | some i =>
    dsimp only
    rw [h.isSome_read]

/-! ## Changing -/

theorem define (h : m.Matched π m') (i : Nat) (name : String) {v v' : Value}
    (hv : v.Matched π.matching v') :
    { m with frames := m.frames.define i name v }.Matched π
      { m' with frames := m'.frames.define i name v' } := by
  by_cases hi : i < m.frames.size
  · have hi' : i < m'.frames.size := h.size ▸ hi
    refine { h with size := by simp [h.size], frames := fun j x => ?_ }
    dsimp only
    rw [Frames.read_define _ hi, Frames.read_define _ hi']
    split
    · exact .some hv
    · exact h.frames j x
  · rw [Frames.define_of_size_le (Nat.le_of_not_lt hi),
      Frames.define_of_size_le (h.size ▸ Nat.le_of_not_lt hi)]
    exact h

theorem add (h : m.Matched π m') {frame frame' : Frame}
    (hf : frame.Agree (Value.Matched π.matching) frame') :
    { m with frames := m.frames.add frame }.Matched π { m' with frames := m'.frames.add frame' } := by
  refine { h with size := by simp [h.size], frames := fun i name => ?_ }
  dsimp only
  rw [Frames.read_add, Frames.read_add, h.size]
  split
  · exact hf name
  · exact h.frames i name

theorem newObject (h : m.Matched π m') :
    { m with objects := m.objects.push [] }.Matched π { m' with objects := m'.objects.push [] } := by
  refine { h with objects := by simp [h.objects], fields := fun id => ?_ }
  rw [fields_push, fields_push]
  exact h.fields id

theorem setField (h : m.Matched π m') (id : Nat) (name : String) {v v' : Value}
    (hv : v.Matched π.matching v') :
    { m with objects := m.objects.modify id (·.insert name v) }.Matched π
      { m' with objects := m'.objects.modify id (·.insert name v') } := by
  refine { h with objects := by simp [h.objects], fields := fun k => ?_ }
  rw [fields_modify, fields_modify, h.objects]
  split
  · exact (h.fields k).insert name hv
  · exact h.fields k

end Machine.Matched
end Lox
