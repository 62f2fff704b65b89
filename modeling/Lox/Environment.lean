import Lox.Value

/-!
# Variables

A frame binds names to values. Frames are never removed, so a frame's number stays good, and an
environment is a chain of such numbers. A name is looked up along the chain, or in the frame at a
known distance. Assigning changes a binding that is there and never makes one.
-/

namespace Lox

abbrev Frame := Table Value

/-- All frames, by number. -/
abbrev Frames := Array Frame

namespace Frames

/-- One frame more, whose number is the number of frames before. -/
def add (fs : Frames) (frame : Frame) : Frames := fs.push frame

/-- The value of `name` in one frame. -/
def read (fs : Frames) (i : Nat) (name : String) : Option Value :=
  match fs[i]? with
  | some frame => frame.get? name
  | none => none

/-- Binds `name` in one frame, anew or over its old value. -/
def define (fs : Frames) (i : Nat) (name : String) (value : Value) : Frames :=
  fs.modify i (·.insert name value)

/-- The names of one frame, by code points. -/
def names (fs : Frames) (i : Nat) : List String :=
  match fs[i]? with
  | some frame => frame.sortedNames
  | none => []

/-- The innermost frame of the chain that binds `name`. -/
def holder? (fs : Frames) : Env → String → Option Nat
  | [], _ => none
  | i :: rest, name => if (fs.read i name).isSome then some i else holder? fs rest name

def get? (fs : Frames) : Env → String → Option Value
  | [], _ => none
  | i :: rest, name =>
    match fs.read i name with
    | some v => some v
    | none => get? fs rest name

/-- The value of `name` in the frame `distance` steps out, and nowhere else. -/
def getAt? (fs : Frames) (env : Env) (distance : Nat) (name : String) : Option Value :=
  match env[distance]? with
  | some i => fs.read i name
  | none => none

/-- The frame `distance` steps out, if it binds `name`. -/
def holderAt? (fs : Frames) (env : Env) (distance : Nat) (name : String) : Option Nat :=
  match env[distance]? with
  | some i => if (fs.read i name).isSome then some i else none
  | none => none

/-- Assigns along the chain. -/
def assign? (fs : Frames) (env : Env) (name : String) (value : Value) : Option Frames :=
  (fs.holder? env name).map fun i => fs.define i name value

/-- Assigns in the frame `distance` steps out, and nowhere else. -/
def assignAt? (fs : Frames) (env : Env) (distance : Nat) (name : String) (value : Value) :
    Option Frames :=
  (fs.holderAt? env distance name).map fun i => fs.define i name value

@[simp] theorem size_define (fs : Frames) (i : Nat) (name : String) (value : Value) :
    (fs.define i name value).size = fs.size := by
  simp [define]

/-- Defining changes the one slot that it names. -/
theorem read_define (fs : Frames) {i : Nat} (h : i < fs.size) (name : String) (value : Value)
    (j : Nat) (other : String) :
    (fs.define i name value).read j other =
      if i = j ∧ name = other then some value else fs.read j other := by
  by_cases hj : j < fs.size
  · by_cases hi : i = j
    · subst hi
      simp [read, define, hj, Array.getElem_modify, Table.get?_insert]
    · simp [read, define, hj, hi, Array.getElem_modify]
  · have hij : i ≠ j := by omega
    simp [read, define, hj, hij]

@[simp] theorem size_add (fs : Frames) (frame : Frame) : (fs.add frame).size = fs.size + 1 := by
  simp [add]

theorem read_add_of_lt (fs : Frames) (frame : Frame) {i : Nat} (h : i < fs.size) (name : String) :
    (fs.add frame).read i name = fs.read i name := by
  simp [read, add, Array.getElem?_push_lt h, h]

theorem read_add (fs : Frames) (frame : Frame) (i : Nat) (name : String) :
    (fs.add frame).read i name = if i = fs.size then frame.get? name else fs.read i name := by
  rcases Nat.lt_trichotomy i fs.size with h | h | h
  · rw [read_add_of_lt fs frame h, if_neg (Nat.ne_of_lt h)]
  · simp [h, read, add]
  · have hi : ¬ i < fs.size + 1 := by omega
    have hi' : ¬ i < fs.size := by omega
    simp [read, add, hi, hi', Nat.ne_of_gt h]

/-- A frame that is not there binds nothing. -/
theorem lt_size_of_read {fs : Frames} {i : Nat} {name : String} {value : Value}
    (h : fs.read i name = some value) : i < fs.size := by
  by_cases hi : i < fs.size
  · exact hi
  · simp [read, hi] at h

/-- What is found at a distance is bound in the frame there. -/
theorem read_of_getAt? {fs : Frames} {env : Env} {d : Nat} {name : String} {v : Value}
    (h : fs.getAt? env d name = some v) : ∃ i, env[d]? = some i ∧ fs.read i name = some v := by
  unfold getAt? at h
  split at h
  case h_1 i hi => exact ⟨i, hi, h⟩
  case h_2 => cases h

/-- Looking a name up is reading it where it is held. -/
theorem get?_eq_holder?_bind (fs : Frames) (env : Env) (name : String) :
    fs.get? env name = (fs.holder? env name).bind (fs.read · name) := by
  induction env with
  | nil => rfl
  | cons i rest ih =>
    cases hr : fs.read i name with
    | none => simp [get?, holder?, hr, ih]
    | some v => simp [get?, holder?, hr]

/-- A frame that holds a name binds it. -/
theorem isSome_of_holderAt? {fs : Frames} {env : Env} {d i : Nat} {name : String}
    (h : fs.holderAt? env d name = some i) : (fs.read i name).isSome = true := by
  unfold holderAt? at h
  split at h
  · split at h
    · cases h
      assumption
    · cases h
  · cases h

theorem isSome_of_holder? {fs : Frames} {env : Env} {i : Nat} {name : String}
    (h : fs.holder? env name = some i) : (fs.read i name).isSome = true := by
  induction env with
  | nil => cases h
  | cons j rest ih =>
    unfold holder? at h
    split at h
    · cases h
      assumption
    · exact ih h

/-- No frame loses a name. -/
def Grow (fs fs' : Frames) : Prop :=
  ∀ i name, (fs.read i name).isSome = true → (fs'.read i name).isSome = true

theorem Grow.refl (fs : Frames) : Grow fs fs := fun _ _ => id

theorem Grow.trans {fs₁ fs₂ fs₃ : Frames} (h : Grow fs₁ fs₂) (h' : Grow fs₂ fs₃) : Grow fs₁ fs₃ :=
  fun i name hb => h' i name (h i name hb)

theorem define_of_size_le {fs : Frames} {i : Nat} (h : fs.size ≤ i) (name : String) (v : Value) :
    fs.define i name v = fs := by
  unfold define
  apply Array.ext
  · simp
  · intro j hj _
    have hne : i ≠ j := by
      rw [Array.size_modify] at hj
      omega
    simp [Array.getElem_modify, hne]

/-- What is read after a definition was there or is what was defined. -/
theorem read_of_define {fs : Frames} {i j : Nat} {name other : String} {v w : Value}
    (h : (fs.define i name v).read j other = some w) :
    (i = j ∧ name = other ∧ v = w) ∨ fs.read j other = some w := by
  by_cases hi : i < fs.size
  · rw [read_define fs hi] at h
    split at h
    case isTrue hij =>
      cases h
      exact .inl ⟨hij.1, hij.2, rfl⟩
    case isFalse => exact .inr h
  · rw [define_of_size_le (Nat.le_of_not_lt hi)] at h
    exact .inr h

theorem Grow.define (fs : Frames) (i : Nat) (name : String) (v : Value) :
    Grow fs (fs.define i name v) := by
  intro j other hb
  by_cases hi : i < fs.size
  · rw [read_define fs hi]
    split
    · rfl
    · exact hb
  · rwa [define_of_size_le (Nat.le_of_not_lt hi)]

theorem Grow.add (fs : Frames) (frame : Frame) : Grow fs (fs.add frame) := by
  intro j other hb
  obtain ⟨v, hv⟩ := Option.isSome_iff_exists.1 hb
  rwa [read_add_of_lt fs frame (lt_size_of_read hv)]

end Frames

/-- The environment `distance` steps out. -/
def Env.ancestor? (env : Env) (distance : Nat) : Option Env :=
  match env.drop distance with
  | [] => none
  | outer => some outer

end Lox
