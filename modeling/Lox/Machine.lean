import Lox.Environment
import Lox.Program.Read
import Lox.Scoping
import Lox.Sink

/-!
# The machine

The machine holds all that a running program can change: frames, the fields of objects, the
present environment, the output. It also keeps what outlives a single program: the distances of
scope analysis, the next unused identities, and warnings that wait to be reported.

A `Host` is what the machine runs in: files, a clock, functions and a loader of its own.
-/

namespace Lox

structure Machine where
  frames : Frames
  /-- The fields of each object. -/
  objects : Array (Table Value) := #[]
  /-- The next identity of a function or a class. -/
  nextRef : Nat := 0
  /-- The environment in which the program is at present. -/
  env : Env
  distances : Distances := {}
  nextNode : Nat := 0
  output : Sink := {}
  warnings : List Warning := []
  /-- How often the clock has been read. -/
  ticks : Nat := 0
  /-- The paths of the scripts that were asked for. -/
  requested : List String := []

/-- A built-in function of the host, which may look at the machine but not change it. -/
structure HostFunction where
  name : String
  arity : Nat
  run : Machine → List Value → Except String Value

/-- What `execute` does with a path. -/
inductive Loader where
  | absent
  | files
  | custom (load : String → Machine → Except Error Unit × Machine)

structure Host where
  /-- The text of a file. -/
  read : String → Except IoFault String := fun _ => .error .notFound
  loader : Loader := .absent
  /-- The clock in seconds at the reading after `n` earlier ones. -/
  clock : Nat → Float := fun n => (n + 1).toFloat * 0.000001
  functions : List HostFunction := []

namespace Machine

/-- The outermost frame. -/
def globalFrame : Nat := 0

def globals : Env := [globalFrame]

def clockFunction : Native := ⟨"clock", 0, .clock⟩

/-- The host's functions as values, numbered from `slot` on. -/
def hostValues : Nat → List HostFunction → List (String × Value)
  | _, [] => []
  | slot, f :: rest => (f.name, .native ⟨f.name, f.arity, .host slot⟩) :: hostValues (slot + 1) rest

def builtins (host : Host) : Frame :=
  (("clock", Value.native clockFunction) :: hostValues 0 host.functions).foldl
    (fun frame (name, value) => frame.insert name value) []

/-- A machine on which nothing has run. -/
def start (host : Host) (output : Sink) : Machine where
  frames := #[builtins host]
  env := globals
  output := output

def global? (m : Machine) (name : String) : Option Value := m.frames.read globalFrame name

def globalNames (m : Machine) : List String := m.frames.names globalFrame

def defineGlobal (m : Machine) (name : String) (value : Value) : Machine :=
  { m with frames := m.frames.define globalFrame name value }

def queueWarnings (m : Machine) (warnings : List Warning) : Machine :=
  { m with warnings := m.warnings ++ warnings }

/-- The warnings that wait, which then wait no longer. -/
def takeWarnings (m : Machine) : List Warning × Machine := (m.warnings, { m with warnings := [] })

/-- The fields of an object. -/
def fields (m : Machine) (id : Nat) : Table Value := (m.objects[id]?).getD []

/-- Analyses a program, adding its distances to those the machine has. -/
def analyse (m : Machine) (program : List Stmt) : List Error × List Warning × Machine :=
  let a := Stmt.analyse program m.distances
  (a.errors, a.warnings, { m with distances := a.distances })

/-- Reads a text into a program that may run, with the warnings about it; or all the errors of
reading it, or else all the errors of analysing it. -/
def compile (m : Machine) (source : String) :
    Except (List Error) (List Stmt × List Warning) × Machine :=
  match Stmt.read source m.nextNode with
  | (.error es, nextNode) => (.error es, { m with nextNode := nextNode })
  | (.ok program, nextNode) =>
    match { m with nextNode := nextNode }.analyse program with
    | ([], warnings, m) => (.ok (program, warnings), m)
    | (e :: rest, _, m) => (.error (e :: rest), m)

/-- What it means that a text passes. -/
theorem compile_eq_ok {m m' : Machine} {source : String} {program : List Stmt}
    {warnings : List Warning} :
    m.compile source = (.ok (program, warnings), m') ↔
      ∃ next, Stmt.read source m.nextNode = (.ok program, next) ∧
        (Stmt.analyse program m.distances).errors = [] ∧
        warnings = (Stmt.analyse program m.distances).warnings ∧
        m' = { m with
          nextNode := next, distances := (Stmt.analyse program m.distances).distances } := by
  unfold compile analyse
  cases Stmt.read source m.nextNode with
  | mk result next =>
    cases result with
    | error es => simp
    | ok p =>
      cases he : (Stmt.analyse p m.distances).errors with
      | nil =>
        simp only [he, Prod.mk.injEq, Except.ok.injEq]
        constructor
        · rintro ⟨⟨rfl, rfl⟩, rfl⟩
          exact ⟨next, ⟨rfl, rfl⟩, he, rfl, rfl⟩
        · rintro ⟨_, ⟨rfl, rfl⟩, -, rfl, rfl⟩
          exact ⟨⟨rfl, rfl⟩, rfl⟩
      | cons e rest =>
        simp only [he, Prod.mk.injEq, reduceCtorEq, false_and, Except.ok.injEq, false_iff]
        rintro ⟨_, ⟨rfl, rfl⟩, hnil, -⟩
        rw [he] at hnil
        cases hnil

/-- Whether or not a text passes, only identities and distances change. -/
theorem compile_snd (m : Machine) (source : String) :
    (m.compile source).2 = { m with
      nextNode := (m.compile source).2.nextNode, distances := (m.compile source).2.distances } := by
  unfold compile analyse
  split
  · rfl
  · dsimp only
    split <;> next h => injection h with _ h; injection h with _ h; subst h; rfl

end Machine
end Lox
