import Lox.Proofs.Effects

/-!
# The environment is restored

Whatever is run, and however it ends, the machine is afterwards in the environment it was in before.
Only a loader of the host's own has to be trusted with this; the loader of files is covered.
-/

namespace Lox
open Ending

/-- A loader of the host's own comes back to the environment it was called in. -/
def Host.LoaderRestores (host : Host) : Prop :=
  ∀ load, host.loader = .custom load → ∀ path m, (load path m).2.env = m.env

/-- Anything may be done but to leave the machine in another environment. -/
def Effects.restoring : Effects where
  change m m' := m'.env = m.env
  error _ := True

theorem Machine.env_compile (m : Machine) (source : String) : (m.compile source).2.env = m.env := by
  rw [m.compile_snd source]

theorem Effects.restoring_allow {host : Host} (hl : host.LoaderRestores) : restoring.Allow host where
  refl _ := rfl
  trans h₁ h₂ := h₂.trans h₁
  inEnv _ _ := rfl
  define _ _ _ _ := rfl
  add _ _ := rfl
  setField _ _ _ _ := rfl
  newObject _ := rfl
  newRef _ := rfl
  write _ _ := rfl
  flush _ := rfl
  tick _ := rfl
  request _ _ := rfl
  compile := Machine.env_compile
  queue _ := rfl
  runtime _ _ := trivial
  refused _ := trivial
  unreadable _ _ := trivial
  script _ _ _ _ _ := trivial
  loader path m h := ⟨hl _ h path m, fun _ _ => trivial⟩

theorem Effects.Bounds.env_state {α : Type} {act : Eval α} (h : restoring.Bounds act) (m : Machine) :
    (state (act m)).env = m.env := by
  have hm := h m
  cases hr : act m with
  | ok a m' =>
    rw [hr] at hm
    exact hm
  | error e m' =>
    rw [hr] at hm
    cases e with
    | failed e => exact hm.1
    | exhausted => exact hm

/-- Expressions, statements, blocks run in any environment, calls of any value, scripts and whole
programs leave the machine in the environment it was in, however they end and at whatever depth. -/
theorem env_restored (host : Host) (hl : host.LoaderRestores) (n : Nat) (m : Machine) :
    (∀ e, (state (evaluate host n e m)).env = m.env) ∧
    (∀ s, (state (execute host n s m)).env = m.env) ∧
    (∀ env body, (state (Eval.inEnv env (executeAll host n body) m)).env = m.env) ∧
    (∀ paren f args, (state (call host n paren f args m)).env = m.env) ∧
    (∀ keyword path, (state (load host n keyword path m)).env = m.env) ∧
    (∀ program, (state (interpret host n program m)).env = m.env) := by
  have ha := Effects.restoring_allow hl
  have hn := runsBounded ha n
  refine ⟨fun e => ?_, fun s => ?_, fun env body => ?_, fun paren f args => ?_,
    fun keyword path => ?_, fun program => ?_⟩
  · exact (hn.evaluate e).env_state m
  · exact (hn.execute s).env_state m
  · exact (Effects.Bounds.inEnv ha env (hn.executeAll body)).env_state m
  · exact (hn.call paren f args).env_state m
  · exact (hn.load keyword path).env_state m
  · exact (hn.interpret program).env_state m

/-- A loader that has no script. -/
def Host.scriptless : Host where
  loader := .custom fun _ m => (.error (.io .notFound), m)

/-- A machine inside a block of the globals. -/
def Machine.inBlock : Machine where
  frames := #[[], []]
  env := [1, 0]

/-- Two blocks, the inner of which runs a script. -/
def Stmt.nestedScript : Stmt :=
  .block [.block [.execute ⟨.keyword .executeKw, "execute", 1⟩ (.literal (.string "absent.lox"))]]

/-- A run that fails inside two further blocks is back in the block that it started from. -/
theorem env_restored_nestedScript :
    Host.scriptless.LoaderRestores ∧
    (∃ m, execute Host.scriptless 9 Stmt.nestedScript Machine.inBlock
      = .error (.failed (.io .notFound)) m) ∧
    (state (execute Host.scriptless 9 Stmt.nestedScript Machine.inBlock)).env = [1, 0] := by
  have hl : Host.scriptless.LoaderRestores := by
    intro load h path m
    cases h
    rfl
  exact ⟨hl, ⟨_, rfl⟩, (env_restored Host.scriptless hl 9 Machine.inBlock).2.1 Stmt.nestedScript⟩

end Lox
