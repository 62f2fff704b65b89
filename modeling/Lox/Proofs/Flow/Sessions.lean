import Lox.Proofs.Flow.Runs
import Lox.Proofs.Scope.Sessions

/-!
# Flows in a session

Every state of a session is orderly. So no `break` or `return` crosses the border it belongs to: a program or
script runs to its last statement or fails, a body does not break out of its call, and an initializer
returns nothing.
-/

namespace Lox
open Scoping

/-! ## Orderly sessions -/

namespace Trace

theorem orderly_start (host : Host) (output : Sink) : Orderly ⟨Machine.start host output, []⟩ where
  frames {i name v} hr := by
    obtain ⟨f, rfl⟩ := native_of_read_start hr
    trivial
  fields hr := by cases hr
  size := Nat.zero_lt_one
  reserved := by
    constructor
    · intro i v hi hr
      cases i with
      | zero => exact absurd rfl hi
      | succ i => cases hr
    · intro i v hi hr
      cases i with
      | zero => exact absurd rfl hi
      | succ i => cases hr
  accepted := nofun
  entered := nofun
  referred := nofun
  began := nofun

/-- An error that a run adds to those of the session. -/
inductive Adds (E : Error → Prop) (m : Machine) (source : String) (log : Log) (e : Error) : Prop
  | static {es : List Error} : (m.compile source).1 = .error es → e ∈ es → Adds E m source log e
  | permitted : E e → Adds E m source log e
  | missing : Missing log → Adds E m source log e

end Trace

theorem Session.errors_addErrors (es : List Error) (s : Session) :
    (es.foldl addError s).errors = s.errors ++ es := by
  induction es generalizing s with
  | nil => simp
  | cons e rest ih =>
    rw [List.foldl_cons, ih]
    simp [addError]

theorem Session.errors_addWarnings (ws : List Warning) (s : Session) :
    (ws.foldl addWarning s).errors = s.errors := by
  induction ws generalizing s with
  | nil => rfl
  | cons w rest ih => exact ih _

namespace Trace

/-- Whatever the text and the outcome, the log stays orderly, and with it the machine if there is an
outcome. -/
theorem orderly_run {E : Error → Prop} {host : Host} (hh : host.Honest) (hp : host.Permits E)
    (fuel : Nat) (source : String) {s : Session} {log : Log} (h : Orderly ⟨s.machine, log⟩) :
    (∃ m, Orderly ⟨m, (run host fuel source s log).2⟩) ∧
      ∀ o s', (run host fuel source s log).1 = some (o, s') →
        Orderly ⟨s'.machine, (run host fuel source s log).2⟩ ∧
        ∀ e ∈ s'.errors, e ∈ s.errors ∨
          Adds E s.machine source (run host fuel source s log).2 e := by
  have hc := h.compile source
  unfold run
  cases hm : s.machine.compile source with
  | mk result m =>
    rw [hm] at hc
    cases result with
    | error es =>
      refine ⟨⟨m, hc.orderly⟩, fun o s' ho => ?_⟩
      cases ho
      refine ⟨?_, fun e he => ?_⟩
      · rw [Session.machine_addErrors]
        exact hc.orderly
      · rw [Session.errors_addErrors] at he
        exact (List.mem_append.1 he).imp_right (.static (by rw [hm]))
    | ok accepted =>
      obtain ⟨program, warnings⟩ := accepted
      have hprogram := Machine.orderly_of_compile hm
      dsimp only
      have hs : (warnings.foldl Session.addWarning { s with machine := m }).machine = m :=
        Session.machine_addWarnings _ _
      have herrors : (warnings.foldl Session.addWarning { s with machine := m }).errors = s.errors :=
        Session.errors_addWarnings _ _
      have hacc : Orderly ⟨m, .accepted program s.machine.distances :: log⟩ :=
        (hc.orderly.note (.accepted program s.machine.distances) hprogram).orderly
      have hrun := hacc.run hh hp fuel hprogram
      generalize warnings.foldl Session.addWarning { s with machine := m } = s₁ at hs herrors
      rw [hs]
      have hreport : ∀ t : State, Orderly t →
          Orderly ⟨({ s₁ with machine := t.machine } : Session).reportQueued.machine, t.log⟩ := by
        intro t ht
        have hsame := Session.same_reportQueued { s₁ with machine := t.machine }
        exact (ht.same hsame.frames hsame.objects).orderly
      cases hi : interpret host fuel program ⟨m, .accepted program s.machine.distances :: log⟩ with
      | ok a t =>
        rw [hi] at hrun
        refine ⟨⟨t.machine, hrun.1.orderly⟩, fun o s' ho => ?_⟩
        cases ho
        refine ⟨hreport t hrun.1.orderly, fun e he => ?_⟩
        rw [Session.errors_reportQueued] at he
        exact .inl (herrors ▸ he)
      | error e t =>
        rw [hi] at hrun
        cases e with
        | exhausted => exact ⟨⟨t.machine, hrun.1.orderly⟩, nofun⟩
        | failed e =>
          refine ⟨⟨t.machine, hrun.1.orderly⟩, fun o s' ho => ?_⟩
          cases ho
          refine ⟨hreport t hrun.1.orderly, fun e' he => ?_⟩
          have hadd : e' ∈ ({ s₁ with machine := t.machine } : Session).reportQueued.errors ++ [e] := he
          rw [Session.errors_reportQueued, List.mem_append, List.mem_singleton] at hadd
          rcases hadd with hold | rfl
          · exact .inl (herrors ▸ hold)
          · exact .inr ((hrun.2 _ _ rfl).elim .permitted .missing)

theorem orderly_session {lines : List Session.Line} (hh : ∀ line ∈ lines, line.host.Honest) {s : Session}
    {log : Log} (h : Orderly ⟨s.machine, log⟩) : ∃ m, Orderly ⟨m, (session lines s log).2⟩ := by
  -- which errors there are is of no account here
  have hl : ∀ line ∈ lines, Lasts line.host Orderly := fun line hline fuel source _ _ h =>
    have hrun := orderly_run (hh line hline) line.host.permits_all fuel source h
    ⟨hrun.1, fun o s' ho => (hrun.2 o s' ho).1⟩
  exact (Lasts.session hl h).1

end Trace

/-! ## Running to the end -/

/-- The statements ran one after another, each to its normal end. -/
inductive RanThrough (host : Host) : Nat → List Stmt → Machine → Machine → Prop
  | nil (n : Nat) (m : Machine) : RanThrough host (n + 1) [] m m
  | cons {n : Nat} {s : Stmt} {rest : List Stmt} {m m₁ m' : Machine} :
      execute host n s m = .ok .normal m₁ → RanThrough host n rest m₁ m' →
      RanThrough host (n + 1) (s :: rest) m m'

theorem RanThrough.of_executeAll {host : Host} {n : Nat} {ss : List Stmt} {m m' : Machine}
    (h : executeAll host n ss m = .ok .normal m') : RanThrough host n ss m m' := by
  induction n generalizing ss m with
  | zero => cases h
  | succ n ih =>
    cases ss with
    | nil =>
      cases h
      exact .nil n _
    | cons s rest =>
      obtain ⟨flow, m₁, hs, h⟩ := Ending.bind_eq_ok.1 h
      cases flow with
      | normal => exact .cons hs (ih h)
      | broke => cases h
      | returned v => cases h

theorem flushing_eq_ok {act : Eval Unit} {m m' : Machine} (h : Eval.flushing act m = .ok () m') :
    ∃ m₁, act m = .ok () m₁ ∧ m' = { m₁ with output := m₁.output.flush.2 } := by
  unfold Eval.flushing at h
  split at h
  case h_1 u m₁ hact =>
    obtain ⟨v, m₂, hflush, h⟩ := Ending.bind_eq_ok.1 h
    cases h
    unfold Eval.flush at hflush
    split at hflush
    case h_1 sink hsink =>
      cases hflush
      exact ⟨m₁, hact, by rw [hsink]⟩
    case h_2 => cases hflush
  case h_2 =>
    obtain ⟨v, m₂, -, h⟩ := Ending.bind_eq_ok.1 h
    cases h
  case h_3 => cases h

/-- What is left of running a program is to come back and flush the output. -/
theorem interpret_eq_ok {host : Host} {n : Nat} {program : List Stmt} {m m' : Machine}
    (h : interpret host (n + 1) program m = .ok () m') :
    ∃ flow m₁, executeAll host n program { m with env := Machine.globals } = .ok flow m₁ ∧
      m' = { m₁ with env := m.env, output := m₁.output.flush.2 } := by
  obtain ⟨m₁, hact, rfl⟩ := flushing_eq_ok h
  obtain ⟨m₂, hall, rfl⟩ := inEnv_eq_ok hact
  obtain ⟨flow, m₃, hexec, hpure⟩ := Ending.bind_eq_ok.1 hall
  cases hpure
  exact ⟨flow, _, hexec, rfl⟩

namespace Trace

/-! ## Sessions -/

/-- In a session of honest hosts, every program that was accepted, read from a file or not, runs
through or fails; no body that was entered breaks; and no method `init` that was bound to an
object returns a value. This is so on every machine, at any later time. -/
theorem session_flow_confined (host : Host) (output diagnostics : Sink) {lines : List Session.Line}
    (hh : ∀ line ∈ lines, line.host.Honest) :
    (session lines (.start host output diagnostics) []).1 =
      (Session.start host output diagnostics).runAll lines ∧
    (∀ program d, .accepted program d ∈ (session lines (.start host output diagnostics) []).2 →
      ∀ host' n m,
        (∀ flow m', Lox.executeAll host' n program m = .ok flow m' → flow = .normal) ∧
        ∀ m', Lox.interpret host' (n + 1) program m = .ok () m' →
          ∃ m₁, RanThrough host' n program { m with env := Machine.globals } m₁ ∧
            m' = { m₁ with env := m.env, output := m₁.output.flush.2 }) ∧
    (∀ decl env i,
      .entered (.routine decl) env i ∈ (session lines (.start host output diagnostics) []).2 →
      ∀ host' n m m', Lox.executeAll host' n decl.body m ≠ .ok .broke m') ∧
    (∀ decl env i,
      .entered (.receiver decl) env i ∈ (session lines (.start host output diagnostics) []).2 →
      decl.name.lexeme = initName →
      ∀ host' n m v m', Lox.executeAll host' n decl.body m = .ok (.returned v) m' → v = .nil) := by
  obtain ⟨m₀, ho⟩ := orderly_session (s := .start host output diagnostics) hh (orderly_start host output)
  refine ⟨session_fst _ _ _, fun program d hacc host' n m => ?_, fun decl env i he host' n m m' hb => ?_,
    fun decl env i he hinit host' n m v m' hr => ?_⟩
  · have hnormal : ∀ {m₁ flow m'}, Lox.executeAll host' n program m₁ = .ok flow m' → flow = .normal :=
      fun hx => ((flowsConfined host' n).executeAll (ho.accepted hacc).2 hx).eq_normal
    refine ⟨fun flow m' hx => hnormal hx, fun m' hi => ?_⟩
    obtain ⟨flow, m₁, hx, rfl⟩ := interpret_eq_ok hi
    obtain rfl := hnormal hx
    exact ⟨m₁, .of_executeAll hx, rfl⟩
  · obtain ⟨role, hproper⟩ := ho.entered he
    have hflow := (flowsConfined host' n).executeAll (Routine.confined_iff.1 hproper.confined) hb
    cases hflow
  · have hproper : decl.Proper (methodRole decl.name) := ho.entered he
    have hflow := (flowsConfined host' n).executeAll (Routine.confined_iff.1 hproper.confined) hr
    exact hflow.2 (if_pos hinit)

/-- A loop that breaks in an initializer, and a function that returns out of a loop. -/
def leavingText : List Session.Line :=
  [⟨{}, 30, "class A \x7b init() \x7b while (true) \x7b break; \x7d return; \x7d \x7d " ++
    "fun f() \x7b while (true) return A(); \x7d f();"⟩]

set_option maxRecDepth 20000 in
theorem session_flow_confined_leavingText :
    (∀ line ∈ leavingText, line.host.Honest) ∧
    ((session leavingText (.start {} {} {}) []).2.filterMap fun
        | .entered (.routine decl) _ _ => some decl.name.lexeme
        | _ => none) = ["init", "f"] ∧
    (∀ decl env i, .entered (.routine decl) env i ∈ (session leavingText (.start {} {} {}) []).2 →
      ∀ host' n m m', Lox.executeAll host' n decl.body m ≠ .ok .broke m') ∧
    ∀ decl env i, .entered (.receiver decl) env i ∈ (session leavingText (.start {} {} {}) []).2 →
      decl.name.lexeme = initName →
      ∀ host' n m v m', Lox.executeAll host' n decl.body m = .ok (.returned v) m' → v = .nil :=
  have hh : ∀ line ∈ leavingText, line.host.Honest := by simp [leavingText, honest_default]
  ⟨hh, by cbv, (session_flow_confined {} {} {} hh).2.2⟩

end Trace
end Lox
