import Lox.Proofs.Endings
import Lox.Proofs.Scope.Faults
import Lox.Session

/-!
# Where a statement may leave

A `break` belongs to a loop and a `return` to a routine, and an initializer returns nothing. In a program
that passed the analysis every statement keeps to this (`Confined`), also within the routines that it
declares. A statement that does can only end in a flow that its place allows.
-/

namespace Lox
open Scoping

/-! ## Confined statements -/

mutual

/-- No `break` or `return` reaches beyond the loops and the routine around it. -/
def Stmt.Confined (role : RoutineRole) (inLoop : Bool) : Stmt → Prop
  | .block body => Stmt.AllConfined role inLoop body
  | .branch _ yes none => yes.Confined role inLoop
  | .branch _ yes (some no) => yes.Confined role inLoop ∧ no.Confined role inLoop
  | .loop _ body => body.Confined role true
  | .breakLoop _ => inLoop = true
  | .function decl => decl.Confined .function
  | .returnWith _ value => role ≠ .topLevel ∧ (role = .initializer → value = none)
  | .classDecl _ _ methods => Routine.MethodsConfined methods
  | .expr _ | .print _ | .varDecl _ _ | .execute _ _ => True

def Stmt.AllConfined (role : RoutineRole) (inLoop : Bool) : List Stmt → Prop
  | [] => True
  | s :: rest => s.Confined role inLoop ∧ Stmt.AllConfined role inLoop rest

/-- No loop reaches into a routine. -/
def Routine.Confined (role : RoutineRole) : Routine → Prop
  | ⟨_, _, body⟩ => Stmt.AllConfined role false body

def Routine.MethodsConfined : List Routine → Prop
  | [] => True
  | r :: rest => r.Confined (methodRole r.name) ∧ Routine.MethodsConfined rest

end

theorem Routine.confined_iff {role : RoutineRole} {r : Routine} :
    r.Confined role ↔ Stmt.AllConfined role false r.body := by
  cases r
  exact Iff.rfl

theorem Routine.confined_of_mem {methods : List Routine} (h : Routine.MethodsConfined methods)
    {r : Routine} (hr : r ∈ methods) : r.Confined (methodRole r.name) := by
  induction methods with
  | nil => cases hr
  | cons r' rest ih =>
    rcases List.mem_cons.1 hr with rfl | hr
    · exact h.1
    · exact ih h.2 hr

theorem methodRole_ne_topLevel (name : Token) : methodRole name ≠ .topLevel := by
  unfold methodRole
  split
  · exact RoutineRole.noConfusion
  · exact RoutineRole.noConfusion

/-! ## What the analysis lets pass -/

mutual

theorem Stmt.confined_of_resolve {ctx : Context} {a : Analysis} (s : Stmt)
    (h : (s.resolve ctx a).errors = []) : s.Confined ctx.routine ctx.inLoop := by
  cases s with
  | block body =>
    rw [Stmt.resolve, Analysis.errors_closeScope] at h
    exact Stmt.confinedAll_of_resolve body h
  | branch cond yes no =>
    cases no with
    | none => exact yes.confined_of_resolve h
    | some no =>
      have hyes := no.errors_of_resolve h
      exact ⟨yes.confined_of_resolve hyes, no.confined_of_resolve h⟩
  | loop cond body => exact body.confined_of_resolve h
  | breakLoop keyword =>
    have hin := (Analysis.errors_of_failIf h).1
    show ctx.inLoop = true
    simpa using hin
  | function decl => exact decl.confined_of_resolve h
  | returnWith keyword value =>
    have herr := Expr.errors_of_resolveOption value h
    obtain ⟨hvalue, hrole⟩ := Analysis.errors_of_failIf herr
    obtain ⟨htop, -⟩ := Analysis.errors_of_failIf hrole
    refine ⟨by simpa using htop, fun hinit => ?_⟩
    cases value with
    | none => rfl
    | some e => simp [hinit] at hvalue
  | classDecl name superclass methods =>
    cases superclass with
    | none =>
      rw [Stmt.resolve, Analysis.errors_closeScope] at h
      exact Routine.methodsConfined_of_resolve methods h
    | some superclass =>
      rw [Stmt.resolve, Analysis.errors_closeScope, Analysis.errors_closeScope] at h
      exact Routine.methodsConfined_of_resolve methods h
  | expr _ | print _ | varDecl _ _ | execute _ _ => trivial

theorem Stmt.confinedAll_of_resolve {ctx : Context} {a : Analysis} (ss : List Stmt)
    (h : (Stmt.resolveAll ctx ss a).errors = []) : Stmt.AllConfined ctx.routine ctx.inLoop ss := by
  cases ss with
  | nil => trivial
  | cons s rest =>
    have hs := Stmt.errors_of_resolveAll rest h
    exact ⟨s.confined_of_resolve hs, Stmt.confinedAll_of_resolve rest h⟩

theorem Routine.confined_of_resolve {ctx : Context} {a : Analysis} (r : Routine)
    (h : (r.resolve ctx a).errors = []) : r.Confined ctx.routine := by
  cases r with
  | mk name params body =>
    rw [Routine.resolve, Analysis.errors_closeScope] at h
    exact Stmt.confinedAll_of_resolve body h

theorem Routine.methodsConfined_of_resolve {ctx : Context} {a : Analysis} (rs : List Routine)
    (h : (Routine.resolveMethods ctx rs a).errors = []) : Routine.MethodsConfined rs := by
  cases rs with
  | nil => trivial
  | cons r rest =>
    have hr := Routine.errors_of_resolveMethods rest h
    exact ⟨r.confined_of_resolve hr, Routine.methodsConfined_of_resolve rest h⟩

end

/-- A program without faults is confined to itself. -/
theorem Stmt.confined_of_analyse {program : List Stmt} {distances : Distances}
    (h : (Stmt.analyse program distances).errors = []) :
    Stmt.AllConfined .topLevel false program := by
  have htop : (Stmt.resolveAll {} program { distances := distances }).errors = [] := h
  exact Stmt.confinedAll_of_resolve program htop

/-! ## How statements end -/

/-- A statement at such a place may end so. -/
def Flow.AllowedIn (role : RoutineRole) (inLoop : Bool) : Flow → Prop
  | .normal => True
  | .broke => inLoop = true
  | .returned v => role ≠ .topLevel ∧ (role = .initializer → v = .nil)

theorem Flow.AllowedIn.eq_normal {flow : Flow} (h : flow.AllowedIn .topLevel false) : flow = .normal := by
  cases flow with
  | normal => rfl
  | broke => cases h
  | returned v => exact absurd rfl h.1

theorem inEnv_eq_ok {α : Type} {env : Env} {act : Eval α} {m m' : Machine} {a : α}
    (h : Eval.inEnv env act m = .ok a m') :
    ∃ m₁, act { m with env := env } = .ok a m₁ ∧ m' = { m₁ with env := m.env } := by
  unfold Eval.inEnv at h
  dsimp only at h
  split at h
  case h_1 b m₁ hact =>
    cases h
    exact ⟨m₁, hact, rfl⟩
  case h_2 => cases h

/-- On any machine, confined statements end as their place allows. -/
structure FlowsConfined (host : Host) (n : Nat) : Prop where
  execute : ∀ {role inLoop s m flow m'}, Stmt.Confined role inLoop s →
    execute host n s m = .ok flow m' → flow.AllowedIn role inLoop
  executeAll : ∀ {role inLoop ss m flow m'}, Stmt.AllConfined role inLoop ss →
    executeAll host n ss m = .ok flow m' → flow.AllowedIn role inLoop
  repeatWhile : ∀ {role inLoop cond body m flow m'}, Stmt.Confined role true body →
    repeatWhile host n cond body m = .ok flow m' → flow.AllowedIn role inLoop

namespace FlowsConfined

variable {host : Host} {n : Nat} {role : RoutineRole} {inLoop : Bool} {m m' : Machine} {flow : Flow}

open Ending

theorem next_execute (ih : FlowsConfined host n) {s : Stmt} (hs : s.Confined role inLoop)
    (h : Lox.execute host (n + 1) s m = .ok flow m') : flow.AllowedIn role inLoop := by
  cases s with
  | expr e =>
    obtain ⟨v, m₁, -, h⟩ := bind_eq_ok.1 h
    cases h
    trivial
  | print e =>
    obtain ⟨v, m₁, -, h⟩ := bind_eq_ok.1 h
    obtain ⟨u, m₂, -, h⟩ := bind_eq_ok.1 h
    cases h
    trivial
  | varDecl name init =>
    cases init with
    | none =>
      obtain ⟨v, m₁, -, h⟩ := bind_eq_ok.1 h
      obtain ⟨u, m₂, -, h⟩ := bind_eq_ok.1 h
      cases h
      trivial
    | some e =>
      obtain ⟨v, m₁, -, h⟩ := bind_eq_ok.1 h
      obtain ⟨u, m₂, -, h⟩ := bind_eq_ok.1 h
      cases h
      trivial
  | block body =>
    obtain ⟨m₀, m₁, -, h⟩ := bind_eq_ok.1 h
    obtain ⟨env, m₂, -, h⟩ := bind_eq_ok.1 h
    obtain ⟨m₃, hbody, -⟩ := inEnv_eq_ok h
    exact ih.executeAll hs hbody
  | branch cond yes no =>
    obtain ⟨v, m₁, -, h⟩ := bind_eq_ok.1 h
    cases no with
    | none =>
      split at h
      · exact ih.execute (s := yes) hs h
      · cases h
        trivial
    | some no =>
      split at h
      · exact ih.execute hs.1 h
      · exact ih.execute hs.2 h
  | loop cond body => exact ih.repeatWhile hs h
  | breakLoop keyword =>
    cases h
    exact hs
  | function decl =>
    obtain ⟨m₀, m₁, -, h⟩ := bind_eq_ok.1 h
    obtain ⟨f, m₂, -, h⟩ := bind_eq_ok.1 h
    obtain ⟨u, m₃, -, h⟩ := bind_eq_ok.1 h
    cases h
    trivial
  | returnWith keyword value =>
    cases value with
    | none =>
      cases h
      exact ⟨hs.1, fun _ => rfl⟩
    | some e =>
      obtain ⟨v, m₁, -, h⟩ := bind_eq_ok.1 h
      cases h
      exact ⟨hs.1, fun hinit => absurd (hs.2 hinit) (Option.some_ne_none e)⟩
  | classDecl name superclass methods =>
    obtain ⟨u, m₁, -, h⟩ := bind_eq_ok.1 h
    cases superclass with
    | none =>
      obtain ⟨parent, m₂, -, h⟩ := bind_eq_ok.1 h
      obtain ⟨u, m₃, -, h⟩ := bind_eq_ok.1 h
      cases h
      trivial
    | some e =>
      obtain ⟨v, m₂, -, h⟩ := bind_eq_ok.1 h
      cases v with
      | classDef c =>
        obtain ⟨parent, m₃, -, h⟩ := bind_eq_ok.1 h
        obtain ⟨u, m₄, -, h⟩ := bind_eq_ok.1 h
        cases h
        trivial
      | _ =>
        obtain ⟨parent, m₃, hfail, -⟩ := bind_eq_ok.1 h
        cases hfail
  | execute keyword path =>
    obtain ⟨v, m₁, -, h⟩ := bind_eq_ok.1 h
    cases v with
    | string path =>
      obtain ⟨u, m₂, -, h⟩ := bind_eq_ok.1 h
      cases h
      trivial
    | _ => cases h

theorem next_executeAll (ih : FlowsConfined host n) {ss : List Stmt}
    (hss : Stmt.AllConfined role inLoop ss)
    (h : Lox.executeAll host (n + 1) ss m = .ok flow m') : flow.AllowedIn role inLoop := by
  cases ss with
  | nil =>
    cases h
    trivial
  | cons s rest =>
    obtain ⟨first, m₁, hs, h⟩ := bind_eq_ok.1 h
    have hfirst := ih.execute hss.1 hs
    cases first with
    | normal => exact ih.executeAll hss.2 h
    | broke =>
      cases h
      exact hfirst
    | returned v =>
      cases h
      exact hfirst

theorem next_repeatWhile (ih : FlowsConfined host n) {cond : Expr} {body : Stmt}
    (hbody : body.Confined role true)
    (h : Lox.repeatWhile host (n + 1) cond body m = .ok flow m') : flow.AllowedIn role inLoop := by
  obtain ⟨v, m₁, -, h⟩ := bind_eq_ok.1 h
  split at h
  · obtain ⟨round, m₂, hs, h⟩ := bind_eq_ok.1 h
    have hround := ih.execute hbody hs
    cases round with
    | normal => exact ih.repeatWhile hbody h
    | broke =>
      cases h
      trivial
    | returned v =>
      cases h
      exact hround
  · cases h
    trivial

end FlowsConfined

theorem flowsConfined (host : Host) (n : Nat) : FlowsConfined host n := by
  induction n with
  | zero => exact ⟨nofun, nofun, nofun⟩
  | succ n ih => exact ⟨ih.next_execute, ih.next_executeAll, ih.next_repeatWhile⟩

end Lox
