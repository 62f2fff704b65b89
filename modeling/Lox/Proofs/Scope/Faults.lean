import Lox.Proofs.Scope.Events
import Lox.Proofs.Scope.Furnished

/-!
# What an analysis without faults has seen

The analysis never takes a report back. So if there is none at the end, no visit was at fault: no
variable is read in its own initializer, and `this` and `super` stand only where a class provides
them.
-/

namespace Lox
namespace Scoping

/-- The visit gives no reason for a report. -/
structure Visit.Clean (v : Visit) : Prop where
  allowed : v.ref.access.allowedIn v.inClass = true
  read : v.ref.access = .read → v.initializing = false

namespace Analysis

variable {a : Analysis}

theorem errors_of_failIf {cond : Bool} {t : Token} {fault : ScopeFault}
    (h : (a.failIf cond t fault).errors = []) : cond = false ∧ a.errors = [] := by
  unfold failIf at h
  split at h
  case isTrue => simp [fail] at h
  case isFalse hc => exact ⟨by simpa using hc, h⟩

theorem errors_of_declare {name : Token} (h : (a.declare name).errors = []) : a.errors = [] := by
  unfold declare at h
  split at h
  · exact h
  · split at h
    · simp [fail] at h
    · exact h

@[simp] theorem errors_define (a : Analysis) (name : Token) : (a.define name).errors = a.errors := by
  unfold define
  repeat' split
  all_goals rfl

@[simp] theorem errors_openScope (a : Analysis) : a.openScope.errors = a.errors := rfl

@[simp] theorem errors_closeScope (a : Analysis) : a.closeScope.errors = a.errors := by
  unfold closeScope
  split <;> rfl

@[simp] theorem errors_provide (a : Analysis) (name : String) (line : Nat) :
    (a.provide name line).errors = a.errors := by
  unfold provide
  split <;> rfl

@[simp] theorem errors_refer (a : Analysis) (id : Nat) (name : String) :
    (a.refer id name).errors = a.errors := by
  unfold refer
  split <;> rfl

theorem errors_of_declareAll {names : List Token} (h : (a.declareAll names).errors = []) :
    a.errors = [] := by
  induction names generalizing a with
  | nil => exact h
  | cons name rest ih => exact errors_of_declare (by simpa using ih h)

theorem errors_of_checkSuperclass {name : Token} {superclass : Expr}
    (h : (checkSuperclass name superclass a).errors = []) : a.errors = [] := by
  unfold checkSuperclass at h
  split at h
  · exact (errors_of_failIf h).2
  · simp [fail] at h

theorem initializing_eq (ref : Reference) (role : ClassRole) (sites : List Site) (a : Analysis) :
    (⟨ref, role, sites, a.scopes⟩ : Visit).initializing = a.initializing ref.name.lexeme := by
  unfold Visit.initializing initializing
  cases a.scopes with
  | nil => rfl
  | cons scope rest => cases h : scope.get? ref.name.lexeme <;> simp [h]

theorem errors_of_reference {role : ClassRole} {ref : Reference} (h : (a.reference role ref).errors = []) :
    a.errors = [] ∧ (⟨ref, role, [], a.scopes⟩ : Visit).Clean := by
  obtain ⟨access, id, name⟩ := ref
  cases access with
  | read =>
    simp only [reference, errors_refer] at h
    obtain ⟨hi, ha⟩ := errors_of_failIf h
    exact ⟨ha, rfl, fun _ => (initializing_eq _ _ _ a).trans hi⟩
  | write => exact ⟨(errors_refer a id _).symm.trans h, rfl, fun hread => by cases hread⟩
  | receiver =>
    cases role with
    | outside => simp [reference, fail] at h
    | plain | derived => exact ⟨(errors_refer a id _).symm.trans h, rfl, fun hread => by cases hread⟩
  | parent =>
    cases role with
    | outside | plain => simp [reference, fail] at h
    | derived => exact ⟨(errors_refer a id _).symm.trans h, rfl, fun hread => by cases hread⟩

theorem errors_of_step {e : Event} (h : (a.step e).errors = []) :
    a.errors = [] ∧ ∀ v ∈ (e.visit? a).toList, v.Clean := by
  obtain ⟨act, sur⟩ := e
  cases act with
  | refer ref =>
    obtain ⟨ha, hv⟩ := errors_of_reference h
    exact ⟨ha, List.forall_mem_singleton.2 hv⟩
  | declare name => exact ⟨errors_of_declare h, List.forall_mem_nil _⟩
  | define name => exact ⟨(errors_define a name).symm.trans h, List.forall_mem_nil _⟩
  | inherit name superclass => exact ⟨errors_of_checkSuperclass h, List.forall_mem_nil _⟩
  | breakLoop keyword => exact ⟨(errors_of_failIf h).2, List.forall_mem_nil _⟩
  | returnWith keyword value => exact ⟨(errors_of_failIf (errors_of_failIf h).2).2, List.forall_mem_nil _⟩
  | openScope provided =>
    cases provided with
    | none => exact ⟨h, List.forall_mem_nil _⟩
    | some provided => exact ⟨(errors_provide a.openScope _ _).symm.trans h, List.forall_mem_nil _⟩
  | closeScope => exact ⟨(errors_closeScope a).symm.trans h, List.forall_mem_nil _⟩

theorem errors_of_foldl {es : List Event} (h : (es.foldl step a).errors = []) :
    a.errors = [] ∧ ∀ v ∈ sights es a, v.Clean := by
  induction es generalizing a with
  | nil => exact ⟨h, List.forall_mem_nil _⟩
  | cons e rest ih =>
    obtain ⟨he, hrest⟩ := ih h
    obtain ⟨ha, hv⟩ := errors_of_step he
    exact ⟨ha, List.forall_mem_append.2 ⟨hv, hrest⟩⟩

end Analysis

/-- Without a report in the end, none stood before, and no visit gave reason for one. -/
theorem Runs.clean {es : List Event} {a b : Analysis} {vs : List Visit} (h : Runs es a vs b) (hb : b.errors = []) :
    a.errors = [] ∧ ∀ v ∈ vs, v.Clean := by
  rw [← h.leads] at hb
  obtain ⟨ha, hclean⟩ := Analysis.errors_of_foldl hb
  refine ⟨ha, fun v hv => ?_⟩
  have hbare := hclean v.bare (h.visits ▸ List.mem_map_of_mem hv)
  exact ⟨hbare.allowed, hbare.read⟩

end Scoping

open Scoping Analysis

section

variable {ctx : Context} {a : Analysis}

theorem Expr.errors_of_resolveOption (e : Option Expr) (h : (Expr.resolveOption ctx e a).errors = []) :
    a.errors = [] := by
  obtain ⟨sur, rfl⟩ := Surroundings.exists_context ctx
  exact ((Expr.runsOption sur [] e a).clean h).1

theorem Stmt.errors_of_resolve (s : Stmt) (h : (s.resolve ctx a).errors = []) : a.errors = [] := by
  obtain ⟨sur, rfl⟩ := Surroundings.exists_context ctx
  exact ((s.runs sur [] a).clean h).1

theorem Stmt.errors_of_resolveAll (ss : List Stmt) (h : (Stmt.resolveAll ctx ss a).errors = []) :
    a.errors = [] := by
  obtain ⟨sur, rfl⟩ := Surroundings.exists_context ctx
  exact ((Stmt.runsAll sur [] ss a).clean h).1

theorem Routine.errors_of_resolveMethods (rs : List Routine) (h : (Routine.resolveMethods ctx rs a).errors = []) :
    a.errors = [] := by
  obtain ⟨sur, rfl⟩ := Surroundings.exists_context ctx
  exact ((Routine.runsMethods _ sur rfl [] rs a).clean h).1

end

/-- In a program without faults no variable is read in its own initializer, and every `this` and
`super` has a distance. -/
theorem Stmt.clean_of_analyse {program : List Stmt} {distances : Distances} (hw : Stmt.AllWellFormed program)
    (hr : Stmt.AllRegular program) (h : (Stmt.analyse program distances).errors = []) {v : Visit}
    (hv : v ∈ Stmt.visitsProgram program distances) :
    (v.ref.access = .read → v.initializing = false) ∧
      (v.ref.access = .receiver ∨ v.ref.access = .parent → v.distance.isSome = true) := by
  have hc := ((Stmt.runsAll {} [] program _).clean h).2 v hv
  exact ⟨hc.read, (Stmt.housed_of_visitsProgram hw hr hv).distance hc.allowed⟩

end Lox
