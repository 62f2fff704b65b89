import Lox.Proofs.Effects
import Lox.Proofs.Flow.Receivers
import Lox.Proofs.Match.Reports

/-!
# Messages that no text can bring about

Some failures of the machine are there for programs that no text spells: an operator that the
grammar does not have, an initializer without an object, `this` or `super` where there is none. A
session that gets its scripts from files and has no functions but its own never reports one of
them.
-/

namespace Lox
open Scoping

/-- The messages of failures that only programs can have which were not read from a text. -/
def internalMessages : List String :=
  ["Invalid unary operator.", "Invalid binary operator.", "Initializer is not bound to an instance.",
    "No script loader available.", "Superclass must be a class name.", "Undefined variable 'this'.",
    "Undefined variable 'super'."]

mutual

/-- The messages that an error carries, with those of the scripts in it. How a sink or a file
system words a refusal of its own is not counted. -/
def Error.messages : Error → List String
  | .lexical _ fault => [fault.message]
  | .syntactic _ _ fault => [fault.message]
  | .scoping _ _ fault => [fault.message]
  | .runtime _ fault => [fault.message]
  | .script _ errors => Error.allMessages errors
  | .io (.custom _) => []
  | .io fault => [fault.message]

def Error.allMessages : List Error → List String
  | [] => []
  | e :: rest => e.messages ++ Error.allMessages rest

end

/-- The error carries no internal message. -/
def Error.Outward (e : Error) : Prop := ∀ text ∈ e.messages, text ∉ internalMessages

/-! ## Wordings -/

/-- A text that starts otherwise than all internal messages is none of them. -/
theorem append_not_internal {start : String}
    (h : ∀ text ∈ internalMessages, ¬ start.toList <+: text.toList) (rest : String) :
    start ++ rest ∉ internalMessages := by
  intro hmem
  apply h _ hmem
  rw [String.toList_append]
  exact List.prefix_append _ _

theorem LexicalFault.message_not_internal {fault : LexicalFault} (h : ∀ wording, fault ≠ .custom wording) :
    fault.message ∉ internalMessages := by
  cases fault with
  | unexpectedCharacter c => exact append_not_internal (by decide) _
  | unterminatedString => decide
  | custom wording => exact absurd rfl (h wording)

theorem SyntaxFault.message_not_internal {fault : SyntaxFault} (h : ∀ wording, fault ≠ .custom wording) :
    fault.message ∉ internalMessages := by
  cases fault with
  | expected what =>
    rewrite [SyntaxFault.message, String.append_assoc]
    exact append_not_internal (by decide) _
  | custom wording => exact absurd rfl (h wording)
  | _ => decide

theorem ScopeFault.message_not_internal {fault : ScopeFault} (h : isFound fault = true) :
    fault.message ∉ internalMessages := by
  cases fault with
  | superclassNotNamed => cases h
  | custom wording => cases h
  | _ => decide

theorem append_cancel {start a b stop : String} (h : start ++ a ++ stop = start ++ b ++ stop) : a = b := by
  simpa using h

/-- The message of an undefined variable is internal for two names only. -/
theorem undefinedVariable_not_internal {name : String} (hthis : name ≠ "this")
    (hsuper : name ≠ "super") : "Undefined variable '" ++ name ++ "'." ∉ internalMessages := by
  have hother : ∀ text ∈ internalMessages.take 5, ¬ "Undefined variable '".toList <+: text.toList := by
    decide
  have hwords : internalMessages.drop 5 =
      ["Undefined variable '" ++ "this" ++ "'.", "Undefined variable '" ++ "super" ++ "'."] := by decide
  intro hmem
  rewrite [← List.take_append_drop 5 internalMessages, List.mem_append, hwords] at hmem
  rcases hmem with hmem | hmem
  · apply hother _ hmem
    rewrite [String.append_assoc, String.toList_append]
    exact List.prefix_append _ _
  · rcases List.mem_cons.1 hmem with heq | hmem
    · exact hthis (append_cancel heq)
    · exact hsuper (append_cancel (List.mem_singleton.1 hmem))

theorem RuntimeFault.message_not_internal {fault : RuntimeFault} (h : fault.Ordinary) :
    fault.message ∉ internalMessages := by
  cases fault with
  | undefinedVariable name => exact undefinedVariable_not_internal h.1 h.2
  | undefinedProperty name =>
    show "Undefined property '" ++ name ++ "'." ∉ internalMessages
    rewrite [String.append_assoc]
    exact append_not_internal (by decide) _
  | arity expected given =>
    show "Expected " ++ expected.repr ++ " arguments but got " ++ given.repr ++ "." ∉ internalMessages
    simp only [String.append_assoc]
    exact append_not_internal (by decide) _
  | invalidUnary | invalidBinary | noLoader | unboundInitializer | custom => exact h.elim
  | _ => decide

theorem Error.Found.outward {e : Error} (h : e.Found) : e.Outward := by
  unfold Error.Outward
  cases e with
  | lexical line fault => exact List.forall_mem_singleton.2 (LexicalFault.message_not_internal h)
  | syntactic line place fault => exact List.forall_mem_singleton.2 (SyntaxFault.message_not_internal h)
  | scoping line place fault => exact List.forall_mem_singleton.2 (ScopeFault.message_not_internal h)
  | _ => exact h.elim

theorem Error.outward_io (fault : IoFault) : (Error.io fault).Outward := by
  unfold Error.Outward
  cases fault with
  | custom wording => exact List.forall_mem_nil _
  | _ => exact List.forall_mem_singleton.2 (by decide)

theorem Error.outward_script {path : String} {es : List Error} (h : ∀ e ∈ es, e.Outward) :
    (Error.script path es).Outward := by
  have hall : ∀ text ∈ Error.allMessages es, text ∉ internalMessages := by
    induction es with
    | nil => exact List.forall_mem_nil _
    | cons e rest ih =>
      obtain ⟨he, hrest⟩ := List.forall_mem_cons.1 h
      exact List.forall_mem_append.2 ⟨he, ih hrest⟩
  exact hall

/-! ## Errors -/

/-- A host that gets its scripts from files and has no functions of its own. -/
structure Host.FilesOnly (host : Host) : Prop where
  loader : host.loader = .files
  functions : host.functions = []

namespace Host.FilesOnly

variable {host : Host} (h : host.FilesOnly)
include h

theorem honest : host.Honest := by
  refine ⟨fun f hf => ?_, fun f hf => ?_⟩
  · rw [h.functions] at hf
    cases hf
  · rw [h.loader] at hf
    cases hf

theorem permits : host.Permits Error.Outward where
  fault _ _ hf := List.forall_mem_singleton.2 (RuntimeFault.message_not_internal hf)
  native _ _ _ _ _ hf _ := by
    rw [h.functions] at hf
    cases hf
  absent _ hl := by
    rw [h.loader] at hl
    cases hl
  refused _ := Error.outward_io _
  unreadable _ fault := Error.outward_script (List.forall_mem_singleton.2 (Error.outward_io fault))
  script _ _ _ _ hm := Error.outward_script fun e he => (Machine.found_of_compile hm e he).outward
  loader _ _ _ _ hl := by
    rw [h.loader] at hl
    cases hl

end Host.FilesOnly

namespace Trace

theorem outward_run {host : Host} (hh : host.FilesOnly) {fuel : Nat} {source : String} {s s' : Session}
    {log : Log} {o : Outcome} (hg : Good ⟨s.machine, log⟩) (ho : Orderly ⟨s.machine, log⟩)
    (he : ∀ e ∈ s.errors, e.Outward) (hr : s.run host fuel source = some (o, s')) :
    ∃ log', Good ⟨s'.machine, log'⟩ ∧ Orderly ⟨s'.machine, log'⟩ ∧ ∀ e ∈ s'.errors, e.Outward := by
  rw [← run_fst host fuel source s log] at hr
  have hgood := (good_run hh.honest fuel source hg).2 o s' hr
  obtain ⟨horderly, herrors⟩ := (orderly_run hh.honest hh.permits fuel source ho).2 o s' hr
  refine ⟨_, hgood, horderly, fun e hmem => ?_⟩
  rcases herrors e hmem with hold | hnew
  · exact he e hold
  cases hnew with
  | static hc hes => exact (Machine.found_of_compile hc e hes).outward
  | permitted hout => exact hout
  | missing hmissing =>
    obtain ⟨ref, m, hrefer, hmissed⟩ := hmissing
    exact absurd hmissed (not_missed hgood horderly hrefer)

end Trace

/-! ## Warnings -/

/-- The warning is about a variable that nothing mentions. -/
def Warning.OfUnused (w : Warning) : Prop := ∃ name, w.cause = .unusedVariable name

theorem Warning.OfUnused.message_not_internal {w : Warning} (h : w.OfUnused) :
    w.cause.message ∉ internalMessages := by
  obtain ⟨name, hname⟩ := h
  rewrite [hname, WarningCause.message, String.append_assoc]
  exact append_not_internal (by decide) _

namespace Scoping
namespace Analysis

def WarnsOfUnused (a : Analysis) : Prop := ∀ w ∈ a.warnings, w.OfUnused

variable {a : Analysis}

theorem warnings_failIf (cond : Bool) (t : Token) (fault : ScopeFault) :
    (a.failIf cond t fault).warnings = a.warnings := by
  unfold failIf
  split <;> rfl

theorem warnings_declare (name : Token) : (a.declare name).warnings = a.warnings := by
  unfold declare
  repeat' split
  all_goals rfl

theorem warnings_define (name : Token) : (a.define name).warnings = a.warnings := by
  unfold define
  repeat' split
  all_goals rfl

theorem warnings_provide (name : String) (line : Nat) : (a.provide name line).warnings = a.warnings := by
  unfold provide
  split <;> rfl

theorem warnings_refer (id : Nat) (name : String) : (a.refer id name).warnings = a.warnings := by
  unfold refer
  split <;> rfl

theorem warnings_checkSuperclass (name : Token) (superclass : Expr) :
    (checkSuperclass name superclass a).warnings = a.warnings := by
  unfold checkSuperclass
  split
  · exact warnings_failIf _ _ _
  · rfl

theorem WarnsOfUnused.closeScope (h : a.WarnsOfUnused) : a.closeScope.WarnsOfUnused := by
  unfold Analysis.closeScope
  split
  · exact h
  · refine List.forall_mem_append.2 ⟨h, fun w hw => ?_⟩
    obtain ⟨⟨name, binding⟩, -, rfl⟩ := List.mem_map.1 hw
    exact ⟨name, rfl⟩

theorem WarnsOfUnused.of_eq {b : Analysis} (h : a.WarnsOfUnused) (hw : b.warnings = a.warnings) :
    b.WarnsOfUnused := by
  unfold WarnsOfUnused
  rwa [hw]

theorem warnings_reference (role : ClassRole) (ref : Reference) : (a.reference role ref).warnings = a.warnings := by
  unfold reference
  split
  · exact (warnings_refer _ _).trans (warnings_failIf _ _ _)
  iterate 3 rfl
  · exact warnings_refer _ _

theorem WarnsOfUnused.step (h : a.WarnsOfUnused) (e : Event) : (a.step e).WarnsOfUnused := by
  obtain ⟨act, sur⟩ := e
  cases act with
  | refer ref => exact h.of_eq (warnings_reference _ ref)
  | declare name => exact h.of_eq (warnings_declare name)
  | define name => exact h.of_eq (warnings_define name)
  | inherit name superclass => exact h.of_eq (warnings_checkSuperclass name superclass)
  | breakLoop keyword => exact h.of_eq (warnings_failIf _ _ _)
  | returnWith keyword value => exact h.of_eq ((warnings_failIf _ _ _).trans (warnings_failIf _ _ _))
  | openScope provided =>
    cases provided with
    | none => exact h
    | some provided => exact h.of_eq (warnings_provide (a := a.openScope) _ _)
  | closeScope => exact h.closeScope

theorem WarnsOfUnused.foldl (h : a.WarnsOfUnused) (es : List Event) : (es.foldl Analysis.step a).WarnsOfUnused := by
  induction es generalizing a with
  | nil => exact h
  | cons e rest ih => exact ih (h.step e)

end Analysis
end Scoping

theorem Machine.warnings_of_compile {m m' : Machine} {source : String} {program : List Stmt}
    {warnings : List Warning} (h : m.compile source = (.ok (program, warnings), m')) :
    ∀ w ∈ warnings, w.OfUnused := by
  obtain ⟨next, -, -, rfl, -⟩ := Machine.compile_eq_ok.1 h
  intro w hw
  have hstart : Analysis.WarnsOfUnused { distances := m.distances } := List.forall_mem_nil _
  have hall := hstart.foldl (Stmt.eventsAll {} program)
  rw [(Stmt.runsAll {} [] program _).leads] at hall
  exact hall w (List.mem_mergeSort.1 hw)

theorem Machine.warnings_compile (m : Machine) (source : String) :
    (m.compile source).2.warnings = m.warnings := by
  rw [m.compile_snd source]

/-- Nothing is queued but warnings about unused variables. -/
def warningEffects : Effects where
  change m m' := (∀ w ∈ m.warnings, w.OfUnused) → ∀ w ∈ m'.warnings, w.OfUnused
  error _ := True

theorem Host.FilesOnly.allows_warningEffects {host : Host} (h : host.FilesOnly) :
    warningEffects.Allow host where
  refl _ := id
  trans h h' hw := h' (h hw)
  inEnv _ h := h
  define _ _ _ _ := id
  add _ _ := id
  setField _ _ _ _ := id
  newObject _ := id
  newRef _ := id
  write _ _ := id
  flush _ := id
  tick _ := id
  request _ _ := id
  compile m source hw := by rwa [Machine.warnings_compile]
  queue hc hw := List.forall_mem_append.2 ⟨hw, Machine.warnings_of_compile hc⟩
  runtime _ _ := trivial
  refused _ := trivial
  unreadable _ _ := trivial
  script _ _ _ _ _ := trivial
  loader _ _ hl := by
    rw [h.loader] at hl
    cases hl

namespace Session

theorem warnings_addErrors (es : List Error) (s : Session) :
    (es.foldl addError s).warnings = s.warnings := by
  induction es generalizing s with
  | nil => rfl
  | cons e rest ih => exact ih _

theorem warnings_addWarnings (ws : List Warning) (s : Session) :
    (ws.foldl addWarning s).warnings = s.warnings ++ ws := by
  induction ws generalizing s with
  | nil => simp
  | cons w rest ih =>
    rw [List.foldl_cons, ih]
    simp [addWarning]

/-- All warnings, reported or waiting, are about unused variables. -/
structure WarnsOfUnused (s : Session) : Prop where
  reported : ∀ w ∈ s.warnings, w.OfUnused
  waiting : ∀ w ∈ s.machine.warnings, w.OfUnused

theorem WarnsOfUnused.reportQueued {s : Session} (h : s.WarnsOfUnused) : s.reportQueued.WarnsOfUnused := by
  unfold Session.reportQueued Machine.takeWarnings
  constructor
  · rw [warnings_addWarnings]
    exact List.forall_mem_append.2 ⟨h.reported, h.waiting⟩
  · rw [machine_addWarnings]
    exact List.forall_mem_nil _

theorem WarnsOfUnused.run {host : Host} (hh : host.FilesOnly) {fuel : Nat} {source : String}
    {s s' : Session} {o : Outcome} (h : s.WarnsOfUnused)
    (hr : s.run host fuel source = some (o, s')) : s'.WarnsOfUnused := by
  have hcompile := Machine.warnings_compile s.machine source
  unfold Session.run at hr
  cases hm : s.machine.compile source with
  | mk result m =>
    rw [hm] at hr hcompile
    have hwaiting : ∀ w ∈ m.warnings, w.OfUnused := by
      intro w hw
      rw [show m.warnings = s.machine.warnings from hcompile] at hw
      exact h.waiting w hw
    cases result with
    | error es =>
      cases hr
      refine ⟨?_, ?_⟩
      · rw [warnings_addErrors]
        exact h.reported
      · rw [machine_addErrors]
        exact hwaiting
    | ok accepted =>
      obtain ⟨program, warnings⟩ := accepted
      have hadded : (warnings.foldl addWarning { s with machine := m }).WarnsOfUnused := by
        constructor
        · rw [warnings_addWarnings]
          exact List.forall_mem_append.2 ⟨h.reported, Machine.warnings_of_compile hm⟩
        · rw [machine_addWarnings]
          exact hwaiting
      dsimp only at hr
      generalize warnings.foldl addWarning { s with machine := m } = s₁ at hr hadded
      have hrun := (runsBounded hh.allows_warningEffects fuel).interpret program s₁.machine
      cases hi : interpret host fuel program s₁.machine with
      | ok u m' =>
        rw [hi] at hr hrun
        cases hr
        exact WarnsOfUnused.reportQueued ⟨hadded.reported, hrun hadded.waiting⟩
      | error e m' =>
        rw [hi] at hr hrun
        cases e with
        | exhausted => cases hr
        | failed e =>
          cases hr
          have hq : ({ s₁ with machine := m' } : Session).reportQueued.WarnsOfUnused :=
            WarnsOfUnused.reportQueued ⟨hadded.reported, hrun.1 hadded.waiting⟩
          exact ⟨hq.reported, hq.waiting⟩

/-! ## Sessions -/

theorem runAll_messages_from {lines : List Line} (hh : ∀ line ∈ lines, line.host.FilesOnly)
    {s s' : Session} {log : Trace.Log} (hg : Trace.Good ⟨s.machine, log⟩)
    (ho : Trace.Orderly ⟨s.machine, log⟩) (he : ∀ e ∈ s.errors, e.Outward) (hw : s.WarnsOfUnused)
    (hr : s.runAll lines = some s') :
    (∀ e ∈ s'.errors, e.Outward) ∧ s'.WarnsOfUnused := by
  induction lines generalizing s log with
  | nil =>
    cases hr
    exact ⟨he, hw⟩
  | cons line rest ih =>
    obtain ⟨hline, hrest⟩ := List.forall_mem_cons.1 hh
    unfold runAll at hr
    split at hr
    case h_1 o s₁ hrun =>
      obtain ⟨log', hg', ho', he'⟩ := Trace.outward_run hline hg ho he hrun
      exact ih hrest hg' ho' he' (hw.run hline hrun) hr
    case h_2 => cases hr

/-- A session that gets its scripts from files and has no functions of its own reports no internal
message, whatever texts it runs. -/
theorem runAll_not_internal (host : Host) (output diagnostics : Sink) {lines : List Line}
    (hh : ∀ line ∈ lines, line.host.FilesOnly) {s : Session}
    (hr : (Session.start host output diagnostics).runAll lines = some s) :
    (∀ e ∈ s.errors, ∀ text ∈ e.messages, text ∉ internalMessages) ∧
      ∀ w ∈ s.warnings, w.cause.message ∉ internalMessages := by
  obtain ⟨he, hw⟩ := runAll_messages_from hh (Trace.good_start host output)
    (Trace.orderly_start host output) (List.forall_mem_nil _)
    ⟨List.forall_mem_nil _, List.forall_mem_nil _⟩ hr
  exact ⟨he, fun w hmem => (hw.reported w hmem).message_not_internal⟩

/-- A method reaches its object through the method of the superclass, and misses a property of it. -/
def superclassText : String :=
  "class A \x7b m() \x7b return this; \x7d \x7d class B < A \x7b m() \x7b return super.m().b; \x7d \x7d B().m();"

set_option maxRecDepth 20000 in
theorem interpret_superclassText :
    (match (Machine.start { loader := .files } {}).compile superclassText with
      | (.ok (program, []), m) =>
        match interpret { loader := .files } 30 program m with
        | .error (.failed e) _ => some e
        | _ => none
      | _ => none) = some (.runtime 1 (.undefinedProperty "b")) := by
  cbv

def superclassLines : List Line := [⟨{ loader := .files }, 30, superclassText⟩]

theorem runAll_not_internal_superclassText :
    (∀ line ∈ superclassLines, line.host.FilesOnly) ∧
    ∃ s, (Session.start { loader := .files } {} {}).runAll superclassLines = some s ∧
      s.errors = [.runtime 1 (.undefinedProperty "b")] ∧
      ∀ e ∈ s.errors, ∀ text ∈ e.messages, text ∉ internalMessages := by
  have hh : ∀ line ∈ superclassLines, line.host.FilesOnly := List.forall_mem_singleton.2 ⟨rfl, rfl⟩
  have hi := interpret_superclassText
  split at hi
  case h_1 program m hm =>
    split at hi
    case h_1 e m' hrun =>
      cases hi
      obtain ⟨s, hs, -, herr⟩ := run_of_failed (s := .start { loader := .files } {} {}) hm hrun
      have hall : (Session.start { loader := .files } {} {}).runAll superclassLines = some s := by
        simp only [superclassLines, runAll, hs]
      exact ⟨hh, s, hall, herr, (runAll_not_internal _ {} {} hh hall).1⟩
    case h_2 => cases hi
  case h_2 => cases hi

end Session
end Lox
