import Lox.Proofs.Match.Reports
import Lox.Proofs.Match.Runs
import Lox.Proofs.Match.Self
import Lox.Proofs.Scope.Sessions

/-!
# Texts that do not pass

A text that does not pass leaves behind identities that were handed out and distances on record. No later run can
tell: a session that has seen such a text and one that has not stay matched, so each later text
has the same outcome in both, writes the same and has the same errors and warnings reported.
-/

namespace Lox
namespace Session

/-! ## What a session adds -/

/-- From `s` to `t` these errors and warnings were recorded, and these lines given to the
diagnostics. -/
structure Adds (s t : Session) (es : List Error) (ws : List Warning) (lines : List String) : Prop where
  errors : t.errors = s.errors ++ es
  warnings : t.warnings = s.warnings ++ ws
  diagnostics : t.diagnostics =
    lines.foldl (fun sink line => (sink.write (line ++ "\n")).2) s.diagnostics

namespace Adds

variable {s t u : Session} {es es' : List Error} {ws ws' : List Warning} {lines lines' : List String}

theorem setMachine (s : Session) (m : Machine) : s.Adds { s with machine := m } [] [] [] :=
  ⟨(List.append_nil _).symm, (List.append_nil _).symm, rfl⟩

theorem trans (h : s.Adds t es ws lines) (h' : t.Adds u es' ws' lines') :
    s.Adds u (es ++ es') (ws ++ ws') (lines ++ lines') where
  errors := by rw [h'.errors, h.errors, List.append_assoc]
  warnings := by rw [h'.warnings, h.warnings, List.append_assoc]
  diagnostics := by rw [h'.diagnostics, h.diagnostics, List.foldl_append]

theorem addError (s : Session) (e : Error) : s.Adds (s.addError e) [e] [] [e.text] :=
  ⟨rfl, (List.append_nil _).symm, rfl⟩

theorem addErrors (es : List Error) (s : Session) :
    s.Adds (es.foldl Session.addError s) es [] (es.map Error.text) := by
  induction es generalizing s with
  | nil => exact setMachine s s.machine
  | cons e rest ih => exact (addError s e).trans (ih _)

theorem addWarnings (ws : List Warning) (s : Session) :
    s.Adds (ws.foldl Session.addWarning s) [] ws (ws.map Warning.text) := by
  induction ws generalizing s with
  | nil => exact setMachine s s.machine
  | cons w rest ih =>
    have hw : s.Adds (s.addWarning w) [] [w] [w.text] := ⟨(List.append_nil _).symm, rfl, rfl⟩
    exact hw.trans (ih _)

theorem reportQueued (s : Session) :
    s.Adds s.reportQueued [] s.machine.warnings (s.machine.warnings.map Warning.text) :=
  (setMachine s _).trans (addWarnings s.machine.warnings _)

end Adds

theorem machine_reportQueued (s : Session) :
    s.reportQueued.machine = { s.machine with warnings := [] } :=
  machine_addWarnings _ _

/-- What a session makes of the end of a program, which was accepted with these warnings. -/
inductive Ran (s : Session) (warnings : List Warning) :
    EStateM.Result Stop Machine Unit → Option (Outcome × Session) → Prop
  | ok {m : Machine} {t : Session} :
      s.Adds t [] (warnings ++ m.warnings) ((warnings ++ m.warnings).map Warning.text) →
      t.machine = { m with warnings := [] } → Ran s warnings (.ok () m) (some (.ok, t))
  | failed {e : Error} {m : Machine} {t : Session} :
      s.Adds t [e] (warnings ++ m.warnings) ((warnings ++ m.warnings).map Warning.text ++ [e.text]) →
      t.machine = { m with warnings := [] } →
      Ran s warnings (.error (.failed e) m) (some (.runtimeError, t))
  | deeper {m : Machine} : Ran s warnings (.error .exhausted m) none

theorem run_of_compile {s : Session} {source : String} {program : List Stmt} {warnings : List Warning}
    {m : Machine} (hc : s.machine.compile source = (.ok (program, warnings), m)) (host : Host)
    (fuel : Nat) : s.Ran warnings (interpret host fuel program m) (s.run host fuel source) := by
  unfold Session.run
  rw [hc]
  dsimp only
  have hs := (Adds.setMachine s m).trans (.addWarnings warnings _)
  have hmachine : (warnings.foldl addWarning { s with machine := m }).machine = m :=
    machine_addWarnings _ _
  generalize warnings.foldl addWarning { s with machine := m } = s₁ at hs hmachine ⊢
  rw [hmachine]
  have hqueued : ∀ m', s.Adds ({ s₁ with machine := m' }.reportQueued) [] (warnings ++ m'.warnings)
      ((warnings ++ m'.warnings).map Warning.text) := by
    intro m'
    have hadds := (hs.trans (.setMachine s₁ m')).trans (.reportQueued _)
    simp only [List.nil_append, List.append_nil] at hadds
    rw [List.map_append]
    exact hadds
  cases interpret host fuel program m with
  | ok u m' => exact .ok (hqueued m') (machine_reportQueued _)
  | error e m' =>
    cases e with
    | exhausted => exact .deeper
    | failed e =>
      have hadd := (hqueued m').trans (.addError _ e)
      rw [List.append_nil] at hadd
      exact .failed hadd (machine_reportQueued _)

/-- How a text that ends in a session does so: it is refused, or its program ends. -/
inductive RunEnds (host : Host) (fuel : Nat) (source : String) (s : Session) :
    Outcome → Session → Prop
  | refused {es : List Error} {t : Session} :
      s.machine.compile source = (.error es, t.machine) → s.Adds t es [] (es.map Error.text) →
      RunEnds host fuel source s .staticError t
  | ok {program : List Stmt} {warnings : List Warning} {m m' : Machine} {t : Session} :
      s.machine.compile source = (.ok (program, warnings), m) →
      interpret host fuel program m = .ok () m' →
      s.Adds t [] (warnings ++ m'.warnings) ((warnings ++ m'.warnings).map Warning.text) →
      t.machine = { m' with warnings := [] } → RunEnds host fuel source s .ok t
  | failed {program : List Stmt} {warnings : List Warning} {m m' : Machine} {e : Error} {t : Session} :
      s.machine.compile source = (.ok (program, warnings), m) →
      interpret host fuel program m = .error (.failed e) m' →
      s.Adds t [e] (warnings ++ m'.warnings)
        ((warnings ++ m'.warnings).map Warning.text ++ [e.text]) →
      t.machine = { m' with warnings := [] } → RunEnds host fuel source s .runtimeError t

theorem runEnds_of_run {host : Host} {fuel : Nat} {source : String} {s t : Session} {o : Outcome}
    (h : s.run host fuel source = some (o, t)) : RunEnds host fuel source s o t := by
  cases hc : s.machine.compile source with
  | mk result m =>
  cases result with
  | error es =>
    unfold Session.run at h
    rw [hc] at h
    cases h
    have hadds := (Adds.setMachine s m).trans (.addErrors es _)
    rw [List.nil_append, List.nil_append, List.nil_append] at hadds
    refine .refused ?_ hadds
    rw [hc, machine_addErrors]
  | ok accepted =>
    have hran := run_of_compile hc host fuel
    generalize hi : interpret host fuel accepted.1 m = r at hran
    rw [h] at hran
    cases hran with
    | ok hadds ht => exact .ok hc hi hadds ht
    | failed hadds ht => exact .failed hc hi hadds ht

/-! ## Runs of matched sessions -/

/-- Two runs end alike: with the same outcome and additions, the same text written so far, and in
sessions of which `P` holds; or both go too deep. -/
inductive RanAlike (s s' : Session) (P : Session → Session → Prop) :
    Option (Outcome × Session) → Option (Outcome × Session) → Prop
  | ended {t t' : Session} (outcome : Outcome) {es : List Error} {ws : List Warning}
      {lines : List String} : s.Adds t es ws lines → s'.Adds t' es ws lines →
      t'.machine.output.text = t.machine.output.text → P t t' →
      RanAlike s s' P (some (outcome, t)) (some (outcome, t'))
  | deeper : RanAlike s s' P none none

/-- A text runs alike in sessions on matched machines, if like errors are the same and no
warnings waited in either. -/
theorem run_matched {host : Host} (hb : host.Blind) {π : Pairing} (herror : π.error = Eq)
    (holder : π.older = []) (holder' : π.older' = []) (fuel : Nat) (source : String) {s s' : Session}
    (h : s.machine.Matched π s'.machine) :
    RanAlike s s' (fun t t' => t.machine.Matched π t'.machine) (s.run host fuel source)
      (s'.run host fuel source) := by
  obtain ⟨hcompile, hm⟩ := h.compile source
  cases hc : s.machine.compile source with
  | mk result m =>
  cases hc' : s'.machine.compile source with
  | mk result' m' =>
  rw [hc, hc'] at hcompile hm
  cases hcompile with
  | error es =>
    have hend : (es.foldl addError { s with machine := m }).machine.Matched π
        (es.foldl addError { s' with machine := m' }).machine := by
      rw [machine_addErrors, machine_addErrors]
      exact hm
    unfold Session.run
    rw [hc, hc']
    exact .ended .staticError ((Adds.setMachine s m).trans (.addErrors es _))
      ((Adds.setMachine s' m').trans (.addErrors es _)) hend.output.text hend
  | ok warnings hp =>
    have hran := run_of_compile hc host fuel
    have hran' := run_of_compile hc' host fuel
    have hrun := (runsAlike hb π fuel).interpret hp m m' hm
    -- what is queued in the end is the same, since nothing was before
    have hqueued : ∀ m₂ m₂' : Machine, m₂.Matched π m₂' → m₂'.warnings = m₂.warnings ∧
        { m₂ with warnings := [] }.Matched π { m₂' with warnings := [] } := by
      intro m₂ m₂' hm₂
      obtain ⟨new, hw, hw'⟩ := hm₂.warnings
      rw [holder, List.nil_append] at hw
      rw [holder', List.nil_append] at hw'
      exact ⟨hw'.trans hw.symm, { hm₂ with warnings := ⟨[], by rw [holder]; rfl, by rw [holder']; rfl⟩ }⟩
    generalize interpret host fuel _ m = r at hrun hran
    generalize interpret host fuel _ m' = r' at hrun hran'
    generalize s.run host fuel source = o at hran ⊢
    generalize s'.run host fuel source = o' at hran' ⊢
    cases hrun with
    | exhausted =>
      cases hran
      cases hran'
      exact .deeper
    | ok _ hm₂ =>
      obtain ⟨hw, hm₃⟩ := hqueued _ _ hm₂
      cases hran with
      | ok hadds hmachine =>
      cases hran' with
      | ok hadds' hmachine' =>
      rw [hw] at hadds'
      rw [← hmachine, ← hmachine'] at hm₃
      exact .ended .ok hadds hadds' hm₃.output.text hm₃
    | failed he hm₂ =>
      rw [herror] at he
      subst he
      obtain ⟨hw, hm₃⟩ := hqueued _ _ hm₂
      cases hran with
      | failed hadds hmachine =>
      cases hran' with
      | failed hadds' hmachine' =>
      rw [hw] at hadds'
      rw [← hmachine, ← hmachine'] at hm₃
      exact .ended .runtimeError hadds hadds' hm₃.output.text hm₃

/-- Two sessions run all these texts alike, one after the other. -/
def Indistinguishable : List Line → Session → Session → Prop
  | [], _, _ => True
  | line :: later, s, s' =>
    RanAlike s s' (Indistinguishable later) (s.run line.host line.fuel line.source)
      (s'.run line.host line.fuel line.source)

theorem indistinguishable_of_matched {π : Pairing} (herror : π.error = Eq) (holder : π.older = [])
    (holder' : π.older' = []) {later : List Line} (hb : ∀ line ∈ later, line.host.Blind)
    {s s' : Session} (h : s.machine.Matched π s'.machine) : Indistinguishable later s s' := by
  induction later generalizing s s' with
  | nil => trivial
  | cons line later ih =>
    obtain ⟨hline, hlater⟩ := List.forall_mem_cons.1 hb
    have hrun := run_matched hline herror holder holder' line.fuel line.source h
    unfold Indistinguishable
    generalize s.run line.host line.fuel line.source = r at hrun ⊢
    generalize s'.run line.host line.fuel line.source = r' at hrun ⊢
    cases hrun with
    | ended outcome hs hs' htext hm => exact .ended outcome hs hs' htext (ih hlater hm)
    | deeper => exact .deeper

/-! ## Sessions that texts lead to -/

inductive Reachable : Session → Prop
  | start (host : Host) (output diagnostics : Sink) : Reachable (.start host output diagnostics)
  | run {host : Host} {fuel : Nat} {source : String} {outcome : Outcome} {s s' : Session} :
      host.Honest → Reachable s → s.run host fuel source = some (outcome, s') → Reachable s'
  | reset {s : Session} : Reachable s → Reachable s.reset

theorem Reachable.good {s : Session} (h : s.Reachable) : ∃ log, Trace.Good ⟨s.machine, log⟩ := by
  induction h with
  | start host output diagnostics => exact ⟨[], Trace.good_start host output⟩
  | @run host fuel source outcome s s' hh _ hrun ih =>
    obtain ⟨log, hg⟩ := ih
    rw [← Trace.run_fst host fuel source s log] at hrun
    exact ⟨_, (Trace.good_run hh fuel source hg).2 outcome s' hrun⟩
  | reset _ ih => exact ih

end Session

/-- A text that does not pass, on a machine that texts lead to, leaves a machine that matches. -/
theorem Session.Reachable.matched_compile {s : Session} (h : s.Reachable) (source : String) :
    ∃ π : Pairing, π.error = Eq ∧ π.older = [] ∧ π.older' = [] ∧
      s.machine.Matched π (s.machine.compile source).2 := by
  obtain ⟨log, hg⟩ := h.good
  have hc := Trace.compiled s.machine source
  have hfresh : ∀ i, (s.machine.compile source).2.nextNode ≤ i →
      (s.machine.compile source).2.distances[i]? = none := by
    intro i hi
    rw [hc.distances (.inr hi)]
    exact hg.fresh (Nat.le_trans hc.nextNode hi)
  have hm := hg.numbered.matched hc.nextNode (fun i hi => hc.distances (.inl hi)) hfresh
  rw [← Machine.compile_snd] at hm
  exact ⟨.kept _ _ hc.nextNode, rfl, rfl, rfl, hm⟩

namespace Session

/-- A text that does not pass is reported and changes nothing else: not the output, no frame, no object,
no warning; and no later run can tell that it was there. -/
theorem run_of_compile_error {s : Session} (h : s.Reachable) (host : Host) (fuel : Nat)
    {source : String} {es : List Error} (hc : (s.machine.compile source).1 = .error es) :
    ∃ t, s.run host fuel source = some (.staticError, t) ∧
      s.Adds t es [] (es.map Error.text) ∧ (∀ e ∈ es, e.isStatic = true) ∧
      t.machine = { s.machine with
        nextNode := t.machine.nextNode, distances := t.machine.distances } ∧
      ∀ later : List Line, (∀ line ∈ later, line.host.Blind) → Indistinguishable later s t := by
  have hsnd := Machine.compile_snd s.machine source
  obtain ⟨π, herror, holder, holder', hm⟩ := h.matched_compile source
  unfold Session.run
  have hstatic : ∀ e ∈ es, e.isStatic = true := fun e he => (Machine.found_of_compile hc e he).isStatic
  generalize s.machine.compile source = r at hc hsnd hm ⊢
  obtain ⟨result, m⟩ := r
  cases hc
  refine ⟨_, rfl, (Adds.setMachine s m).trans (.addErrors es _), hstatic, ?_, fun later hb => ?_⟩
  · rw [machine_addErrors]
    exact hsnd
  · refine indistinguishable_of_matched herror holder holder' hb ?_
    rw [machine_addErrors]
    exact hm

/-- Declares a variable twice, after a function that mentions it. -/
def redeclaringText : String := "\x7b var a; fun f() \x7b return a; \x7d var a; \x7d"

/-- Mentions a variable from a function, where the other text does not pass. -/
def closureLine : Line := ⟨{}, 30, "\x7b var b = nil; fun g() \x7b return b; \x7d print g(); \x7d"⟩

theorem blind_default : ({} : Host).Blind := ⟨nofun, nofun⟩

set_option maxRecDepth 20000 in
theorem run_of_compile_error_redeclaringText :
    (Session.start {} {} {}).Reachable ∧
    ((Machine.start {} {}).compile redeclaringText).1 = .error [.scoping 1 (.at "a") .alreadyDeclared] ∧
    ∃ t, (Session.start {} {} {}).run {} 9 redeclaringText = some (.staticError, t) ∧
      Indistinguishable [closureLine, closureLine] (.start {} {} {}) t := by
  have hs : (Session.start {} {} {}).Reachable := .start {} {} {}
  have hc : ((Machine.start {} {}).compile redeclaringText).1 =
      .error [.scoping 1 (.at "a") .alreadyDeclared] := by cbv
  obtain ⟨t, hrun, -, -, -, hlater⟩ := run_of_compile_error hs {} 9 hc
  refine ⟨hs, hc, t, hrun, hlater _ ?_⟩
  intro line hline
  rw [List.mem_pair.1 hline |>.elim id id]
  exact blind_default

end Session
end Lox
