import Lox.Command.Report
import Lox.Proofs.Outcomes
import Lox.Proofs.Scripts

/-!
# Every diagnostic once

A session keeps errors and warnings and writes each of them as a line. The warnings about a text are reported
before it runs; those about the scripts it asks for wait on the machine until it has ended, however it ended. So the
lines that were written since a reset are those of the errors and warnings that the session holds, in the order
in which it came to hold them, and between two runs nothing waits.
-/

namespace Lox
open Ending

/-! ## Warnings about texts -/

/-- The warnings about a text that passes. About a text that is refused there are none. -/
def Warning.ofText (source : String) : List Warning :=
  match ((Machine.start {} {}).compile source).1 with
  | .ok (_, warnings) => warnings
  | .error _ => []

namespace Machine

/-- What is said about a text does not depend on what was read before it. -/
theorem Ahead.compiledAlike {m : Machine} (h : m.Ahead) (source : String) :
    ∃ ρ, CompiledAlike ρ ((Machine.start {} {}).compile source).1 (m.compile source).1 := by
  have hmatched := @Machine.Numbered.matched _ (Trace.good_start {} {}).numbered m.nextNode m.distances
    (Nat.zero_le _) (fun i hi => absurd hi (Nat.not_lt_zero i)) h
  have hrecord : SameRecord { Machine.start {} {} with
    nextNode := m.nextNode, distances := m.distances } m := ⟨rfl, rfl⟩
  rw [(hrecord.compile source).1]
  exact ⟨_, (hmatched.compile source).1⟩

theorem Ahead.ofText_accepted {m : Machine} (h : m.Ahead) {source : String} {program : List Stmt}
    {warnings : List Warning} (hc : (m.compile source).1 = .ok (program, warnings)) :
    Warning.ofText source = warnings := by
  obtain ⟨ρ, halike⟩ := h.compiledAlike source
  rw [hc] at halike
  unfold Warning.ofText
  generalize ((Machine.start {} {}).compile source).1 = result at halike ⊢
  cases halike with
  | ok _ _ => rfl

theorem Ahead.ofText_refused {m : Machine} (h : m.Ahead) {source : String} {es : List Error}
    (hc : (m.compile source).1 = .error es) : Warning.ofText source = [] := by
  obtain ⟨ρ, halike⟩ := h.compiledAlike source
  rw [hc] at halike
  unfold Warning.ofText
  generalize ((Machine.start {} {}).compile source).1 = result at halike ⊢
  cases halike with
  | error _ => rfl

theorem SameRecord.ahead {m m' : Machine} (h : m.SameRecord m') (ha : m.Ahead) : m'.Ahead := by
  intro i hi
  rw [h.distances]
  exact ha i (h.nextNode ▸ hi)

/-- From `m` to `m'` these scripts were asked for, and the warnings about those that passed were queued, in
that order. -/
structure Loaded (host : Host) (paths : List String) (m m' : Machine) : Prop where
  asked : Asked host paths m m'
  warnings : m'.warnings = m.warnings ++ (paths.filterMap host.text?).flatMap Warning.ofText

theorem Loaded.ahead {host : Host} {paths : List String} {m m' : Machine}
    (h : Loaded host paths m m') (ha : m.Ahead) : m'.Ahead :=
  h.asked.2.ahead (ha.compileAll _)

/-- Fetching a script queues the warnings about it, if there is one that passes. -/
theorem warnings_fetch {m : Machine} (ha : m.Ahead) (host : Host) (path : String) :
    (state (Eval.fetch host path m)).warnings =
      m.warnings ++ ([path].filterMap host.text?).flatMap Warning.ofText := by
  have hrequest : Eval.request path m =
    .ok () { m with requested := m.requested ++ [path] } := rfl
  rw [Eval.fetch, bind_ok hrequest]
  unfold Eval.readScript
  cases hread : host.read path with
  | error fault =>
    have htext : host.text? path = none := by rw [Host.text?, hread]; rfl
    rw [List.filterMap_cons_none htext]
    exact (List.append_nil _).symm
  | ok source =>
    have htext : host.text? path = some source := by rw [Host.text?, hread]; rfl
    have hkept : (m.compile source).2.warnings = m.warnings := by rw [m.compile_snd source]
    have haccepted := @Ahead.ofText_accepted m ha source
    have hrefused := @Ahead.ofText_refused m ha source
    rw [List.filterMap_cons_some htext, List.filterMap_nil, List.flatMap_singleton]
    dsimp only
    rw [m.compile_requested]
    generalize m.compile source = r at hkept haccepted hrefused ⊢
    obtain ⟨result, m₁⟩ := r
    cases result with
    | error es =>
      rw [hrefused rfl, List.append_nil]
      exact hkept
    | ok accepted =>
      rw [haccepted rfl, ← hkept]
      rfl

theorem Loaded.fetch {host : Host} {paths : List String} {m m₁ : Machine} (ha : m.Ahead)
    (h : Loaded host paths m m₁) (path : String) :
    Loaded host (paths ++ [path]) m (state (Eval.fetch host path m₁)) where
  asked := h.asked.fetch path
  warnings := by
    rw [warnings_fetch (h.ahead ha), h.warnings, List.filterMap_append, List.flatMap_append,
      List.append_assoc]

end Machine

/-- Whatever a program does and however it ends, the warnings that wait then are those about the scripts it
has asked for. -/
theorem loaded_interpret {host : Host} (hl : ∀ load, host.loader ≠ .custom load) {m : Machine}
    (ha : m.Ahead) (fuel : Nat) (program : List Stmt) :
    ∃ paths, Machine.Loaded host paths m (state (interpret host fuel program m)) := by
  have hlock : Lockstep host fun m₁ m₁' => m₁' = m₁ ∧ ∃ paths, Machine.Loaded host paths m m₁ := by
    refine .of_invariant hl (fun ⟨paths, h⟩ hr hw hs => ?_) fun path m₁ h => ?_
    · exact ⟨paths, h.asked.same hr hs, hw.trans h.warnings⟩
    · obtain ⟨paths, h⟩ := h
      exact ⟨_, h.fetch ha path⟩
  have hstart : Machine.Loaded host [] m m :=
    ⟨⟨(List.append_nil _).symm, rfl, rfl⟩, (List.append_nil _).symm⟩
  have hend := (runsInStep hlock fuel).interpret program m m ⟨rfl, [], hstart⟩
  generalize interpret host fuel program m = r at hend ⊢
  cases hend with
  | ok _ h => exact h.2
  | error _ h => exact h.2

/-! ## Runs -/

/-- What a session reports. -/
inductive Note where
  | error (e : Error)
  | warning (w : Warning)

namespace Note

def text : Note → String
  | error e => e.text
  | warning w => w.text

def error? : Note → Option Error
  | error e => some e
  | warning _ => none

def warning? : Note → Option Warning
  | error _ => none
  | warning w => some w

@[simp] theorem filterMap_error?_errors (es : List Error) : (es.map error).filterMap error? = es := by
  rw [List.filterMap_map]
  exact List.filterMap_some

@[simp] theorem filterMap_error?_warnings (ws : List Warning) : (ws.map warning).filterMap error? = [] := by
  rw [List.filterMap_map]
  exact List.filterMap_eq_nil_iff.2 fun _ _ => rfl

@[simp] theorem filterMap_warning?_errors (es : List Error) : (es.map error).filterMap warning? = [] := by
  rw [List.filterMap_map]
  exact List.filterMap_eq_nil_iff.2 fun _ _ => rfl

@[simp] theorem filterMap_warning?_warnings (ws : List Warning) :
    (ws.map warning).filterMap warning? = ws := by
  rw [List.filterMap_map]
  exact List.filterMap_some

end Note

namespace Session

/-- From `s` to `t` these notes were taken, in this order, and each given to the diagnostics. -/
def Takes (s t : Session) (notes : List Note) : Prop :=
  s.Adds t (notes.filterMap Note.error?) (notes.filterMap Note.warning?) (notes.map Note.text)

theorem Takes.trans {s t u : Session} {notes notes' : List Note} (h : s.Takes t notes)
    (h' : t.Takes u notes') : s.Takes u (notes ++ notes') := by
  have hadds := Adds.trans h h'
  rwa [← List.filterMap_append, ← List.filterMap_append, ← List.map_append] at hadds

theorem Adds.takes_errors {s t : Session} {es : List Error} (h : s.Adds t es [] (es.map Error.text)) :
    s.Takes t (es.map .error) := by
  unfold Takes
  rw [Note.filterMap_error?_errors, Note.filterMap_warning?_errors, List.map_map]
  exact h

theorem Adds.takes_warnings {s t : Session} {ws : List Warning}
    (h : s.Adds t [] ws (ws.map Warning.text)) : s.Takes t (ws.map .warning) := by
  unfold Takes
  rw [Note.filterMap_error?_warnings, Note.filterMap_warning?_warnings, List.map_map]
  exact h

theorem Adds.takes_failed {s t : Session} {ws : List Warning} {e : Error}
    (h : s.Adds t [e] ws (ws.map Warning.text ++ [e.text])) :
    s.Takes t (ws.map .warning ++ [.error e]) := by
  unfold Takes
  rw [List.filterMap_append, List.filterMap_append, List.map_append, Note.filterMap_error?_warnings,
    Note.filterMap_warning?_warnings, List.map_map]
  have hwarnings : ws ++ [Note.error e].filterMap Note.warning? = ws := List.append_nil ws
  rw [hwarnings]
  exact h

/-- What is noted of a run that was begun in `s` and asked for these scripts: the errors for which its text is
refused; or else the warnings about the text and then about each script as it was asked for, and at last the error
that ended the run. -/
inductive Noted (s : Session) (line : Line) (paths : List String) : Outcome → List Note → Prop
  | refused {es : List Error} : (s.machine.compile line.source).1 = .error es → paths = [] →
      Noted s line paths .staticError (es.map .error)
  | ok {accepted : List Stmt × List Warning} : (s.machine.compile line.source).1 = .ok accepted →
      Noted s line paths .ok
        (((line.source :: paths.filterMap line.host.text?).flatMap Warning.ofText).map .warning)
  | failed {accepted : List Stmt × List Warning} {e : Error} :
      (s.machine.compile line.source).1 = .ok accepted → e.isStatic = false →
      Noted s line paths .runtimeError
        (((line.source :: paths.filterMap line.host.text?).flatMap Warning.ofText).map .warning ++
          [.error e])

theorem run_noted {line : Line} (hl : line.host.loader = .files) {s t : Session} {o : Outcome}
    (ha : s.machine.Ahead) (hw : s.machine.warnings = [])
    (h : s.run line.host line.fuel line.source = some (o, t)) :
    ∃ paths notes, t.machine.requested = s.machine.requested ++ paths ∧ s.Noted line paths o notes ∧
      s.Takes t notes := by
  have hkept := s.machine.compile_snd line.source
  have hcustom : ∀ load, line.host.loader ≠ .custom load := fun load hc => by rw [hl] at hc; cases hc
  -- what the program leaves waiting, once its text has passed
  have hended : ∀ {program warnings m m'}, s.machine.compile line.source = (.ok (program, warnings), m) →
      state (interpret line.host line.fuel program m) = m' →
      ∃ paths, m'.requested = s.machine.requested ++ paths ∧ warnings ++ m'.warnings =
        (line.source :: paths.filterMap line.host.text?).flatMap Warning.ofText := by
    intro program warnings m m' hc hm'
    have hafter := ha.compile line.source
    rw [hc] at hkept hafter
    dsimp only at hkept hafter
    obtain ⟨paths, hloaded⟩ := loaded_interpret hcustom hafter line.fuel program
    rw [hm'] at hloaded
    refine ⟨paths, by rw [hloaded.asked.1, hkept], ?_⟩
    rw [List.flatMap_cons, ha.ofText_accepted (congrArg Prod.fst hc), hloaded.warnings, hkept, hw,
      List.nil_append]
  cases runEnds_of_run h with
  | @refused es _ hc hadds =>
    refine ⟨[], es.map .error, ?_, .refused (congrArg Prod.fst hc) rfl, ?_⟩
    · rw [List.append_nil, show t.machine = (s.machine.compile line.source).2 by rw [hc], hkept]
    · exact hadds.takes_errors
  | ok hc hi hadds ht =>
    obtain ⟨paths, hrequested, hwarnings⟩ := hended hc (congrArg state hi)
    refine ⟨paths, _, by rw [ht]; exact hrequested, .ok (congrArg Prod.fst hc), ?_⟩
    rw [← hwarnings]
    exact hadds.takes_warnings
  | @failed _ _ _ _ e _ hc hi hadds ht =>
    obtain ⟨paths, hrequested, hwarnings⟩ := hended hc (congrArg state hi)
    have hraised := raised_of_interpret hl hi
    refine ⟨paths, _, by rw [ht]; exact hrequested, .failed (congrArg Prod.fst hc) hraised.not_isStatic, ?_⟩
    rw [← hwarnings]
    exact hadds.takes_failed

/-! ## Diagnostics that are written -/

end Session

theorem Sink.refusesWrite_write (sink : Sink) (s : String) :
    (sink.write s).2.refusesWrite = sink.refusesWrite := by
  unfold Sink.write
  split <;> rfl

/-- Where no write is refused, lines that are written one by one stand in the text one after the other. -/
theorem Sink.writes_lines {sink : Sink} (h : ∀ n, sink.refusesWrite n = none) (lines : List String) :
    (lines.foldl (fun sink line => (sink.write (line ++ "\n")).2) sink).text =
        sink.text ++ Command.lines lines ∧
      ∀ n, (lines.foldl (fun sink line => (sink.write (line ++ "\n")).2) sink).refusesWrite n = none := by
  induction lines generalizing sink with
  | nil => exact ⟨String.append_empty.symm, h⟩
  | cons line rest ih =>
    have hnext : ∀ n, (sink.write (line ++ "\n")).2.refusesWrite n = none := by
      rw [sink.refusesWrite_write]
      exact h
    have hwrite : (sink.write (line ++ "\n")).2.text = sink.text ++ (line ++ "\n") := by
      unfold Sink.write
      rw [h]
    obtain ⟨htext, hrefuses⟩ := ih hnext
    refine ⟨?_, hrefuses⟩
    rw [List.foldl_cons, htext, hwrite, Command.lines, Command.lines, List.map_cons, String.join_cons,
      String.append_assoc]

namespace Session

/-- Between runs: nothing waits, no identity to come is on record, and the diagnostics take all that is written. -/
structure Settled (s : Session) : Prop where
  waiting : s.machine.warnings = []
  ahead : s.machine.Ahead
  takesAll (n : Nat) : s.diagnostics.refusesWrite n = none

theorem Takes.text {s t : Session} {notes : List Note} (h : s.Takes t notes) (hs : s.Settled) :
    t.diagnostics.text = s.diagnostics.text ++ Command.lines (notes.map Note.text) := by
  rw [h.diagnostics]
  exact (Sink.writes_lines hs.takesAll _).1

theorem Settled.reset {s : Session} (hs : s.Settled) : s.reset.Settled :=
  ⟨hs.waiting, hs.ahead, hs.takesAll⟩

/-- One run of a settled session, which is settled again. -/
theorem Settled.run {line : Line} (hl : line.host.loader = .files) {s t : Session} {o : Outcome}
    (hs : s.Settled) (h : s.run line.host line.fuel line.source = some (o, t)) :
    t.Settled ∧ ∃ paths notes, t.machine.requested = s.machine.requested ++ paths ∧
      s.Noted line paths o notes ∧ s.Takes t notes := by
  have hcustom : ∀ load, line.host.loader ≠ .custom load := fun load hc => by rw [hl] at hc; cases hc
  obtain ⟨paths, notes, hrequested, hnoted, htakes⟩ := run_noted hl hs.ahead hs.waiting h
  obtain ⟨_, -, hrecord⟩ := asked_run hcustom h
  refine ⟨⟨warnings_run hs.waiting h, hrecord.ahead (hs.ahead.compileAll _), ?_⟩,
    paths, notes, hrequested, hnoted, htakes⟩
  rw [htakes.diagnostics]
  exact (Sink.writes_lines hs.takesAll _).2

/-! ## Sequences of runs and resets -/

inductive Action where
  | run (line : Line)
  | reset

/-- The outcomes of the runs, and the session after them all. A run that goes too deep is the last. -/
def perform : List Action → Session → Option (List Outcome × Session)
  | [], s => some ([], s)
  | .reset :: rest, s => perform rest s.reset
  | .run line :: rest, s =>
    match s.run line.host line.fuel line.source with
    | none => none
    | some (o, t) => (perform rest t).map fun (os, u) => (o :: os, u)

theorem perform_run {line : Line} {rest : List Action} {s u : Session} {os : List Outcome}
    (h : s.perform (.run line :: rest) = some (os, u)) :
    ∃ o t later, s.run line.host line.fuel line.source = some (o, t) ∧
      t.perform rest = some (later, u) ∧ os = o :: later := by
  unfold perform at h
  split at h
  case h_1 => cases h
  case h_2 o t hrun =>
    obtain ⟨⟨later, v⟩, hrest, heq⟩ := Option.map_eq_some_iff.1 h
    cases heq
    exact ⟨o, t, later, hrun, hrest, rfl⟩

theorem Settled.perform {actions : List Action} (hl : ∀ line, .run line ∈ actions → line.host.loader = .files)
    {s t : Session} {os : List Outcome} (hs : s.Settled) (h : s.perform actions = some (os, t)) :
    t.Settled := by
  induction actions generalizing s os with
  | nil =>
    cases h
    exact hs
  | cons action rest ih =>
    have hrest : ∀ line, .run line ∈ rest → line.host.loader = .files :=
      fun line hline => hl line (List.mem_cons_of_mem _ hline)
    cases action with
    | reset => exact ih hrest hs.reset h
    | run line =>
      obtain ⟨o, s₁, later, hrun, hlater, -⟩ := perform_run h
      exact ih hrest (hs.run (hl line List.mem_cons_self) hrun).1 hlater

/-- Runs without a reset between them add up. -/
theorem Settled.takes {lines : List Line} (hl : ∀ line ∈ lines, line.host.loader = .files)
    {s t : Session} {os : List Outcome} (hs : s.Settled) (h : s.perform (lines.map .run) = some (os, t)) :
    ∃ notes, s.Takes t notes := by
  induction lines generalizing s os with
  | nil =>
    cases h
    exact ⟨[], Adds.setMachine t t.machine⟩
  | cons line rest ih =>
    obtain ⟨hline, hrest⟩ := List.forall_mem_cons.1 hl
    obtain ⟨o, s₁, later, hrun, hlater, -⟩ := perform_run h
    obtain ⟨hs₁, _, notes, -, -, htakes⟩ := hs.run hline hrun
    obtain ⟨notes', htakes'⟩ := ih hrest hs₁ hlater
    exact ⟨notes ++ notes', htakes.trans htakes'⟩

/-! ## Diagnostics that are refused -/

/-- The sessions differ at most in what their diagnostics take. -/
structure SameBut (s s' : Session) : Prop where
  machine : s'.machine = s.machine
  errors : s'.errors = s.errors
  warnings : s'.warnings = s.warnings

/-- The same outcomes, in such sessions. -/
def EndSame {α : Type} : Option (α × Session) → Option (α × Session) → Prop :=
  Option.Rel fun r r' => r'.1 = r.1 ∧ r.2.SameBut r'.2

theorem SameBut.adds {s s' t t' : Session} (h : s.SameBut s') {es : List Error} {ws : List Warning}
    {lines : List String} (ht : s.Adds t es ws lines) (ht' : s'.Adds t' es ws lines)
    (hm : t'.machine = t.machine) : t.SameBut t' where
  machine := hm
  errors := by rw [ht'.errors, ht.errors, h.errors]
  warnings := by rw [ht'.warnings, ht.warnings, h.warnings]

theorem SameBut.run {s s' : Session} (h : s.SameBut s') (host : Host) (fuel : Nat) (source : String) :
    EndSame (s.run host fuel source) (s'.run host fuel source) := by
  cases hc : s.machine.compile source with
  | mk result m =>
  have hc' : s'.machine.compile source = (result, m) := by rw [h.machine, hc]
  cases result with
  | error es =>
    have hadds := (Adds.setMachine s m).trans (.addErrors es _)
    have hadds' := (Adds.setMachine s' m).trans (.addErrors es _)
    unfold Session.run
    rw [hc, hc']
    exact .some ⟨rfl, h.adds hadds hadds' (by rw [machine_addErrors, machine_addErrors])⟩
  | ok accepted =>
    have hran := run_of_compile hc host fuel
    have hran' := run_of_compile hc' host fuel
    generalize s.run host fuel source = ended at hran ⊢
    generalize s'.run host fuel source = ended' at hran' ⊢
    generalize interpret host fuel accepted.1 m = r at hran hran'
    cases hran with
    | ok hadds ht =>
      cases hran' with
      | ok hadds' ht' => exact .some ⟨rfl, h.adds hadds hadds' (ht'.trans ht.symm)⟩
    | failed hadds ht =>
      cases hran' with
      | failed hadds' ht' => exact .some ⟨rfl, h.adds hadds hadds' (ht'.trans ht.symm)⟩
    | deeper =>
      cases hran'
      exact .none

theorem SameBut.perform (actions : List Action) {s s' : Session} (h : s.SameBut s') :
    EndSame (s.perform actions) (s'.perform actions) := by
  induction actions generalizing s s' with
  | nil => exact .some ⟨rfl, h⟩
  | cons action rest ih =>
    cases action with
    | reset => exact ih ⟨h.machine, rfl, rfl⟩
    | run line =>
      have hrun := h.run line.host line.fuel line.source
      unfold Session.perform
      generalize s.run line.host line.fuel line.source = ended at hrun ⊢
      generalize s'.run line.host line.fuel line.source = ended' at hrun ⊢
      cases hrun with
      | none => exact .none
      | @some r r' hsame =>
        obtain ⟨o, t⟩ := r
        obtain ⟨o', t'⟩ := r'
        obtain ⟨ho, ht⟩ := hsame
        dsimp only at ho ht ⊢
        have hrest := ih ht
        generalize t.perform rest = later at hrest ⊢
        generalize t'.perform rest = later' at hrest ⊢
        cases hrest with
        | none => exact .none
        | some hlater => exact .some ⟨by dsimp only; rw [ho, hlater.1], hlater.2⟩

/-! ## Sessions -/

/-- Between the runs of a session nothing waits to be reported. Where its diagnostics take all that is written, they
have taken since the last reset one line for each error and each warning that the session holds now, in
the order in which they were noted, and nothing else. A run adds the errors for which its text is refused; or else
the warnings about its text, those about each script it asked for, as often as it did, and the error that
ended it. And whatever diagnostics refuse, nothing else changes. -/
theorem diagnosed_once {host : Host} {output diagnostics : Sink}
    (hd : ∀ n, diagnostics.refusesWrite n = none) {earlier : List Action}
    (hl : ∀ line, .run line ∈ earlier → line.host.loader = .files) {os : List Outcome} {s : Session}
    (hs : (Session.start host output diagnostics).perform earlier = some (os, s)) :
    s.machine.warnings = [] ∧
    (∀ (lines : List Line) os' t, (∀ line ∈ lines, line.host.loader = .files) →
      s.reset.perform (lines.map .run) = some (os', t) →
      ∃ notes : List Note, t.errors = notes.filterMap Note.error? ∧
        t.warnings = notes.filterMap Note.warning? ∧
        t.diagnostics.text = s.diagnostics.text ++ Command.lines (notes.map Note.text)) ∧
    (∀ (line : Line) o t, line.host.loader = .files → s.run line.host line.fuel line.source = some (o, t) →
      ∃ paths notes, t.machine.requested = s.machine.requested ++ paths ∧ s.Noted line paths o notes ∧
        t.errors = s.errors ++ notes.filterMap Note.error? ∧
        t.warnings = s.warnings ++ notes.filterMap Note.warning? ∧
        t.diagnostics.text = s.diagnostics.text ++ Command.lines (notes.map Note.text)) ∧
    ∀ refusing : Sink, ∃ t, (Session.start host output refusing).perform earlier = some (os, t) ∧
      t.machine = s.machine ∧ t.errors = s.errors ∧ t.warnings = s.warnings := by
  have hstart : (Session.start host output diagnostics).Settled :=
    ⟨rfl, fun _ _ => Std.TreeMap.getElem?_emptyc, hd⟩
  have hsettled := hstart.perform hl hs
  refine ⟨hsettled.waiting, fun lines os' t hlines ht => ?_, fun line o t hline ht => ?_,
    fun refusing => ?_⟩
  · obtain ⟨notes, htakes⟩ := hsettled.reset.takes hlines ht
    exact ⟨notes, htakes.errors, htakes.warnings, htakes.text hsettled.reset⟩
  · obtain ⟨-, paths, notes, hrequested, hnoted, htakes⟩ := hsettled.run hline ht
    exact ⟨paths, notes, hrequested, hnoted, htakes.errors, htakes.warnings, htakes.text hsettled⟩
  · have hsame : (Session.start host output diagnostics).SameBut (.start host output refusing) :=
      ⟨rfl, rfl, rfl⟩
    have hend := hsame.perform earlier
    rw [hs] at hend
    generalize (Session.start host output refusing).perform earlier = ended at hend ⊢
    cases hend with
    | @some _ r h =>
      obtain ⟨os', t⟩ := r
      obtain ⟨rfl, ht⟩ := h
      exact ⟨t, rfl, ht.machine, ht.errors, ht.warnings⟩

/-- Runs a script that has a variable it does not use, and then fails. -/
def failingText : String := "execute \"inner\"; -nil;"

set_option maxRecDepth 20000 in
theorem interpret_failingText :
    (match (Machine.start idleScripts {}).compile failingText with
      | (.ok (program, []), m) =>
        match interpret idleScripts 12 program m with
        | .error (.failed e) m => some (e, m.warnings)
        | _ => none
      | _ => none) = some (.runtime 1 .operandNotNumber, [⟨1, .unusedVariable "b"⟩]) := by
  cbv

theorem diagnosed_once_failingText :
    (∀ n, ({} : Sink).refusesWrite n = none) ∧ idleScripts.loader = .files ∧
    ∃ s, (Session.start idleScripts {} {}).perform [.run ⟨idleScripts, 12, failingText⟩] =
        some ([.runtimeError], s) ∧
      s.machine.warnings = [] ∧ s.errors = [.runtime 1 .operandNotNumber] ∧
      s.warnings = [⟨1, .unusedVariable "b"⟩] ∧
      ∀ refusing : Sink, ∃ t,
        (Session.start idleScripts {} refusing).perform [.run ⟨idleScripts, 12, failingText⟩] =
          some ([.runtimeError], t) ∧
        t.machine = s.machine ∧ t.errors = s.errors ∧ t.warnings = s.warnings := by
  have hd : ∀ n, ({} : Sink).refusesWrite n = none := fun _ => rfl
  refine ⟨hd, rfl, ?_⟩
  have hi := interpret_failingText
  split at hi
  case h_1 program m hc =>
    split at hi
    case h_1 e m₁ hrun =>
      obtain ⟨rfl, hwarnings⟩ := Prod.ext_iff.1 (Option.some.inj hi)
      have hran := run_of_compile (s := .start idleScripts {} {}) hc idleScripts 12
      rw [hrun] at hran
      cases hend : (Session.start idleScripts {} {}).run idleScripts 12 failingText with
      | none =>
        rw [hend] at hran
        cases hran
      | some ended =>
        obtain ⟨o, s⟩ := ended
        rw [hend] at hran
        cases hran with
        | failed hadds _ =>
          have hs : (Session.start idleScripts {} {}).perform [.run ⟨idleScripts, 12, failingText⟩] =
              some ([.runtimeError], s) := by
            unfold perform
            rw [hend]
            rfl
          have hl : ∀ line, .run line ∈ [Action.run ⟨idleScripts, 12, failingText⟩] →
              line.host.loader = .files := by
            intro line hline
            cases List.mem_singleton.1 hline
            rfl
          obtain ⟨hwaiting, -, -, hrefusing⟩ := diagnosed_once hd hl hs
          exact ⟨s, hs, hwaiting, hadds.errors, hadds.warnings.trans hwarnings, hrefusing⟩
    case h_2 => cases hi
  case h_2 => cases hi

end Session
end Lox
