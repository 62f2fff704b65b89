import Lox.Proofs.Scope.Agreement
import Lox.Proofs.Scope.Erasure

/-!
# References in a session

A session runs one text after another, whether or not it passed and however it ended. With a log kept over all of
them, every reference in it is `Resolved`: the frame that the machine goes to is the one it made for
the scope in which the analysis has found the name.
-/

namespace Lox
open Scoping

namespace Session

/-- One text of a session: what it runs in, how deep it may go, and the text. -/
structure Line where
  host : Host
  fuel : Nat
  source : String

/-- Runs texts in order, each in its own host: files may have changed since the one before. -/
def runAll : List Line → Session → Option Session
  | [], s => some s
  | line :: rest, s =>
    match s.run line.host line.fuel line.source with
    | some (_, s) => runAll rest s
    | none => none

@[simp] theorem machine_addErrors (es : List Error) (s : Session) :
    (es.foldl addError s).machine = s.machine := by
  induction es generalizing s with
  | nil => rfl
  | cons e rest ih => exact ih _

@[simp] theorem machine_addWarnings (ws : List Warning) (s : Session) :
    (ws.foldl addWarning s).machine = s.machine := by
  induction ws generalizing s with
  | nil => rfl
  | cons w rest ih => exact ih _

theorem same_reportQueued (s : Session) : Trace.Same s.machine s.reportQueued.machine := by
  unfold reportQueued
  rw [machine_addWarnings]
  exact ⟨rfl, rfl, rfl, rfl, rfl⟩

end Session

namespace Trace

/-! ## Runs of a session with a log -/

def run (host : Host) (fuel : Nat) (source : String) (s : Session) (log : Log) :
    Option (Outcome × Session) × Log :=
  match s.machine.compile source with
  | (.error es, m) => (some (.staticError, es.foldl Session.addError { s with machine := m }), log)
  | (.ok (program, warnings), m) =>
    let before := s.machine.distances
    let s := warnings.foldl Session.addWarning { s with machine := m }
    match interpret host fuel program ⟨s.machine, .accepted program before :: log⟩ with
    | .ok () t => (some (.ok, { s with machine := t.machine }.reportQueued), t.log)
    | .error (.failed e) t =>
      (some (.runtimeError, ({ s with machine := t.machine }.reportQueued).addError e), t.log)
    | .error .exhausted t => (none, t.log)

/-- A run that goes too deep is the last. -/
def session : List Session.Line → Session → Log → Option Session × Log
  | [], s, log => (some s, log)
  | line :: rest, s, log =>
    match run line.host line.fuel line.source s log with
    | (some (_, s), log) => session rest s log
    | (none, log) => (none, log)

theorem run_fst (host : Host) (fuel : Nat) (source : String) (s : Session) (log : Log) :
    (run host fuel source s log).1 = s.run host fuel source := by
  unfold run Session.run
  cases s.machine.compile source with
  | mk result m =>
    cases result with
    | error es => rfl
    | ok accepted =>
      obtain ⟨program, warnings⟩ := accepted
      dsimp only
      generalize warnings.foldl Session.addWarning { s with machine := m } = s₁
      have h := (runsErase host fuel).interpret program ⟨s₁.machine, .accepted program s.machine.distances :: log⟩
      rw [← h]
      cases interpret host fuel program ⟨s₁.machine, .accepted program s.machine.distances :: log⟩ with
      | ok a t => rfl
      | error e t => cases e <;> rfl

theorem session_fst (lines : List Session.Line) (s : Session) (log : Log) :
    (session lines s log).1 = s.runAll lines := by
  induction lines generalizing s log with
  | nil => rfl
  | cons line rest ih =>
    unfold session Session.runAll
    rw [← run_fst line.host line.fuel line.source s log]
    cases run line.host line.fuel line.source s log with
    | mk result log' =>
      cases result with
      | none => rfl
      | some last => exact ih last.2 log'

/-! ## What a session keeps -/

/-- Whatever the text and the outcome, the property holds of the log that is left, and of the machine with it if there
is an outcome. -/
def Lasts (host : Host) (P : State → Prop) : Prop :=
  ∀ (fuel : Nat) (source : String) {s : Session} {log : Log}, P ⟨s.machine, log⟩ →
    (∃ m, P ⟨m, (run host fuel source s log).2⟩) ∧
      ∀ o s', (run host fuel source s log).1 = some (o, s') → P ⟨s'.machine, (run host fuel source s log).2⟩

namespace Lasts

variable {host : Host} {P : State → Prop}

/-- It is enough to look at the program of a text that passes. -/
theorem of_programs
    (hkept : ∀ {s : State} {m : Machine}, P s → Compiled s.machine m → P { s with machine := m })
    (hrun : ∀ {m m' : Machine} {log : Log} {source : String} {program : List Stmt} {warnings : List Warning}
      (fuel : Nat), P ⟨m, log⟩ → m.compile source = (.ok (program, warnings), m') →
      P (Ending.state (interpret host fuel program ⟨m', .accepted program m.distances :: log⟩))) :
    Lasts host P := by
  intro fuel source s log h
  have hc := compiled s.machine source
  unfold run
  cases hm : s.machine.compile source with
  | mk result m =>
    rw [hm] at hc
    cases result with
    | error es =>
      have hleft : P ⟨m, log⟩ := hkept h hc
      refine ⟨⟨m, hleft⟩, fun o s' ho => ?_⟩
      cases ho
      rwa [Session.machine_addErrors]
    | ok accepted =>
      obtain ⟨program, warnings⟩ := accepted
      have hended := hrun fuel h hm
      dsimp only
      rw [Session.machine_addWarnings]
      generalize warnings.foldl Session.addWarning { s with machine := m } = s₁
      have hreport : ∀ t : State, P t →
          P ⟨({ s₁ with machine := t.machine } : Session).reportQueued.machine, t.log⟩ := by
        intro t ht
        have hs := Session.same_reportQueued { s₁ with machine := t.machine }
        exact hkept ht ⟨hs.frames, hs.objects, hs.env, Nat.le_of_eq hs.nextNode.symm, fun _ => by rw [hs.distances]⟩
      cases hi : interpret host fuel program ⟨m, .accepted program s.machine.distances :: log⟩ with
      | ok a t =>
        rw [hi] at hended
        refine ⟨⟨t.machine, hended⟩, fun o s' ho => ?_⟩
        cases ho
        exact hreport t hended
      | error e t =>
        rw [hi] at hended
        cases e with
        | exhausted => exact ⟨⟨t.machine, hended⟩, nofun⟩
        | failed e =>
          refine ⟨⟨t.machine, hended⟩, fun o s' ho => ?_⟩
          cases ho
          exact hreport t hended

theorem session {lines : List Session.Line} (hl : ∀ line ∈ lines, Lasts line.host P) {s : Session} {log : Log}
    (h : P ⟨s.machine, log⟩) :
    (∃ m, P ⟨m, (Trace.session lines s log).2⟩) ∧
      ∀ s', (Trace.session lines s log).1 = some s' → P ⟨s'.machine, (Trace.session lines s log).2⟩ := by
  induction lines generalizing s log with
  | nil =>
    refine ⟨⟨s.machine, h⟩, fun s' hs' => ?_⟩
    cases hs'
    exact h
  | cons line rest ih =>
    obtain ⟨hline, hrest⟩ := List.forall_mem_cons.1 hl
    obtain ⟨hlog, hnext⟩ := hline line.fuel line.source h
    unfold Trace.session
    cases hr : run line.host line.fuel line.source s log with
    | mk result log' =>
      rw [hr] at hlog hnext
      cases result with
      | none => exact ⟨hlog, nofun⟩
      | some last => exact ih hrest (hnext last.1 last.2 rfl)

end Lasts

/-! ## Good sessions -/

theorem native_of_mem_hostValues {slot : Nat} {fs : List HostFunction} {name : String} {v : Value}
    (h : (name, v) ∈ Machine.hostValues slot fs) : ∃ f, v = .native f := by
  induction fs generalizing slot with
  | nil => cases h
  | cons f rest ih =>
    rcases List.mem_cons.1 h with h | h
    · cases h
      exact ⟨_, rfl⟩
    · exact ih h

/-- At first there are only built-in functions. -/
theorem native_of_read_start {host : Host} {output : Sink} {i : Nat} {name : String} {v : Value}
    (hr : (Machine.start host output).frames.read i name = some v) : ∃ f, v = .native f := by
  have hb : (Machine.builtins host).get? name = some v := by
    cases i with
    | zero => exact hr
    | succ i => cases hr
  rcases Table.mem_of_get?_foldl hb with ⟨⟨x, w⟩, hx, rfl⟩ | h
  · rcases List.mem_cons.1 hx with h | h
    · cases h
      exact ⟨_, rfl⟩
    · exact native_of_mem_hostValues h
  · cases h

theorem good_start (host : Host) (output : Sink) : Good ⟨Machine.start host output, []⟩ where
  frames {i name v} hr := by
    obtain ⟨f, rfl⟩ := native_of_read_start hr
    trivial
  fields hr := by cases hr
  size := Nat.zero_lt_one
  fresh _ := by simp [Machine.start]
  programs := nofun
  apart := nofun
  entered := nofun
  once := nofun
  referred := nofun
  began := nofun

/-- Whatever the text and the outcome, the log stays good, and with it the machine if there is an
outcome. -/
theorem good_run {host : Host} (hh : host.Honest) : Lasts host Good := by
  refine .of_programs (fun hg hc => (hc.after (A := nothing) hg).good) ?_
  intro m m' log source program warnings fuel hg hm
  have hacc : Good ⟨m', .accepted program m.distances :: log⟩ :=
    (After.accept (s := ⟨m, log⟩) (A := nothing) hg hm ⟨rfl, rfl, rfl, rfl, rfl⟩).good
  have hrun := (runsAgree hh fuel).interpret hacc List.mem_cons_self
  generalize interpret host fuel program _ = r at hrun
  cases r with
  | ok a t => exact hrun.1.good
  | error e t => exact After.good hrun

theorem good_session {lines : List Session.Line} (hh : ∀ line ∈ lines, line.host.Honest) {s : Session}
    {log : Log} (hg : Good ⟨s.machine, log⟩) : ∃ m, Good ⟨m, (session lines s log).2⟩ :=
  (Lasts.session (fun line hline => good_run (hh line hline)) hg).1

end Trace

/-! ## What a reference finds -/

theorem Eval.lookUp_global {m : Machine} {id : Nat} {name : Token} (h : m.distances[id]? = none) :
    Eval.lookUp id name m = match m.global? name.lexeme with
      | some value => .ok value m
      | none => Eval.undefined name m := by
  unfold Eval.lookUp
  have hg : m.frames.get? Machine.globals name.lexeme = m.global? name.lexeme := by
    unfold Machine.globals Frames.get? Machine.global?
    cases m.frames.read Machine.globalFrame name.lexeme <;> rfl
  cases hv : m.global? name.lexeme with
  | none => simp only [h, hg, hv]
  | some value => simp only [h, hg, hv]

theorem Eval.assign_global {m : Machine} {id : Nat} {name : Token} (h : m.distances[id]? = none)
    (value : Value) :
    Eval.assign id name value m = match m.global? name.lexeme with
      | some _ => .ok () (m.defineGlobal name.lexeme value)
      | none => Eval.undefined name m := by
  unfold Eval.assign Eval.store
  have hg : m.frames.holder? Machine.globals name.lexeme =
      (m.global? name.lexeme).map fun _ => Machine.globalFrame := by
    unfold Machine.globals Frames.holder? Machine.global?
    cases m.frames.read Machine.globalFrame name.lexeme <;> rfl
  cases hv : m.global? name.lexeme with
  | none => simp only [h, hg, hv, Option.map_none]
  | some old => simp only [h, hg, hv, Option.map_some, Machine.defineGlobal]

namespace Trace

/-- A reference finds in the machine what the analysis has found for it in the program. -/
structure Resolved (log : Log) (ref : Reference) (m : Machine) (v : Visit) : Prop where
  known : Known log v
  about : v.ref = ref
  /-- No other visit has this identity, in any program of the session. -/
  only : ∀ w, Known log w → w.ref.id = ref.id → w = v
  /-- The steps to the globals are as many as the scopes that the analysis had open. -/
  depth : ∃ frames, m.env = frames ++ Machine.globals ∧ frames.length = v.scopes.length
  recorded : m.distances[ref.id]? = v.distance
  /-- At its distance is the frame that was made on entering the innermost scope with the name, and
  for nothing else. -/
  atDistance : ∀ d, v.distance = some d → ∃ scope site outer i,
    v.scopes[d]? = some scope ∧ scope.has ref.name.lexeme = true ∧
    (∀ inner ∈ v.scopes.take d, inner.has ref.name.lexeme = false) ∧
    v.sites[d]? = some site ∧ m.env.drop d = i :: outer ∧ .entered site outer i ∈ log ∧
    ∀ site' outer', .entered site' outer' i ∈ log → site' = site ∧ outer' = outer
  /-- Without a distance the name is that of a global, whatever the frames in between bind. -/
  atGlobals : v.distance = none → (ref.access = .read ∨ ref.access = .write) ∧
    (Eval.lookUp ref.id ref.name m = match m.global? ref.name.lexeme with
      | some value => .ok value m
      | none => Eval.undefined ref.name m) ∧
    ∀ value, Eval.assign ref.id ref.name value m = match m.global? ref.name.lexeme with
      | some _ => .ok () (m.defineGlobal ref.name.lexeme value)
      | none => Eval.undefined ref.name m

theorem Known.unique {s : State} (hg : Good s) {v w : Visit} (hv : Known s.log v)
    (hw : Known s.log w) (h : w.ref.id = v.ref.id) : w = v := by
  obtain ⟨p, d, hp, hv⟩ := hv
  obtain ⟨p', d', hp', hw⟩ := hw
  have hperm := Stmt.ids_visitsAll {} [] p { distances := d }
  have hperm' := Stmt.ids_visitsAll {} [] p' { distances := d' }
  have hid : v.ref.id ∈ Stmt.nodesAll p := hperm.mem_iff.1 (List.mem_map_of_mem hv)
  have hid' : v.ref.id ∈ Stmt.nodesAll p' := by
    rw [← h]
    exact hperm'.mem_iff.1 (List.mem_map_of_mem hw)
  obtain ⟨rfl, rfl⟩ := hg.apart hp hp' hid hid'
  exact List.inj_on_of_nodup_map (hperm.nodup_iff.2 (hg.programs hp).nodup) hw hv h

theorem Chain.env {log : Log} {env : Env} {sites : List Site} (h : Chain log env sites) :
    ∃ frames, env = frames ++ Machine.globals ∧ frames.length = sites.length := by
  induction h with
  | globals => exact ⟨[], rfl, rfl⟩
  | scope _ _ ih =>
    obtain ⟨frames, rfl, hl⟩ := ih
    exact ⟨_ :: frames, rfl, by simp [hl]⟩

theorem Chain.entered {log : Log} {env : Env} {sites : List Site} (h : Chain log env sites) {d : Nat}
    {site : Site} (hd : sites[d]? = some site) :
    ∃ i outer, env.drop d = i :: outer ∧ .entered site outer i ∈ log := by
  induction h generalizing d with
  | globals => cases hd
  | scope he _ ih =>
    cases d with
    | zero =>
      cases hd
      exact ⟨_, _, rfl, he⟩
    | succ d => exact ih hd

theorem has_of_distance {name : String} {scopes : List Scope} {d : Nat}
    (h : Outline.distance name (outlines scopes) = some d) :
    ∃ scope, scopes[d]? = some scope ∧ scope.has name = true ∧
      ∀ inner ∈ scopes.take d, inner.has name = false := by
  induction scopes generalizing d with
  | nil => cases h
  | cons scope rest ih =>
    have ho : (scope.outline name).isSome = scope.has name := Option.isSome_map
    rw [outlines, List.map_cons, Outline.distance, List.findIdx?_cons, ho] at h
    split at h
    case isTrue hs =>
      cases h
      exact ⟨scope, rfl, hs, by simp⟩
    case isFalse hs =>
      obtain ⟨d', hd, rfl⟩ := Option.map_eq_some_iff.1 h
      obtain ⟨found, hf, hhas, hinner⟩ := ih hd
      refine ⟨found, hf, hhas, List.forall_mem_cons.2 ⟨by simpa using hs, hinner⟩⟩

theorem Agrees.resolved {s : State} (hg : Good s) {ref : Reference} {m : Machine} {v : Visit}
    (h : Agrees s.log ref m v) : Resolved s.log ref m v where
  known := h.known
  about := h.about
  only w hw hid := Known.unique hg h.known hw (by rw [hid, h.about])
  depth := h.depth ▸ h.chain.env
  recorded := h.distance
  atDistance d hd := by
    obtain ⟨scope, hs, hhas, hinner⟩ := has_of_distance (Visit.distance_eq_some hd)
    have hlt : d < v.sites.length := by
      rw [h.depth]
      exact (List.getElem?_eq_some_iff.1 hs).1
    obtain ⟨i, outer, henv, he⟩ := h.chain.entered (List.getElem?_eq_getElem hlt)
    rw [h.about] at hhas hinner
    exact ⟨scope, _, outer, i, hs, hhas, hinner, List.getElem?_eq_getElem hlt, henv, he,
      fun site' outer' he' => hg.once he' he⟩
  atGlobals hd := by
    obtain ⟨p, d, hp, hv⟩ := h.known
    have hl := hg.programs hp
    have hclean := (Stmt.clean_of_analyse hl.wellFormed hl.regular hl.faultless hv).2
    have hnone : m.distances[ref.id]? = none := h.distance.trans hd
    refine ⟨?_, ?_, fun value => ?_⟩
    · rw [hd, h.about] at hclean
      cases hacc : ref.access with
      | read => exact .inl rfl
      | write => exact .inr rfl
      | receiver => simp [hacc] at hclean
      | parent => simp [hacc] at hclean
    · exact Eval.lookUp_global hnone
    · exact Eval.assign_global hnone value

/-! ## Sessions -/

/-- In a session of honest hosts, every reference that is evaluated finds what the analysis
has found for it. The log is kept beside the runs and changes nothing about them. -/
theorem session_resolved (host : Host) (output diagnostics : Sink) {lines : List Session.Line}
    (hh : ∀ line ∈ lines, line.host.Honest) :
    (session lines (.start host output diagnostics) []).1 =
      (Session.start host output diagnostics).runAll lines ∧
    ∀ ref m, .referred ref m ∈ (session lines (.start host output diagnostics) []).2 →
      ∃ v, Resolved (session lines (.start host output diagnostics) []).2 ref m v := by
  refine ⟨session_fst _ _ _, fun ref m hr => ?_⟩
  obtain ⟨m', hg⟩ := good_session (s := .start host output diagnostics) hh (good_start host output)
  obtain ⟨v, hv⟩ := hg.referred hr
  exact ⟨v, hv.resolved hg⟩

theorem honest_default : ({} : Host).Honest := ⟨nofun, nofun⟩

/-- Two texts, the second of which calls a closure of the first. -/
def closureTexts : List Session.Line :=
  [⟨{}, 30, "fun f(n) \x7b fun g() \x7b return n; \x7d return g; \x7d"⟩, ⟨{}, 30, "f(nil)();"⟩]

set_option maxRecDepth 20000 in
theorem session_resolved_closureTexts :
    (∀ line ∈ closureTexts, line.host.Honest) ∧
    ((session closureTexts (.start {} {} {}) []).2.filterMap fun
        | .referred ref m => some (ref.name.lexeme, m.distances[ref.id]?)
        | _ => none) = [("n", some 1), ("g", some 0), ("f", none)] ∧
    ∀ ref m, .referred ref m ∈ (session closureTexts (.start {} {} {}) []).2 →
      ∃ v, Resolved (session closureTexts (.start {} {} {}) []).2 ref m v :=
  have hh : ∀ line ∈ closureTexts, line.host.Honest := by simp [closureTexts, honest_default]
  ⟨hh, by cbv, (session_resolved {} {} {} hh).2⟩

/-! ## Names that have no value yet -/

/-- The reference stands in the initializer of the local variable that it names. -/
def InOwnInitializer (log : Log) (ref : Reference) : Prop :=
  ∃ v, Known log v ∧ v.ref = ref ∧ v.initializing = true

theorem Agrees.bound_iff {s : State} (hg : Good s) {ref : Reference} {m : Machine} {v : Visit}
    (h : Agrees s.log ref m v) {d : Nat} (hd : m.distances[ref.id]? = some d) :
    (m.frames.getAt? m.env d ref.name.lexeme).isSome = true ↔ ¬ InOwnInitializer s.log ref := by
  rw [h.bound d (h.distance.symm.trans hd)]
  constructor
  · rintro hv ⟨w, hk, hw, hi⟩
    rw [Known.unique hg h.known hk (by rw [hw, h.about])] at hi
    simp [hv] at hi
  · intro hn
    by_contra hv
    exact hn ⟨v, h.known, h.about, by simpa using hv⟩

/-- No variable is read in its own initializer. -/
theorem Agrees.not_inOwnInitializer {s : State} (hg : Good s) {ref : Reference} {m : Machine}
    {v : Visit} (h : Agrees s.log ref m v) (hr : ref.access = .read) :
    ¬ InOwnInitializer s.log ref := by
  rintro ⟨w, ⟨p, d, hp, hw⟩, rfl, hi⟩
  have hl := hg.programs hp
  rw [(Stmt.clean_of_analyse hl.wellFormed hl.regular hl.faultless hw).1 hr] at hi
  cases hi

end Trace

theorem Eval.lookUp_local {m : Machine} {id d : Nat} {name : Token} (h : m.distances[id]? = some d)
    {value : Value} (hv : m.frames.getAt? m.env d name.lexeme = some value) :
    Eval.lookUp id name m = .ok value m := by
  simp only [Eval.lookUp, h, hv]

theorem Eval.assign_local {m : Machine} {id d : Nat} (h : m.distances[id]? = some d) (name : Token)
    (value : Value) :
    (m.frames.getAt? m.env d name.lexeme = none ∧
      Eval.assign id name value m = Eval.undefined name m) ∨
    ∃ i, m.env[d]? = some i ∧ (m.frames.getAt? m.env d name.lexeme).isSome = true ∧
      Eval.assign id name value m =
        .ok () { m with frames := m.frames.define i name.lexeme value } := by
  simp only [Eval.assign, Eval.store, h, Frames.holderAt?, Frames.getAt?]
  cases hi : m.env[d]? with
  | none => exact .inl ⟨rfl, rfl⟩
  | some i =>
    cases hr : m.frames.read i name.lexeme with
    | none => exact .inl ⟨hr, by simp [hr]⟩
    | some v => exact .inr ⟨i, rfl, by simp [hr], by simp [hr]⟩

namespace Trace

/-- In a session of honest hosts, a local variable that is read has a value at its distance, and
one that is assigned has a slot there, unless the assignment stands in the variable's own
initializer: then it fails. -/
theorem session_bound (host : Host) (output diagnostics : Sink) {lines : List Session.Line}
    (hh : ∀ line ∈ lines, line.host.Honest) :
    (session lines (.start host output diagnostics) []).1 =
      (Session.start host output diagnostics).runAll lines ∧
    ∀ ref m d, .referred ref m ∈ (session lines (.start host output diagnostics) []).2 →
      m.distances[ref.id]? = some d →
      (ref.access = .read → ∃ value, m.frames.getAt? m.env d ref.name.lexeme = some value ∧
        Eval.lookUp ref.id ref.name m = .ok value m) ∧
      (ref.access = .write → ∀ value,
        (¬ InOwnInitializer (session lines (.start host output diagnostics) []).2 ref →
          ∃ i, m.env[d]? = some i ∧ (m.frames.getAt? m.env d ref.name.lexeme).isSome = true ∧
            Eval.assign ref.id ref.name value m =
              .ok () { m with frames := m.frames.define i ref.name.lexeme value }) ∧
        (InOwnInitializer (session lines (.start host output diagnostics) []).2 ref →
          m.frames.getAt? m.env d ref.name.lexeme = none ∧
            Eval.assign ref.id ref.name value m = Eval.undefined ref.name m)) := by
  refine ⟨session_fst _ _ _, fun ref m d hr hd => ?_⟩
  obtain ⟨m', hg⟩ := good_session (s := .start host output diagnostics) hh (good_start host output)
  obtain ⟨v, hv⟩ := hg.referred hr
  have hbound := hv.bound_iff hg hd
  refine ⟨fun hread => ?_, fun _ value => ⟨fun hn => ?_, fun hi => ?_⟩⟩
  · have hn := hv.not_inOwnInitializer hg hread
    obtain ⟨value, hval⟩ := Option.isSome_iff_exists.1 (hbound.2 hn)
    exact ⟨value, hval, Eval.lookUp_local hd hval⟩
  · rcases Eval.assign_local hd ref.name value with ⟨hnone, -⟩ | hok
    · rw [hnone] at hbound
      exact absurd (hbound.2 hn) Bool.false_ne_true
    · exact hok
  · rcases Eval.assign_local hd ref.name value with hfail | ⟨i, -, hsome, -⟩
    · exact hfail
    · exact absurd hi (hbound.1 hsome)

/-- A local variable that is assigned from its own value. -/
def assigningText : List Session.Line := [⟨{}, 20, "\x7b var a; a = a; \x7d"⟩]

set_option maxRecDepth 20000 in
theorem session_bound_assigningText :
    (∀ line ∈ assigningText, line.host.Honest) ∧
    ((session assigningText (.start {} {} {}) []).2.filterMap fun
        | .referred ref m => some (ref.access, m.distances[ref.id]?)
        | _ => none) = [(.write, some 0), (.read, some 0)] ∧
    ∀ ref m d, .referred ref m ∈ (session assigningText (.start {} {} {}) []).2 →
      m.distances[ref.id]? = some d → ref.access = .read →
      ∃ value, m.frames.getAt? m.env d ref.name.lexeme = some value ∧
        Eval.lookUp ref.id ref.name m = .ok value m :=
  have hh : ∀ line ∈ assigningText, line.host.Honest := by simp [assigningText, honest_default]
  ⟨hh, by cbv, fun ref m d hr hd => ((session_bound {} {} {} hh).2 ref m d hr hd).1⟩

end Trace

/-! An assignment in the variable's own initializer passes the analysis, which gives it a distance,
and fails when it is evaluated. -/

namespace Session

def initializerText : String := "\x7b var a = a = nil; print a; \x7d"

/-- The assignment has the identity 1. -/
def initializerProgram : List Stmt :=
  [.block
    [.varDecl ⟨.identifier, "a", 1⟩ (some (.assign 1 ⟨.identifier, "a", 1⟩ (.literal .nil))),
      .print (.var 2 ⟨.identifier, "a", 1⟩)]]

set_option maxRecDepth 20000 in
theorem compile_initializerText :
    ((Machine.start {} {}).compile initializerText).1 = .ok (initializerProgram, []) := by
  cbv

set_option maxRecDepth 20000 in
theorem interpret_initializerProgram :
    (match interpret {} 20 initializerProgram ((Machine.start {} {}).compile initializerText).2 with
      | .error (.failed e) m => some (e, m.distances[1]?)
      | _ => none) = some (.runtime 1 (.undefinedVariable "a"), some 0) := by
  cbv

theorem errors_reportQueued (s : Session) : s.reportQueued.errors = s.errors := by
  unfold reportQueued
  generalize s.machine.takeWarnings = queued
  obtain ⟨ws, m⟩ := queued
  have h : ∀ s' : Session, (ws.foldl addWarning s').errors = s'.errors := by
    induction ws with
    | nil => exact fun _ => rfl
    | cons w rest ih => exact fun s' => ih (s'.addWarning w)
  exact h _

theorem run_of_failed {host : Host} {fuel : Nat} {source : String} {s : Session}
    {program : List Stmt} {m m' : Machine} {e : Error}
    (hc : s.machine.compile source = (.ok (program, []), m))
    (hi : interpret host fuel program m = .error (.failed e) m') :
    ∃ s', s.run host fuel source = some (.runtimeError, s') ∧
      s'.machine.distances = m'.distances ∧ s'.errors = s.errors ++ [e] := by
  unfold Session.run
  simp only [hc, List.foldl_nil, hi]
  refine ⟨_, rfl, ?_, ?_⟩
  · exact (same_reportQueued { s with machine := m' }).distances
  · exact congrArg (· ++ [e]) (errors_reportQueued { s with machine := m' })

theorem run_assign_in_initializer :
    ∃ s, (Session.start {} {} {}).run {} 20 initializerText = some (.runtimeError, s) ∧
      s.machine.distances[1]? = some 0 ∧ s.errors = [.runtime 1 (.undefinedVariable "a")] := by
  have hc := compile_initializerText
  have hi := interpret_initializerProgram
  cases hm : (Machine.start {} {}).compile initializerText with
  | mk result m =>
    rw [hm] at hc hi
    subst hc
    cases hrun : interpret {} 20 initializerProgram m with
    | ok a m' => simp [hrun] at hi
    | error e m' =>
      cases e with
      | exhausted => simp [hrun] at hi
      | failed e =>
        simp only [hrun, Option.some.injEq, Prod.mk.injEq] at hi
        obtain ⟨rfl, hd⟩ := hi
        obtain ⟨s', hs, hdist, herr⟩ := run_of_failed (s := .start {} {} {}) hm hrun
        exact ⟨s', hs, hdist ▸ hd, herr⟩

end Session
end Lox
