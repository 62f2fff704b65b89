import Lox.Proofs.Identities
import Lox.Proofs.Join.Machines
import Lox.Proofs.Lexical.Lexemes
import Lox.Proofs.Restore

/-!
# Scripts and texts

A script that is executed does what its text does when it is run directly. The two take different ways:
the warnings about a text are reported before it runs, those about a script are queued, and a script
runs inside another run, in whatever scope it was asked for.

The first difference is bridged by `Lockstep`, since no program sees what is queued; the second by
`Eval.Unscoped`, since a script leaves the scope it is in before it does anything.
-/

namespace Lox
open Ending

/-! ## The text that executes a script -/

/-- Executes the script of this path and does nothing else. -/
def executeText (path : String) : String := "execute \"" ++ path ++ "\";"

/-- The keyword of that text. -/
def executeToken : Token := ⟨.keyword .executeKw, "execute", 1⟩

def executeStmt (path : String) : Stmt := .execute executeToken (.literal (.string path))

open Scan

theorem toList_executeText (path : String) : (executeText path).toList =
    'e' :: 'x' :: 'e' :: 'c' :: 'u' :: 't' :: 'e' :: ' ' :: '"' :: (path.toList ++ ['"', ';']) := by
  simp [executeText, String.toList_append]

theorem scan_executeText {path : String} (h : '"' ∉ path.toList) : ∃ text last,
    Token.scan (executeText path) = [.ok executeToken, .ok ⟨.string path, text, last⟩,
      .ok ⟨.symbol .semicolon, ";", last⟩, .ok (eofToken last)] := by
  have hword : piece 1 'e' ('x' :: 'e' :: 'c' :: 'u' :: 't' :: 'e' :: ' ' :: '"' ::
      (path.toList ++ ['"', ';'])) = found (.keyword .executeKw) "execute".toList 1 := rfl
  have hblank : piece 1 ' ' ('"' :: (path.toList ++ ['"', ';'])) = skipped [' '] 1 := rfl
  have hstring : piece 1 '"' (path.toList ++ ['"', ';']) = found (.string path)
      ('"' :: (path.toList ++ ['"'])) (1 + newlines path.toList) := by
    have hclosed := stringPiece_closed h 1 [';']
    rwa [String.ofList_toList] at hclosed
  have hsemicolon : ∀ line, piece line ';' [] = found (.symbol .semicolon) [';'] line := fun _ => rfl
  refine ⟨String.ofList ('"' :: (path.toList ++ ['"'])), 1 + newlines path.toList, ?_⟩
  unfold Token.scan
  rw [← String.length_toList, toList_executeText]
  rw [items_piece hword (' ' :: '"' :: (path.toList ++ ['"', ';'])) rfl]
  rw [show (found (Kind.keyword .executeKw) "execute".toList 1).line = 1 from rfl]
  rw [items_piece hblank ('"' :: (path.toList ++ ['"', ';'])) rfl]
  rw [show (skipped [' '] 1).line = 1 from rfl]
  rw [items_piece hstring [';'] (by simp [found])]
  rw [items_piece (hsemicolon _) [] rfl]
  rfl

theorem parse_executeText (path text : String) (last nextId : Nat) :
    Stmt.parse [executeToken, ⟨.string path, text, last⟩, ⟨.symbol .semicolon, ";", last⟩,
      eofToken last] nextId = (.ok [executeStmt path], nextId) := by
  rfl

/-- The text passes without a warning, and the machine that has read it is as before. -/
theorem compile_executeText {path : String} (h : '"' ∉ path.toList) (m : Machine) :
    m.compile (executeText path) = (.ok ([executeStmt path], []), m) := by
  obtain ⟨text, last, hscan⟩ := scan_executeText h
  have hread : Stmt.read (executeText path) m.nextNode = (.ok [executeStmt path], m.nextNode) := by
    have hparse := parse_executeText path text last m.nextNode
    unfold Stmt.read
    rw [hscan]
    exact hparse ▸ rfl
  rw [Machine.compile_eq_ok]
  exact ⟨m.nextNode, hread, rfl, List.mergeSort_nil.symm, rfl⟩

theorem Machine.compile_env (m : Machine) (env : Env) (source : String) :
    { m with env := env }.compile source =
      ((m.compile source).1, { (m.compile source).2 with env := env }) := by
  have h : m.SameRecord { m with env := env } := ⟨rfl, rfl⟩
  rw [h.compile_eq source, m.compile_snd source]

/-! ## Whatever scope a script is asked for in -/

/-- Changes the state in which a computation ended. -/
def Ending.onState {ε σ α : Type} (f : σ → σ) : EStateM.Result ε σ α → EStateM.Result ε σ α
  | .ok a s => .ok a (f s)
  | .error e s => .error e (f s)

theorem Ending.onState_onState {ε σ α : Type} (f g : σ → σ) (r : EStateM.Result ε σ α) :
    onState f (onState g r) = onState (fun s => f (g s)) r := by
  cases r <;> rfl

/-- Does the same wherever the machine is, and leaves it there. -/
def Eval.Unscoped {α : Type} (act : Eval α) : Prop :=
  ∀ m env, act { m with env := env } = onState (fun m' => { m' with env := env }) (act m)

namespace Eval.Unscoped

variable {α β : Type}

theorem pure (a : α) : Unscoped (Pure.pure a : Eval α) := fun _ _ => rfl

theorem throw (e : Stop) : Unscoped (MonadExcept.throw e : Eval α) := fun _ _ => rfl

theorem bind {p : Eval α} {f : α → Eval β} (hp : Unscoped p) (hf : ∀ a, Unscoped (f a)) :
    Unscoped (p >>= f) := by
  intro m env
  have hm := hp m env
  cases h : p m with
  | ok a m₁ =>
    rw [h] at hm
    rw [bind_ok h, bind_ok hm]
    exact hf a m₁ env
  | error e m₁ =>
    rw [h] at hm
    rw [bind_error h, bind_error hm]
    rfl

theorem inEnv (env : Env) (p : Eval α) : Unscoped (Eval.inEnv env p) := by
  intro m here
  unfold Eval.inEnv
  dsimp only
  cases p { m with env := env } <;> rfl

theorem flush : Unscoped Eval.flush := by
  intro m env
  unfold Eval.flush
  dsimp only
  split <;> rfl

theorem flushing {p : Eval α} (hp : Unscoped p) : Unscoped (Eval.flushing p) := by
  intro m env
  unfold Eval.flushing
  rw [hp m env]
  cases p m with
  | ok a m₁ => exact bind flush (fun _ => pure a) m₁ env
  | error e m₁ =>
    cases e with
    | failed e => exact bind flush (fun _ => throw (.failed e)) m₁ env
    | exhausted => rfl

theorem readScript (host : Host) (path : String) : Unscoped (Eval.readScript host path) := by
  intro m env
  unfold Eval.readScript
  cases host.read path with
  | error fault => rfl
  | ok source =>
    dsimp only
    rw [m.compile_env]
    cases m.compile source with
    | mk result m₁ => cases result <;> rfl

theorem interpret (host : Host) (n : Nat) (program : List Stmt) :
    Unscoped (Lox.interpret host n program) := by
  cases n with
  | zero => exact throw _
  | succ n => exact flushing (inEnv _ _)

theorem load {host : Host} (hl : host.loader = .files) (n : Nat) (keyword : Token) (path : String) :
    Unscoped (Lox.load host n keyword path) := by
  cases n with
  | zero => exact throw _
  | succ n =>
    rw [Lox.load, hl]
    exact bind (fun _ _ => rfl) fun _ => bind (readScript host path) fun program =>
      interpret host n program

/-- Another environment makes no difference. -/
theorem inEnv_eq {p : Eval α} (hp : Unscoped p) (env : Env) : Eval.inEnv env p = p := by
  funext m
  have hself := hp m m.env
  unfold Eval.inEnv
  rw [hp m env]
  cases h : p m with
  | ok a m₁ =>
    rw [h] at hself
    exact hself.symm
  | error e m₁ =>
    rw [h] at hself
    exact hself.symm

end Eval.Unscoped

section
variable {host : Host} (hl : host.loader = .files)
include hl

theorem load_files (n : Nat) (keyword : Token) (path : String) :
    load host (n + 1) keyword path = (do interpret host n (← Eval.fetch host path)) := by
  rw [load, hl, Eval.fetch, bind_assoc]

/-- The keyword is named only where there is no loader. -/
theorem load_keyword (n : Nat) (keyword keyword' : Token) (path : String) :
    load host n keyword path = load host n keyword' path := by
  cases n with
  | zero => rfl
  | succ n => rw [load_files hl, load_files hl]

/-- Once its path is known, a script has the same effects whatever scope it is executed in. -/
theorem execute_anywhere {n : Nat} {e : Expr} {path : String} {m m₁ : Machine}
    (h : evaluate host n e m = .ok (.string path) m₁) (keyword : Token) (env : Env) :
    execute host (n + 1) (.execute keyword e) m =
      onState (fun m' => { m' with env := m.env })
        (execute host (n + 1) (executeStmt path) { m₁ with env := env }) := by
  have henv : m₁.env = m.env := by
    have hrestores : host.LoaderRestores := fun _ hc => by rw [hl] at hc; cases hc
    have hrestored := ((runsBounded (Effects.restoring_allow hrestores) n).evaluate e).env_state m
    rwa [h] at hrestored
  cases n with
  | zero => cases h
  | succ n =>
    have hliteral : evaluate host (n + 1) (.literal (.string path)) { m₁ with env := env } =
      .ok (.string path) { m₁ with env := env } := rfl
    have hload : Eval.Unscoped (do load host (n + 1) keyword path; return Flow.normal) :=
      .bind (.load hl _ _ _) fun _ => .pure _
    rw [execute, bind_ok h, executeStmt, execute, bind_ok hliteral]
    dsimp only
    rw [load_keyword hl (n + 1) executeToken keyword, hload m₁ env, onState_onState, ← henv]
    exact hload m₁ m₁.env

/-- With its own scope out of the way, the text asks for the script, reads it and interprets it. -/
theorem interpret_executeStmt (n : Nat) (path : String) :
    interpret host (n + 4) [executeStmt path] =
      Eval.flushing (do interpret host n (← Eval.fetch host path)) := by
  have hall : executeAll host (n + 3) [executeStmt path] =
      (do load host (n + 1) executeToken path; return Flow.normal) := by
    rw [executeAll, executeStmt, execute, evaluate]
    simp only [pure_bind, Value.ofLiteral, bind_assoc]
    rfl
  have hdiscard : discard (do load host (n + 1) executeToken path; return Flow.normal) =
      load host (n + 1) executeToken path := by
    show ((do load host (n + 1) executeToken path; return Flow.normal) >>= fun _ => pure ()) = _
    simp only [bind_assoc, pure_bind, bind_pure_unit]
  rw [interpret, hall, hdiscard, Eval.Unscoped.inEnv_eq (.load hl _ _ _), load_files hl]

end

/-! ## Machines on which other warnings wait -/

/-- The functions of the host look at frames and objects only. -/
def Host.SeesHeap (host : Host) : Prop :=
  ∀ f ∈ host.functions, ∀ (m m' : Machine) (args : List Value),
    m'.frames = m.frames → m'.objects = m.objects → f.run m' args = f.run m args

/-- The machines differ only in how the warnings that wait begin, and the scripts that were asked for. -/
structure Machine.Beside (w w' : List Warning) (r r' : List String) (m m' : Machine) : Prop where
  same : m' = { m with warnings := m'.warnings, requested := m'.requested }
  warnings : ∃ new, m.warnings = w ++ new ∧ m'.warnings = w' ++ new
  requested : ∃ new, m.requested = r ++ new ∧ m'.requested = r' ++ new

namespace Machine.Beside

variable {w w' : List Warning} {r r' : List String} {m m' : Machine} (h : Beside w w' r r' m m')
include h

theorem compile (source : String) : (m'.compile source).1 = (m.compile source).1 ∧
    Beside w w' r r' (m.compile source).2 (m'.compile source).2 := by
  have hrecord : m.SameRecord m' := ⟨by rw [h.same], by rw [h.same]⟩
  have hkept := m.compile_snd source
  rw [hrecord.compile_eq source]
  refine ⟨rfl, ?_, ?_, ?_⟩
  · rw [hkept, h.same]
  · rw [hkept]
    exact h.warnings
  · rw [hkept]
    exact h.requested

theorem request (path : String) : Beside w w' r r' { m with requested := m.requested ++ [path] }
    { m' with requested := m'.requested ++ [path] } := by
  obtain ⟨new, hm, hm'⟩ := h.requested
  refine ⟨by rw [h.same], h.warnings, new ++ [path], ?_, ?_⟩
  · rw [← List.append_assoc, ← hm]
  · rw [← List.append_assoc, ← hm']

theorem queueWarnings (ws : List Warning) :
    Beside w w' r r' (m.queueWarnings ws) (m'.queueWarnings ws) := by
  obtain ⟨new, hm, hm'⟩ := h.warnings
  refine ⟨by rw [h.same]; rfl, ⟨new ++ ws, ?_, ?_⟩, h.requested⟩
  · rw [← List.append_assoc, ← hm, Machine.queueWarnings]
  · rw [← List.append_assoc, ← hm', Machine.queueWarnings]

theorem readScript (host : Host) (path : String) : EndsAlike (Beside w w' r r')
    (Eval.readScript host path m) (Eval.readScript host path m') := by
  unfold Eval.readScript
  cases host.read path with
  | error fault => exact .error _ h
  | ok source =>
    obtain ⟨hresult, hafter⟩ := h.compile source
    dsimp only
    generalize m.compile source = c at hresult hafter ⊢
    generalize m'.compile source = c' at hresult hafter ⊢
    obtain ⟨result, m₁⟩ := c
    obtain ⟨result', m₁'⟩ := c'
    cases hresult
    cases result with
    | error es => exact .error _ hafter
    | ok accepted => exact .ok _ (hafter.queueWarnings accepted.2)

end Machine.Beside

/-- Programs run in step on machines on which other warnings wait. -/
theorem Lockstep.beside {host : Host} (hl : host.loader = .files) (hf : host.SeesHeap)
    (w w' : List Warning) (r r' : List String) : Lockstep host (Machine.Beside w w' r r') where
  agrees h := by constructor <;> rw [h.same]
  frames _ h := ⟨by rw [h.same], h.warnings, h.requested⟩
  objects _ h := ⟨by rw [h.same], h.warnings, h.requested⟩
  nextRef _ h := ⟨by rw [h.same], h.warnings, h.requested⟩
  env _ h := ⟨by rw [h.same], h.warnings, h.requested⟩
  output _ h := ⟨by rw [h.same], h.warnings, h.requested⟩
  ticks _ h := ⟨by rw [h.same], h.warnings, h.requested⟩
  native h f hm args := hf f hm _ _ args (by rw [h.same]) (by rw [h.same])
  fetch path _ _ h := (h.request path).readScript host path
  loader load hc := by rw [hl] at hc; cases hc

/-! ## One flush more -/

/-- Anything may be done but to break an output that works. -/
def Effects.working : Effects where
  change m m' := m.output.Works → m'.output.Works
  error _ := True

theorem Effects.working_allow {host : Host} (hl : host.loader = .files) : working.Allow host where
  refl _ h := h
  trans h₁ h₂ h := h₂ (h₁ h)
  inEnv _ h := h
  define _ _ _ _ h := h
  add _ _ h := h
  setField _ _ _ _ h := h
  newObject _ h := h
  newRef _ h := h
  write _ s h := h.write s
  flush _ h := h.flush
  tick _ h := h
  request _ _ h := h
  compile m source h := by
    rw [m.compile_snd source]
    exact h
  queue _ h := h
  runtime _ _ := trivial
  refused _ := trivial
  unreadable _ _ := trivial
  script _ _ _ _ _ := trivial
  loader _ _ hc := by rw [hl] at hc; cases hc

theorem works_interpret {host : Host} (hl : host.loader = .files) (n : Nat) (program : List Stmt)
    {m : Machine} (h : m.output.Works) : (state (interpret host n program m)).output.Works := by
  have hbound := (runsBounded (Effects.working_allow hl) n).interpret program m
  generalize interpret host n program m = r at hbound ⊢
  cases r with
  | ok a m₁ => exact hbound h
  | error e m₁ =>
    cases e with
    | failed e => exact hbound.1 h
    | exhausted => exact hbound h

def Machine.flushed (m : Machine) : Machine := { m with output := m.output.flush.2 }

namespace Eval

variable {α : Type} {p : Eval α} {m m₁ : Machine}

theorem flush_works (h : m.output.Works) : Eval.flush m = .ok () m.flushed := by
  have hflush : m.output.flush = (none, m.output.flush.2) := Prod.ext (h.flushes _) rfl
  unfold Eval.flush
  rw [hflush]
  rfl

theorem flushing_ok {a : α} (h : p m = .ok a m₁) (hw : m₁.output.Works) :
    Eval.flushing p m = .ok a m₁.flushed := by
  unfold Eval.flushing
  rw [h]
  exact bind_ok (flush_works hw)

theorem flushing_failed {e : Error} (h : p m = .error (.failed e) m₁) (hw : m₁.output.Works) :
    Eval.flushing p m = .error (.failed e) m₁.flushed := by
  unfold Eval.flushing
  rw [h]
  exact bind_ok (flush_works hw)

theorem flushing_exhausted (h : p m = .error .exhausted m₁) :
    Eval.flushing p m = .error .exhausted m₁ := by
  unfold Eval.flushing
  rw [h]

end Eval

/-! ## Sessions -/

section
variable {host : Host} {path source : String} (hr : host.read path = .ok source) {m m₁ : Machine}
include hr

theorem fetch_accepted {program : List Stmt} {ws : List Warning}
    (hc : m.compile source = (.ok (program, ws), m₁)) : Eval.fetch host path m =
      .ok program ({ m₁ with requested := m.requested ++ [path] }.queueWarnings ws) := by
  show Eval.readScript host path { m with requested := m.requested ++ [path] } = _
  unfold Eval.readScript
  simp only [hr]
  rw [m.compile_requested, hc]

theorem fetch_refused {es : List Error} (hc : m.compile source = (.error es, m₁)) :
    Eval.fetch host path m =
      .error (.failed (.script path es)) { m₁ with requested := m.requested ++ [path] } := by
  show Eval.readScript host path { m with requested := m.requested ++ [path] } = _
  unfold Eval.readScript
  simp only [hr]
  rw [m.compile_requested, hc]

end

namespace Session

/-- The session `t` in which a text has ended that was run from `s`, as it is if the text was run as the
script of this path: the output is flushed once more, and the script was asked for first. -/
def throughScript (s : Session) (path : String) (t : Session) : Session :=
  { t with machine := { t.machine.flushed with
      requested := s.machine.requested ++ path ::
        t.machine.requested.drop s.machine.requested.length } }

theorem Adds.eq_setMachine {s t t' : Session} {es : List Error} {ws : List Warning}
    {lines : List String} (h : s.Adds t es ws lines) (h' : s.Adds t' es ws lines) :
    t' = { t with machine := t'.machine } := by
  obtain ⟨m, d, e, w⟩ := t
  obtain ⟨m', d', e', w'⟩ := t'
  obtain ⟨he, hw, hd⟩ := h
  obtain ⟨he', hw', hd'⟩ := h'
  dsimp only at he hw hd he' hw' hd'
  rw [he, hw, hd, he', hw', hd']

/-- The two ways end on the same machine. -/
theorem eq_throughScript {s t t' : Session} {es : List Error} {ws : List Warning}
    {lines : List String} {w' : List Warning} {path : String} {m m' : Machine}
    (h : s.Adds t es ws lines) (h' : s.Adds t' es ws lines)
    (hm : Machine.Beside [] w' s.machine.requested (s.machine.requested ++ [path]) m m')
    (ht : t.machine = { m with warnings := [] })
    (ht' : t'.machine = { m'.flushed with warnings := [] }) : t' = s.throughScript path t := by
  obtain ⟨paths, hr, hr'⟩ := hm.requested
  have hmachine : { m'.flushed with warnings := [] } = { { m with warnings := [] }.flushed with
      requested := s.machine.requested ++ path :: paths } := by
    rw [hm.same, hr', List.append_assoc]
    rfl
  rw [h.eq_setMachine h', throughScript, ht, ht', hmachine]
  dsimp only
  rw [hr, List.drop_left]

/-- What is queued after one run is what is reported before and queued after the other. -/
theorem warnings_beside {ws : List Warning} {r r' : List String} {m m' : Machine}
    (h : Machine.Beside [] ws r r' m m') : [] ++ m'.flushed.warnings = ws ++ m.warnings := by
  obtain ⟨new, hnew, hnew'⟩ := h.warnings
  rw [hnew, List.nil_append, List.nil_append]
  exact hnew'

section
variable {host : Host} (hl : host.loader = .files) {path source : String}
  (hq : '"' ∉ path.toList) (hr : host.read path = .ok source) {s : Session}
  (hw : s.machine.output.Works)
include hl hq hr hw

theorem run_accepted (hf : host.SeesHeap) (hs : s.machine.warnings = []) {program : List Stmt}
    {ws : List Warning} {m : Machine} (hc : s.machine.compile source = (.ok (program, ws), m))
    (fuel : Nat) : s.run host (fuel + 4) (executeText path) =
      (s.run host fuel source).map fun (o, t) => (o, s.throughScript path t) := by
  have hkept := s.machine.compile_snd source
  rw [hc] at hkept
  dsimp only at hkept
  -- the machine on which the script starts, beside the one on which the text does
  obtain ⟨m', hm'⟩ : ∃ m', m' = { m with requested := s.machine.requested ++ [path] }.queueWarnings ws :=
    ⟨_, rfl⟩
  have hstart : Machine.Beside [] ws s.machine.requested (s.machine.requested ++ [path]) m m' := by
    refine ⟨by rw [hm']; rfl, ⟨[], ?_, ?_⟩, [], ?_, ?_⟩
    · rw [hkept, hs, List.append_nil]
    · rw [hm', Machine.queueWarnings, hkept, hs, List.nil_append, List.append_nil]
    · rw [hkept, List.append_nil]
    · rw [hm', Machine.queueWarnings, List.append_nil]
  have hscript : (do interpret host fuel (← Eval.fetch host path)) s.machine =
      interpret host fuel program m' := by
    rw [hm']
    exact bind_ok (fetch_accepted hr hc)
  have hworks : (state (interpret host fuel program m')).output.Works := by
    refine works_interpret hl fuel program ?_
    rw [hm', hkept]
    exact hw
  have hend := (runsInStep (Lockstep.beside hl hf [] ws _ _) fuel).interpret program m m' hstart
  have hran := run_of_compile hc host fuel
  have hran' := run_of_compile (compile_executeText hq s.machine) host (fuel + 4)
  rw [interpret_executeStmt hl] at hran'
  generalize interpret host fuel program m = result at hran hend
  generalize interpret host fuel program m' = result' at hend hworks hscript
  generalize s.run host fuel source = ended at hran ⊢
  generalize s.run host (fuel + 4) (executeText path) = ended' at hran' ⊢
  cases hend with
  | ok _ hbeside =>
    rw [Eval.flushing_ok hscript hworks] at hran'
    cases hran with
    | ok hadds ht =>
      cases hran' with
      | ok hadds' ht' =>
        rw [warnings_beside hbeside] at hadds'
        rw [eq_throughScript hadds hadds' hbeside ht ht']
        rfl
  | error stop hbeside =>
    cases stop with
    | exhausted =>
      rw [Eval.flushing_exhausted hscript] at hran'
      cases hran
      cases hran'
      rfl
    | failed e =>
      rw [Eval.flushing_failed hscript hworks] at hran'
      cases hran with
      | failed hadds ht =>
        cases hran' with
        | failed hadds' ht' =>
          rw [warnings_beside hbeside] at hadds'
          rw [eq_throughScript hadds hadds' hbeside ht ht']
          rfl

theorem run_refused {es : List Error} {m : Machine}
    (hc : s.machine.compile source = (.error es, m)) (fuel : Nat) :
    (∃ t, s.run host fuel source = some (.staticError, t) ∧ t.errors = s.errors ++ es) ∧
      ∃ t, s.run host (fuel + 4) (executeText path) = some (.runtimeError, t) ∧
        t.errors = s.errors ++ [.script path es] := by
  constructor
  · have hadds := (Adds.setMachine s m).trans (.addErrors es _)
    refine ⟨es.foldl addError { s with machine := m }, ?_, hadds.errors⟩
    unfold Session.run
    rw [hc]
  · have hkept := s.machine.compile_snd source
    rw [hc] at hkept
    dsimp only at hkept
    have hscript : (do interpret host fuel (← Eval.fetch host path)) s.machine =
        .error (.failed (.script path es)) { m with requested := s.machine.requested ++ [path] } :=
      bind_error (fetch_refused hr hc)
    have hworks : m.output.Works := by
      rw [hkept]
      exact hw
    have hrun := Eval.flushing_failed hscript hworks
    rw [← interpret_executeStmt hl] at hrun
    obtain ⟨t, ht, -, herrors⟩ := run_of_failed (compile_executeText hq s.machine) hrun
    exact ⟨t, ht, herrors⟩

end

/-- Between two runs no warnings wait. -/
theorem warnings_run {host : Host} {fuel : Nat} {text : String} {s t : Session} {o : Outcome}
    (hs : s.machine.warnings = []) (h : s.run host fuel text = some (o, t)) :
    t.machine.warnings = [] := by
  cases runEnds_of_run h with
  | refused hc _ =>
    have hkept := s.machine.compile_snd text
    rw [hc] at hkept
    dsimp only at hkept
    rw [hkept]
    exact hs
  | ok _ _ _ ht => rw [ht]
  | failed _ _ _ ht => rw [ht]

/-- To execute a script comes to the same as to run its text: the same outcome, output, diagnostics, errors
and warnings, and the same machine, but that the output is flushed once more and the script is on the list
of those asked for. If its text does not pass, the errors that running it would report are those of the one
error that ends the run. And what an `execute` does to the machine does not depend on the scope it is in.

A session must have no warnings waiting, which no run leaves behind. -/
theorem run_executeText {host : Host} (hl : host.loader = .files) (hf : host.SeesHeap)
    {path source : String} (hq : '"' ∉ path.toList) (hr : host.read path = .ok source) {s : Session}
    (hs : s.machine.warnings = []) (hw : s.machine.output.Works) :
    (∀ accepted, (s.machine.compile source).1 = .ok accepted → ∀ fuel,
      s.run host (fuel + 4) (executeText path) =
        (s.run host fuel source).map fun (o, t) => (o, s.throughScript path t)) ∧
    (∀ es, (s.machine.compile source).1 = .error es → ∀ fuel,
      (∃ t, s.run host fuel source = some (.staticError, t) ∧ t.errors = s.errors ++ es) ∧
      ∃ t, s.run host (fuel + 4) (executeText path) = some (.runtimeError, t) ∧
        t.errors = s.errors ++ [.script path es]) ∧
    (∀ fuel text o t, s.run host fuel text = some (o, t) → t.machine.warnings = []) ∧
    ∀ n e p m m₁, evaluate host n e m = .ok (.string p) m₁ → ∀ keyword env,
      execute host (n + 1) (.execute keyword e) m =
        onState (fun m' => { m' with env := m.env })
          (execute host (n + 1) (executeStmt p) { m₁ with env := env }) := by
  refine ⟨fun accepted hc fuel => ?_, fun es hc fuel => ?_, fun _ _ _ _ h => warnings_run hs h,
    fun n e p m m₁ h keyword env => execute_anywhere hl h keyword env⟩
  · exact run_accepted hl hq hr hw hf hs (Prod.ext hc rfl) fuel
  · exact run_refused hl hq hr hw (Prod.ext hc rfl) fuel

/-- Declares a variable that it does not use, and then runs a script that does the same. -/
def idleText : String := "\x7b var a; \x7d execute \"inner\"; print nil;"

def idleScripts : Host where
  loader := .files
  read path :=
    if path = "outer" then .ok idleText else
    if path = "inner" then .ok "\x7b var b; \x7d" else .error .notFound

set_option maxRecDepth 20000 in
theorem interpret_idleText :
    (match (Machine.start idleScripts {}).compile idleText with
      | (.ok (program, warnings), m) =>
        match interpret idleScripts 12 program m with
        | .ok () m => some (warnings, m.warnings, m.output.text)
        | _ => none
      | _ => none) =
        some ([⟨1, .unusedVariable "a"⟩], [⟨1, .unusedVariable "b"⟩], "nil\n") := by
  cbv

theorem run_executeText_idleText :
    idleScripts.loader = .files ∧ idleScripts.SeesHeap ∧ '"' ∉ "outer".toList ∧
    idleScripts.read "outer" = .ok idleText ∧ (Machine.start idleScripts {}).warnings = [] ∧
    (Machine.start idleScripts {}).output.Works ∧
    ∃ t, (Session.start idleScripts {} {}).run idleScripts 16 (executeText "outer") = some (.ok, t) ∧
      t.warnings = [⟨1, .unusedVariable "a"⟩, ⟨1, .unusedVariable "b"⟩] ∧
      t.machine.output.text = "nil\n" := by
  have hf : idleScripts.SeesHeap := nofun
  have hq : '"' ∉ "outer".toList := by decide
  have hr : idleScripts.read "outer" = .ok idleText := rfl
  have hw : (Machine.start idleScripts {}).output.Works := ⟨fun _ => rfl, fun _ => rfl⟩
  refine ⟨rfl, hf, hq, hr, rfl, hw, ?_⟩
  have hi := interpret_idleText
  split at hi
  case h_1 program warnings m hc =>
    split at hi
    case h_1 m₁ hrun =>
      have hran := run_of_compile (s := .start idleScripts {} {}) hc idleScripts 12
      have hsame := (run_executeText rfl hf hq hr (s := .start idleScripts {} {}) rfl hw).1 _
        (congrArg Prod.fst hc) 12
      rw [hrun] at hran
      generalize (Session.start idleScripts {} {}).run idleScripts 12 idleText = ended at hran hsame
      cases hran with
      | ok hadds ht =>
        injection hi with hi
        injection hi with hnow hi
        injection hi with hlater htext
        rw [hnow, hlater] at hadds
        have houtput := congrArg (fun m : Machine => m.output.text) ht
        exact ⟨_, hsame, hadds.warnings, houtput.trans htext⟩
    case h_2 => cases hi
  case h_2 => cases hi

end Session
end Lox
