import Lox.Proofs.Effects
import Lox.Proofs.Lexical.Splitting
import Lox.Proofs.Match.Sessions
import Lox.Proofs.Parse.Totality

/-!
# Outcomes and the errors behind them

A text is refused for faults of its characters and its grammar or else for faults of its scopes, and
for one fault at least. A program that was accepted fails with an error of another kind: where a
script that it runs is refused, the faults of the script are wrapped in one error, at whatever
depth it was run. So the outcome of a text can be read off the errors that were added for it.
-/

namespace Lox
open Scoping

/-! ## Texts that are refused -/

namespace Error

/-- The stage that an error comes from. -/
inductive Origin where
  | lexical | syntactic | scoping | runtime | script | io
  deriving Repr, DecidableEq

def origin : Error → Origin
  | lexical .. => .lexical
  | syntactic .. => .syntactic
  | scoping .. => .scoping
  | runtime .. => .runtime
  | script .. => .script
  | io .. => .io

end Error

/-- The errors that a text is refused for, stage by stage. -/
inductive Refused (source : String) : List Error → Prop
  | reading {syntactic : List Error} :
      (∀ e ∈ Item.errors (Token.scan source), e.origin = .lexical) →
      (∀ e ∈ syntactic, e.origin = .syntactic) →
      Item.errors (Token.scan source) ++ syntactic ≠ [] →
      Refused source (Item.errors (Token.scan source) ++ syntactic)
  | scoping {es : List Error} : Item.errors (Token.scan source) = [] →
      (∀ e ∈ es, e.origin = .scoping) → es ≠ [] → Refused source es

theorem Refused.ne_nil {source : String} {es : List Error} (h : Refused source es) : es ≠ [] := by
  cases h with
  | reading _ _ hne => exact hne
  | scoping _ _ hne => exact hne

theorem Error.isStatic_of_origin {e : Error}
    (h : e.origin = .lexical ∨ e.origin = .syntactic ∨ e.origin = .scoping) : e.isStatic = true := by
  cases e <;> simp_all [Error.origin, Error.isStatic]

theorem Refused.isStatic {source : String} {es : List Error} (h : Refused source es) :
    ∀ e ∈ es, e.isStatic = true := by
  intro e he
  cases h with
  | reading hl hs _ =>
    rcases List.mem_append.1 he with he | he
    · exact Error.isStatic_of_origin (.inl (hl e he))
    · exact Error.isStatic_of_origin (.inr (.inl (hs e he)))
  | scoping _ hs _ => exact Error.isStatic_of_origin (.inr (.inr (hs e he)))

theorem Part.origin_of_mem_items {before : List Char} {parts : List Part} {e : Error}
    (h : .error e ∈ Part.items before parts) : e.origin = .lexical := by
  induction parts generalizing before with
  | nil => cases h
  | cons p rest ih =>
    rcases List.mem_cons.1 h with heq | hrest
    · cases hr : p.reading with
      | token text kind =>
        rw [hr] at heq
        cases heq
      | unexpected c =>
        rw [hr] at heq
        cases heq
        rfl
      | unterminated contents =>
        rw [hr] at heq
        cases heq
        rfl
    · exact ih hrest

theorem Item.origin_of_mem_errors {source : String} {e : Error}
    (h : e ∈ Item.errors (Token.scan source)) : e.origin = .lexical := by
  obtain ⟨parts, _, -, hscan⟩ := Scan.splits_scan source
  obtain ⟨item, hitem, he⟩ := List.mem_filterMap.1 h
  cases item with
  | ok t => cases he
  | error e' =>
    cases he
    rw [hscan] at hitem
    rcases List.mem_append.1 hitem with hitem | hitem
    · exact Part.origin_of_mem_items hitem
    · cases List.mem_singleton.1 hitem

/-! A parser and an analysis that go abreast with themselves record errors of their own stage. -/

theorem Parse.abreast_origin : Parse.Abreast Matching.same fun e _ => e.origin = .syntactic where
  node_succ h := congrArg (· + 1) h
  error _ _ := rfl

theorem Scoping.abreast_origin : Scoping.Abreast Matching.same (fun e _ => e.origin = .scoping) 0 where
  line h := h.symm
  node := by
    rintro i _ i' _ rfl rfl
    exact Iff.rfl
  error _ _ := rfl

theorem Stmt.origin_of_parse {source : String} {nextId : Nat} {es : List Error}
    (h : (Stmt.parse (Item.tokens (Token.scan source)) nextId).1 = .error es) :
    ∀ e ∈ es, e.origin = .syntactic := by
  obtain ⟨halike, -⟩ := Stmt.parse_matched Parse.abreast_origin
    (Token.matchedAll_self (fun _ => rfl) (Item.tokens (Token.scan source)))
    (Item.exists_eof source) (i := nextId) (j := nextId) rfl
  rw [h] at halike
  cases halike with
  | error hes => exact forall_of_forall₂_self hes

theorem Stmt.refused_of_read {source : String} {nextId : Nat} {es : List Error}
    (h : (Stmt.read source nextId).1 = .error es) : Refused source es := by
  have hlexical : ∀ e ∈ Item.errors (Token.scan source), e.origin = .lexical :=
    fun e => Item.origin_of_mem_errors
  have hsyntactic := @Stmt.origin_of_parse source nextId
  have hne := @Stmt.parse_error_ne_nil (Item.tokens (Token.scan source)) nextId
  unfold Stmt.read at h
  dsimp only at h
  generalize Stmt.parse (Item.tokens (Token.scan source)) nextId = r at h hsyntactic hne
  obtain ⟨result, next⟩ := r
  cases result with
  | error syntactic =>
    cases h
    refine .reading hlexical (hsyntactic rfl) fun hnil => ?_
    exact hne rfl (List.append_eq_nil_iff.1 hnil).2
  | ok program =>
    dsimp only at h
    split at h
    case isTrue => cases h
    case isFalse hfaulty =>
      cases h
      have hreading : Refused source (Item.errors (Token.scan source) ++ []) :=
        .reading hlexical (List.forall_mem_nil _) (by simpa using hfaulty)
      rwa [List.append_nil] at hreading

theorem Stmt.errors_nil_of_read {source : String} {nextId : Nat} {program : List Stmt}
    (h : (Stmt.read source nextId).1 = .ok program) : Item.errors (Token.scan source) = [] := by
  unfold Stmt.read at h
  dsimp only at h
  split at h
  case h_1 => cases h
  case h_2 =>
    dsimp only at h
    split at h
    case isTrue hclean => exact List.isEmpty_iff.1 hclean
    case isFalse => cases h

theorem Stmt.origin_of_analyse {source : String} {nextId : Nat} {program : List Stmt}
    (h : (Stmt.read source nextId).1 = .ok program) (d : Distances) :
    ∀ e ∈ (Stmt.analyse program d).errors, e.origin = .scoping := by
  obtain ⟨halike, -⟩ := Stmt.read_matched Parse.abreast_found (fun _ => rfl) source
    (fun _ => Item.found_of_mem_errors) (i := nextId) (j := nextId) rfl
  rw [h] at halike
  cases halike with
  | ok hprogram =>
    have ha := hprogram.resolve Scoping.abreast_origin {}
      (.start fun i j hij => show d[j]? = d[i]? by rw [show i = j from hij])
    exact forall_of_forall₂_self ha.errors

/-- A text is refused for all the faults of its reading, or else for all those of its scopes. -/
theorem Machine.refused_of_compile {m : Machine} {source : String} {es : List Error}
    (h : (m.compile source).1 = .error es) : Refused source es := by
  unfold Machine.compile at h
  split at h
  case h_1 es' next hread =>
    cases h
    exact Stmt.refused_of_read (congrArg Prod.fst hread)
  case h_2 program next hread =>
    have hok := congrArg Prod.fst hread
    have hscoping := Stmt.origin_of_analyse hok m.distances
    unfold Machine.analyse at h
    dsimp only at h
    split at h
    case h_1 => cases h
    case h_2 e rest _ _ herrors =>
      injection herrors with herrors _
      cases h
      rw [herrors] at hscoping
      exact .scoping (Stmt.errors_nil_of_read hok) hscoping (List.cons_ne_nil _ _)

/-! ## Programs that fail -/

/-- An error that a program can fail with: one of its own, or one of a sink or a script. The errors of
a script that cannot be run are those of its text, or the one of its file. -/
inductive Error.Raised : Error → Prop
  | runtime (line : Nat) (fault : RuntimeFault) : Raised (.runtime line fault)
  | io (fault : IoFault) : Raised (.io fault)
  | unreadable (path : String) (fault : IoFault) : Raised (.script path [.io fault])
  | refused (path : String) {source : String} {es : List Error} : Refused source es →
      Raised (.script path es)

theorem Error.Raised.not_isStatic {e : Error} (h : e.Raised) : e.isStatic = false := by
  cases h <;> rfl

/-- Programs fail only with errors that can be raised. -/
def Effects.raising : Effects := ⟨fun _ _ => True, Error.Raised⟩

theorem Effects.raising_allow {host : Host} (hl : host.loader = .files) :
    Effects.raising.Allow host where
  refl _ := trivial
  trans _ _ := trivial
  inEnv _ _ := trivial
  define _ _ _ _ := trivial
  add _ _ := trivial
  setField _ _ _ _ := trivial
  newObject _ := trivial
  newRef _ := trivial
  write _ _ := trivial
  flush _ := trivial
  tick _ := trivial
  request _ _ := trivial
  compile _ _ := trivial
  queue _ := trivial
  runtime t fault := .runtime t.line fault
  refused reason := .io (.custom reason)
  unreadable path fault := .unreadable path fault
  script _ path _ _ h := .refused path (Machine.refused_of_compile h)
  loader _ _ h := by
    rw [hl] at h
    cases h

/-- Scripts run each other to any depth, and what fails in the innermost is raised as it is. -/
theorem raised_of_interpret {host : Host} (hl : host.loader = .files) {fuel : Nat}
    {program : List Stmt} {m m' : Machine} {e : Error}
    (h : interpret host fuel program m = .error (.failed e) m') : e.Raised := by
  have hbound := (runsBounded (Effects.raising_allow hl) fuel).interpret program m
  rw [h] at hbound
  exact hbound.2

/-! ## Sessions -/

/-- The outcome that goes with the errors that were added. -/
inductive Outcome.Agrees : Outcome → List Error → Prop
  | ok : Agrees .ok []
  | staticError {es : List Error} : es ≠ [] → (∀ e ∈ es, e.isStatic = true) → Agrees .staticError es
  | runtimeError {e : Error} : e.isStatic = false → Agrees .runtimeError [e]

namespace Outcome.Agrees

variable {o : Outcome} {es : List Error} (h : o.Agrees es)
include h

theorem ok_iff : o = .ok ↔ es = [] := by
  cases h with
  | ok => simp
  | staticError hne _ => simpa using hne
  | runtimeError _ => simp

theorem staticError_iff : o = .staticError ↔ es ≠ [] ∧ ∀ e ∈ es, e.isStatic = true := by
  cases h with
  | ok => simp
  | staticError hne hstatic => exact iff_of_true rfl ⟨hne, hstatic⟩
  | runtimeError he => simp [he]

theorem runtimeError_iff : o = .runtimeError ↔ ∃ e, es = [e] ∧ e.isStatic = false := by
  cases h with
  | ok => simp
  | runtimeError he => simp [he]
  | staticError _ hstatic =>
    simp only [reduceCtorEq, false_iff]
    rintro ⟨e, rfl, he⟩
    rw [hstatic e (List.mem_singleton_self e)] at he
    cases he

end Outcome.Agrees

theorem Session.run_agrees {host : Host} (hl : host.loader = .files) {fuel : Nat} {source : String}
    {s t : Session} {o : Outcome} (h : s.run host fuel source = some (o, t)) :
    ∃ es, t.errors = s.errors ++ es ∧ o.Agrees es := by
  cases runEnds_of_run h with
  | refused hc hadds =>
    have hrefused := Machine.refused_of_compile (congrArg Prod.fst hc)
    exact ⟨_, hadds.errors, .staticError hrefused.ne_nil hrefused.isStatic⟩
  | ok _ _ hadds _ => exact ⟨[], hadds.errors, .ok⟩
  | failed _ hi hadds _ =>
    exact ⟨_, hadds.errors, .runtimeError (raised_of_interpret hl hi).not_isStatic⟩

/-- A text is refused for static errors, of its characters and then of its grammar, or of its scopes
alone. A program that runs fails with no such error, however deep the script is in which it fails. And so
the outcome of a run tells which errors the run has added, and they tell its outcome. -/
theorem Session.outcome_iff_errors {host : Host} (hl : host.loader = .files) (source : String) :
    (∀ m es, (Machine.compile m source).1 = .error es →
      Refused source es ∧ ∀ e ∈ es, e.isStatic = true) ∧
    (∀ fuel program m e m', interpret host fuel program m = .error (.failed e) m' →
      e.Raised ∧ e.isStatic = false) ∧
    ∀ fuel s o t, Session.run host fuel source s = some (o, t) →
      ∃ es, t.errors = s.errors ++ es ∧
        (o.exitCode = 65 ↔ o = .staticError) ∧
        (o = .staticError ↔ es ≠ [] ∧ ∀ e ∈ es, e.isStatic = true) ∧
        (o.exitCode = 70 ↔ o = .runtimeError) ∧
        (o = .runtimeError ↔ ∃ e, es = [e] ∧ e.isStatic = false) ∧
        (o.exitCode = 0 ↔ o = .ok) ∧
        (o = .ok ↔ es = []) := by
  refine ⟨fun m es h => ?_, fun fuel program m e m' h => ?_, fun fuel s o t h => ?_⟩
  · have hrefused := Machine.refused_of_compile h
    exact ⟨hrefused, hrefused.isStatic⟩
  · have hraised := raised_of_interpret hl h
    exact ⟨hraised, hraised.not_isStatic⟩
  · obtain ⟨es, herrors, hagrees⟩ := Session.run_agrees hl h
    have hcode : ∀ o' : Outcome, o.exitCode = o'.exitCode ↔ o = o' := by
      intro o'
      cases o <;> cases o' <;> decide
    exact ⟨es, herrors, hcode .staticError, hagrees.staticError_iff, hcode .runtimeError,
      hagrees.runtimeError_iff, hcode .ok, hagrees.ok_iff⟩

/-- A script runs another, which has a character that no text may have and no end of a statement. -/
def Host.faultyInner : Host where
  loader := .files
  read path :=
    if path = "outer" then .ok "execute \"inner\";" else
    if path = "inner" then .ok "print nil @" else .error .notFound

/-- The faults of the inner script, as they are reported. -/
def Error.ofFaultyInner : Error :=
  .script "inner" [.lexical 1 (.unexpectedCharacter '@'), .syntactic 1 .atEnd (.expected .printEnd)]

set_option maxRecDepth 20000 in
theorem interpret_faultyInner :
    (match (Machine.start Host.faultyInner {}).compile "execute \"outer\";" with
      | (.ok (program, []), m) =>
        match interpret Host.faultyInner 20 program m with
        | .error (.failed e) _ => some e
        | _ => none
      | _ => none) = some Error.ofFaultyInner := by
  cbv

theorem Session.outcome_iff_errors_faultyInner :
    Host.faultyInner.loader = .files ∧
    ∃ t, (Session.start Host.faultyInner {} {}).run Host.faultyInner 20 "execute \"outer\";" =
        some (.runtimeError, t) ∧
      t.errors = [Error.ofFaultyInner] ∧ Error.ofFaultyInner.isStatic = false := by
  have hl : Host.faultyInner.loader = .files := rfl
  have hi := interpret_faultyInner
  split at hi
  case h_1 program m hm =>
    split at hi
    case h_1 e m' hfailed =>
      cases hi
      obtain ⟨t, hrun, -, herrors⟩ := run_of_failed (s := .start Host.faultyInner {} {}) hm hfailed
      obtain ⟨es, hadded, -, -, -, hiff, -⟩ := (Session.outcome_iff_errors hl _).2.2 _ _ _ _ hrun
      obtain ⟨e, rfl, he⟩ := hiff.1 rfl
      have heq : e = Error.ofFaultyInner := List.singleton_inj.1 (hadded.symm.trans herrors)
      rw [heq] at he
      exact ⟨hl, t, hrun, herrors, he⟩
    case h_2 => cases hi
  case h_2 => cases hi

end Lox
