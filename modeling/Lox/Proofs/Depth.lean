import Lox.Proofs.Related

/-!
# How deep a run may go

The bound on the depth of a run says when to give up and nothing else: a run that ends within one bound ends in
the same way within every greater one. So it makes sense to say of a text how it ends, without a
bound.
-/

namespace Lox
open Ending

namespace Eval

variable {α β : Type}

/-- The second computation ends as the first does, unless the first stops for one of the reasons. -/
def Unless (reasons : Stop → Prop) (p q : Eval α) : Prop :=
  ∀ m, (∃ e m', reasons e ∧ p m = .error e m') ∨ q m = p m

namespace Unless

variable {reasons : Stop → Prop}

theorem refl (p : Eval α) : Unless reasons p p := fun _ => .inr rfl

theorem bind {p q : Eval α} {f g : α → Eval β} (hp : Unless reasons p q) (hf : ∀ a, Unless reasons (f a) (g a)) :
    Unless reasons (p >>= f) (q >>= g) := by
  intro m
  rcases hp m with ⟨e, m', he, hpm⟩ | hq
  · exact .inl ⟨e, m', he, bind_error hpm⟩
  · cases hpm : p m with
    | ok a m' =>
      rw [bind_ok hpm, bind_ok (hq.trans hpm)]
      exact hf a m'
    | error e m' =>
      right
      rw [bind_error hpm, bind_error (hq.trans hpm)]

theorem inEnv (env : Env) {p q : Eval α} (h : Unless reasons p q) :
    Unless reasons (Eval.inEnv env p) (Eval.inEnv env q) := by
  intro m
  unfold Eval.inEnv
  rcases h { m with env := env } with ⟨e, m', he, hp⟩ | hq
  · left
    rw [hp]
    exact ⟨e, _, he, rfl⟩
  · right
    rw [hq]

end Unless

/-- The second computation ends as the first does, unless the first gives up. -/
def Extends (p q : Eval α) : Prop := ∀ m, (∃ m', p m = .error .exhausted m') ∨ q m = p m

theorem extends_iff {p q : Eval α} : Extends p q ↔ Unless (· = .exhausted) p q := by
  simp [Extends, Unless]

namespace Extends

theorem refl (p : Eval α) : Extends p p := fun _ => .inr rfl

theorem exhausted (q : Eval α) : Extends (throw .exhausted) q := fun m => .inl ⟨m, rfl⟩

theorem trans {p q r : Eval α} (hpq : Extends p q) (hqr : Extends q r) : Extends p r := by
  intro m
  rcases hpq m with hp | hp
  · exact .inl hp
  · rcases hqr m with ⟨m', hq⟩ | hq
    · exact .inl ⟨m', hp.symm.trans hq⟩
    · exact .inr (hq.trans hp)

theorem eq_ok {p q : Eval α} (h : Extends p q) {m m' : Machine} {a : α} (hp : p m = .ok a m') :
    q m = .ok a m' := by
  rcases h m with ⟨m₁, he⟩ | he
  · rw [hp] at he
    cases he
  · rw [he, hp]

theorem bind {p q : Eval α} {f g : α → Eval β} (hp : Extends p q) (hf : ∀ a, Extends (f a) (g a)) :
    Extends (p >>= f) (q >>= g) :=
  extends_iff.2 (.bind (extends_iff.1 hp) fun a => extends_iff.1 (hf a))

theorem ite {c : Prop} [Decidable c] {p q p' q' : Eval α} (hp : Extends p p') (hq : Extends q q') :
    Extends (if c then p else q) (if c then p' else q') :=
  Relates.ite hp hq

theorem inEnv (env : Env) {p q : Eval α} (h : Extends p q) : Extends (Eval.inEnv env p) (Eval.inEnv env q) :=
  extends_iff.2 (.inEnv env (extends_iff.1 h))

theorem discard {p q : Eval α} (h : Extends p q) : Extends (Functor.discard p) (Functor.discard q) :=
  bind h fun _ => refl _

theorem flushing {p q : Eval α} (h : Extends p q) : Extends (Eval.flushing p) (Eval.flushing q) := by
  intro m
  unfold Eval.flushing
  rcases h m with ⟨m', hp⟩ | hq
  · left
    rw [hp]
    exact ⟨_, rfl⟩
  · right
    rw [hq]

end Extends
end Eval

open Eval

/-! ## Runs of two hosts -/

/-- Runs of the first host within `n` end as those of the second within `k` do, unless they stop for one of the
reasons. -/
abbrev RunsUnless (reasons : Stop → Prop) (first second : Host) (n k : Nat) : Prop :=
  RunsRelate (Unless reasons) first second n k

/-- Hosts of the same functions differ only in how they load scripts. -/
theorem Eval.Unless.relatesAll (reasons : Stop → Prop) {first second : Host}
    (hnative : callNative second = callNative first) : RelatesAll (Unless reasons) first second where
  step _ := .refl _
  bind hp hf := .bind hp hf
  native paren f args := by
    rw [hnative]
    exact .refl _
  act _ := .refl _
  inEnv env h := .inEnv env h

/-! ## One step more -/

/-- One step more changes no run that ends within `n`. -/
structure RunsExtend (host : Host) (n : Nat) : Prop
    extends RunsRelate (Unless (· = .exhausted)) host host n (n + 1) where
  interpret (program : List Stmt) : Extends (interpret host n program) (interpret host (n + 1) program)

namespace RunsExtend

variable {host : Host} {n : Nat} (ih : RunsExtend host n)
include ih

theorem next_load (keyword : Token) (path : String) :
    Unless (· = .exhausted) (Lox.load host (n + 1) keyword path) (Lox.load host (n + 2) keyword path) := by
  rw [Lox.load, Lox.load]
  cases host.loader with
  | absent => exact .refl _
  | custom load => exact .refl _
  | files =>
    exact .bind (.refl _) fun _ => .bind (.refl _) fun program => extends_iff.1 (ih.interpret program)

theorem next_interpret (program : List Stmt) :
    Extends (Lox.interpret host (n + 1) program) (Lox.interpret host (n + 2) program) :=
  .flushing (.inEnv _ (.discard (extends_iff.2 (ih.executeAll program))))

end RunsExtend

theorem runsExtend (host : Host) (n : Nat) : RunsExtend host n := by
  induction n with
  | zero =>
    refine ⟨⟨⟨?_, ?_, ?_, ?_⟩, ?_, ?_, ?_, ?_⟩, fun _ => .exhausted _⟩ <;> intros <;>
      exact extends_iff.1 (.exhausted _)
  | succ n ih => exact ⟨ih.next (Unless.relatesAll _ rfl) ih.next_load, ih.next_interpret⟩

theorem evaluate_extends (host : Host) (e : Expr) {n k : Nat} (h : n ≤ k) :
    Extends (evaluate host n e) (evaluate host k e) := by
  induction k, h using Nat.le_induction with
  | base => exact .refl _
  | succ k _ ih => exact ih.trans (extends_iff.2 ((runsExtend host k).evaluate e))

theorem execute_extends (host : Host) (s : Stmt) {n k : Nat} (h : n ≤ k) :
    Extends (execute host n s) (execute host k s) := by
  induction k, h using Nat.le_induction with
  | base => exact .refl _
  | succ k _ ih => exact ih.trans (extends_iff.2 ((runsExtend host k).execute s))

/-- A run that ends within some depth ends in the same way within any greater one. -/
theorem executeAll_extends (host : Host) (ss : List Stmt) {n k : Nat} (h : n ≤ k) :
    Extends (executeAll host n ss) (executeAll host k ss) := by
  induction k, h using Nat.le_induction with
  | base => exact .refl _
  | succ k _ ih => exact ih.trans (extends_iff.2 ((runsExtend host k).executeAll ss))

theorem interpret_extends (host : Host) (program : List Stmt) {n k : Nat} (h : n ≤ k) :
    Extends (interpret host n program) (interpret host k program) := by
  induction k, h using Nat.le_induction with
  | base => exact .refl _
  | succ k _ ih => exact ih.trans ((runsExtend host k).interpret program)

namespace Session

/-- The text ends so in the session, at whatever depth. -/
def Ends (host : Host) (source : String) (s : Session) (o : Outcome) (t : Session) : Prop :=
  ∃ fuel, s.run host fuel source = some (o, t)

/-- A text that ends within some depth ends in the same way within any greater one. -/
theorem run_of_le {host : Host} {source : String} {s t : Session} {o : Outcome} {n k : Nat}
    (h : n ≤ k) (hr : s.run host n source = some (o, t)) : s.run host k source = some (o, t) := by
  unfold Session.run at hr ⊢
  cases hc : s.machine.compile source with
  | mk result m =>
    rw [hc] at hr
    cases result with
    | error es => exact hr
    | ok accepted =>
      obtain ⟨program, warnings⟩ := accepted
      dsimp only at hr ⊢
      generalize warnings.foldl addWarning { s with machine := m } = s₁ at hr ⊢
      rcases interpret_extends host program h s₁.machine with ⟨m', he⟩ | he
      · rw [he] at hr
        cases hr
      · rw [he]
        exact hr

end Session

/-! ## One list of statements after another -/

/-- Each statement costs one step of depth, so that is what the first list leaves to the second. -/
theorem executeAll_append (host : Host) (n : Nat) (ss ts : List Stmt) :
    executeAll host (n + ss.length) (ss ++ ts) = (do
      match ← executeAll host (n + ss.length) ss with
      | .normal => executeAll host n ts
      | flow => return flow) := by
  induction ss with
  | nil =>
    cases n with
    | zero => rfl
    | succ n => rfl
  | cons s rest ih =>
    show executeAll host (n + rest.length + 1) (s :: (rest ++ ts)) =
      (executeAll host (n + rest.length + 1) (s :: rest) >>= _)
    rw [executeAll, executeAll, bind_assoc]
    congr 1
    funext flow
    cases flow with
    | normal => exact ih
    | broke => rfl
    | returned v => rfl

end Lox
