import Lox.Proofs.Depth
import Lox.Proofs.Loop.Runs
import Lox.Proofs.Loop.Scoping

/-!
# What a `for` statement means

A `for` statement opens one scope. The initializer runs there once, and then round after round the condition, the body
and the increment, all in that one scope. The parser makes another tree of it, with blocks around the loop and
around each round. Here both are runs, and twins of each other but for these blocks.
-/

namespace Lox
open Eval Scoping

/-- The parts of a `for` statement. -/
structure ForLoop where
  init : Option Stmt
  cond : Option Expr
  increment : Option Expr
  body : Stmt

/-- Runs in a new scope. -/
def Eval.inScope {α : Type} (act : Eval α) : Eval α := do
  let env ← extend (← get).env []
  inEnv env act

namespace ForLoop

/-! ## The direct semantics -/

def start (host : Host) (n : Nat) : Option Stmt → Eval Flow
  | none => return .normal
  | some first => execute host n first

/-- A condition that is absent is true. -/
def test (host : Host) (n : Nat) : Option Expr → Eval Value
  | none => return .bool true
  | some cond => evaluate host n cond

def advance (host : Host) (n : Nat) : Option Expr → Eval Flow
  | none => return .normal
  | some increment => do
    let _ ← evaluate host n increment
    return .normal

/-- The body and then the increment, which a body that does not end normally leaves out. -/
def turn (host : Host) (f : ForLoop) (n : Nat) : Eval Flow := do
  match ← execute host n f.body with
  | .normal => advance host n f.increment
  | flow => return flow

/-- Turn after turn while the condition holds. -/
def rounds (host : Host) (cond : Option Expr) (turn : Nat → Eval Flow) : Nat → Eval Flow
  | 0 => throw .exhausted
  | n + 1 => do
    if (← test host n cond).truthy then
      match ← turn n with
      | .normal => rounds host cond turn n
      | .broke => return .normal
      | .returned v => return .returned v
    else return .normal

def loop (host : Host) (f : ForLoop) (turn : Nat → Eval Flow) (n : Nat) : Eval Flow := do
  match ← start host n f.init with
  | .normal => rounds host f.cond turn n
  | flow => return flow

def run (host : Host) (f : ForLoop) (n : Nat) : Eval Flow := inScope (f.loop host (f.turn host) n)

/-- The analysis of the parts in the order in which they run, in one scope. -/
def resolve (ctx : Context) (f : ForLoop) (a : Analysis) : Analysis :=
  let a := Stmt.resolveAll ctx f.init.toList a.openScope
  let a := Expr.resolveOption ctx f.cond a
  let ctx := { ctx with inLoop := true }
  let a := f.body.resolve ctx a
  (Expr.resolveOption ctx f.increment a).closeScope

/-! ## The loop that the parser makes -/

def desugared (f : ForLoop) : Stmt := Parse.forLoop f.init f.cond f.increment f.body

/-- The condition and the body of that loop. -/
def condition (f : ForLoop) : Expr := f.cond.getD (.literal (.bool true))

def round (f : ForLoop) : Stmt :=
  match f.increment with
  | none => f.body
  | some increment => .block [f.body, .expr increment]

theorem desugared_eq (f : ForLoop) : f.desugared =
    match f.init with
    | none => .loop f.condition f.round
    | some first => .block [first, .loop f.condition f.round] := by
  unfold desugared Parse.forLoop condition round
  cases f.init <;> cases f.increment <;> rfl

/-- A turn with a scope of its own if there is an increment. -/
def scopedTurn (host : Host) (f : ForLoop) (n : Nat) : Eval Flow :=
  match f.increment with
  | none => execute host n f.body
  | some _ => inScope (f.turn host n)

/-- A loop that has a scope only if there is an initializer. -/
def scopedRun (host : Host) (f : ForLoop) (n : Nat) : Eval Flow :=
  match f.init with
  | none => f.loop host (f.scopedTurn host) n
  | some _ => inScope (f.loop host (f.scopedTurn host) n)

end ForLoop

/-! ## Depths -/

theorem Eval.Extends.inScope {α : Type} {p q : Eval α} (h : Extends p q) :
    Extends (Eval.inScope p) (Eval.inScope q) :=
  .bind (.refl _) fun _ => .bind (.refl _) fun env => .inEnv env h

/-- What follows a run that ends in some flow, if all that follows is its end. -/
theorem Eval.Extends.last {p : Eval Flow} {k : Flow → Eval Flow} (h : ∀ flow, Extends (k flow) (pure flow)) :
    Extends (p >>= k) p := by
  have hp : Extends (p >>= k) (p >>= pure) := .bind (.refl p) h
  rwa [bind_pure] at hp

theorem executeAll_nil_extends (host : Host) (n : Nat) : Extends (executeAll host n []) (pure .normal) := by
  cases n with
  | zero => exact .exhausted _
  | succ n => exact .refl _

theorem executeAll_singleton_extends (host : Host) (s : Stmt) {n k : Nat} (h : n ≤ k) :
    Extends (executeAll host n [s]) (execute host k s) := by
  cases n with
  | zero => exact .exhausted _
  | succ n =>
    have hlast : Extends (executeAll host (n + 1) [s]) (execute host n s) := by
      refine .last fun flow => ?_
      cases flow with
      | normal => exact executeAll_nil_extends host n
      | broke => exact .refl _
      | returned v => exact .refl _
    exact hlast.trans (execute_extends host s (Nat.le_of_succ_le h))

theorem execute_extends_singleton (host : Host) (s : Stmt) (n : Nat) :
    Extends (execute host n s) (executeAll host (n + 1) [s]) := by
  cases n with
  | zero => exact .exhausted _
  | succ n =>
    have hlast : Extends (execute host (n + 1) s >>= pure) (executeAll host (n + 2) [s]) := by
      refine .bind (.refl _) fun flow => ?_
      cases flow with
      | normal => exact .refl _
      | broke => exact .refl _
      | returned v => exact .refl _
    rwa [bind_pure] at hlast

namespace ForLoop

variable (host : Host) (f : ForLoop)

theorem condition_extends (n : Nat) : Extends (evaluate host n f.condition) (test host n f.cond) := by
  unfold condition
  cases f.cond with
  | none =>
    cases n with
    | zero => exact .exhausted _
    | succ n => exact .refl _
  | some e => exact .refl _

/-- The block around a round costs depth of its own. -/
theorem round_extends (n : Nat) : Extends (execute host n f.round) (f.scopedTurn host n) := by
  unfold round scopedTurn
  cases hi : f.increment with
  | none => exact .refl _
  | some e =>
    match n with
    | 0 => exact .exhausted _
    | 1 => exact .inScope (.exhausted _)
    | n + 2 =>
      refine .inScope (.bind (execute_extends host f.body (by omega)) fun flow => ?_)
      cases flow with
      | normal =>
        rw [hi]
        exact executeAll_singleton_extends host (.expr e) (k := n + 3) (by omega)
      | broke => exact .refl _
      | returned v => exact .refl _

theorem repeatWhile_extends (n : Nat) :
    Extends (repeatWhile host n f.condition f.round) (rounds host f.cond (f.scopedTurn host) n) := by
  induction n with
  | zero => exact .exhausted _
  | succ n ih =>
    refine .bind (f.condition_extends host n) fun v => .ite (.bind (f.round_extends host n) fun flow => ?_)
      (.refl _)
    cases flow with
    | normal => exact ih
    | broke => exact .refl _
    | returned v => exact .refl _

theorem loop_extends {n k : Nat} (h : n ≤ k) :
    Extends (execute host n (.loop f.condition f.round)) (rounds host f.cond (f.scopedTurn host) k) :=
  (execute_extends host _ (Nat.le_succ_of_le h)).trans (f.repeatWhile_extends host k)

/-- What the parser makes of the statement runs with scopes as said, unless it gives up. -/
theorem desugared_extends (n : Nat) : Extends (execute host n f.desugared) (f.scopedRun host n) := by
  unfold scopedRun loop
  rw [desugared_eq]
  cases hi : f.init with
  | none => exact f.loop_extends host (Nat.le_refl n)
  | some first =>
    match n with
    | 0 => exact .exhausted _
    | 1 => exact .inScope (.exhausted _)
    | n + 2 =>
      refine .inScope (.bind (execute_extends host first (by omega)) fun flow => ?_)
      cases flow with
      | normal => exact (executeAll_singleton_extends host _ (Nat.le_refl n)).trans (f.loop_extends host (by omega))
      | broke => exact .refl _
      | returned v => exact .refl _

theorem test_extends (n : Nat) : Extends (test host n f.cond) (evaluate host (n + 4) f.condition) := by
  unfold condition
  cases f.cond with
  | none => exact .refl _
  | some e => exact evaluate_extends host e (by omega)

theorem scopedTurn_extends (n : Nat) : Extends (f.scopedTurn host n) (execute host (n + 4) f.round) := by
  unfold round scopedTurn
  cases hi : f.increment with
  | none => exact execute_extends host f.body (by omega)
  | some e =>
    refine .inScope (.bind (execute_extends host f.body (by omega)) fun flow => ?_)
    cases flow with
    | normal =>
      rw [hi]
      exact execute_extends_singleton host (.expr e) (n + 1)
    | broke => exact .refl _
    | returned v => exact .refl _

theorem rounds_extends (n : Nat) :
    Extends (rounds host f.cond (f.scopedTurn host) n) (repeatWhile host (n + 4) f.condition f.round) := by
  induction n with
  | zero => exact .exhausted _
  | succ n ih =>
    refine .bind (f.test_extends host n) fun v => .ite (.bind (f.scopedTurn_extends host n) fun flow => ?_)
      (.refl _)
    cases flow with
    | normal => exact ih
    | broke => exact .refl _
    | returned v => exact .refl _

theorem extends_desugared (n : Nat) :
    Extends (f.scopedRun host n) (execute host (n + 8) f.desugared) := by
  have hloop : Extends (rounds host f.cond (f.scopedTurn host) n)
      (execute host (n + 5) (.loop f.condition f.round)) := f.rounds_extends host n
  unfold scopedRun loop
  rw [desugared_eq]
  cases hi : f.init with
  | none => exact hloop.trans (execute_extends host _ (by omega))
  | some first =>
    refine .inScope (.bind (execute_extends host first (by omega)) fun flow => ?_)
    cases flow with
    | normal => exact hloop.trans (execute_extends_singleton host _ (n + 5))
    | broke => exact .refl _
    | returned v => exact .refl _

end ForLoop

/-! ## Environments -/

namespace Effects.Bounds

variable {fx : Effects} {host : Host} (ha : fx.Allow host)
include ha

theorem inScope {α : Type} {p : Eval α} (hp : fx.Bounds p) : fx.Bounds (Eval.inScope p) :=
  bind ha (get ha) fun _ => bind ha (extend ha _ _) fun env => inEnv ha env hp

theorem turn (f : ForLoop) (n : Nat) : fx.Bounds (f.turn host n) := by
  refine bind ha ((runsBounded ha n).execute f.body) fun flow => ?_
  cases flow with
  | normal =>
    unfold ForLoop.advance
    cases f.increment with
    | none => exact pure ha _
    | some e => exact bind ha ((runsBounded ha n).evaluate e) fun _ => pure ha _
  | broke => exact pure ha _
  | returned v => exact pure ha _

theorem scopedTurn (f : ForLoop) (n : Nat) : fx.Bounds (f.scopedTurn host n) := by
  unfold ForLoop.scopedTurn
  cases f.increment with
  | none => exact (runsBounded ha n).execute f.body
  | some e => exact inScope ha (turn ha f n)

theorem rounds (cond : Option Expr) {turn : Nat → Eval Flow} (hturn : ∀ n, fx.Bounds (turn n)) (n : Nat) :
    fx.Bounds (ForLoop.rounds host cond turn n) := by
  have htest : ∀ n, fx.Bounds (ForLoop.test host n cond) := by
    intro n
    cases cond with
    | none => exact pure ha _
    | some e => exact (runsBounded ha n).evaluate e
  induction n with
  | zero => exact exhausted ha
  | succ n ih =>
    refine bind ha (htest n) fun v => ?_
    split
    · refine bind ha (hturn n) fun flow => ?_
      cases flow with
      | normal => exact ih
      | broke => exact pure ha _
      | returned v => exact pure ha _
    · exact pure ha _

theorem loop (f : ForLoop) {turn : Nat → Eval Flow} (hturn : ∀ n, fx.Bounds (turn n)) (n : Nat) :
    fx.Bounds (f.loop host turn n) := by
  have hstart : fx.Bounds (ForLoop.start host n f.init) := by
    cases f.init with
    | none => exact pure ha _
    | some s => exact (runsBounded ha n).execute s
  refine bind ha hstart fun flow => ?_
  cases flow with
  | normal => exact rounds ha f.cond hturn n
  | broke => exact pure ha _
  | returned v => exact pure ha _

theorem scopedRun (f : ForLoop) (n : Nat) : fx.Bounds (f.scopedRun host n) := by
  have hloop := loop ha f (scopedTurn ha f) n
  unfold ForLoop.scopedRun
  cases f.init with
  | none => exact hloop
  | some first => exact inScope ha hloop

end Effects.Bounds

/-! ## Twins -/

namespace Eval.Twin

variable {α : Type} {R : Record} {W : World} {σ : Shape} {A : World → α → α → Prop} {p p' : Eval α}

theorem inScope (h : ∀ W, Twin R W (.both :: σ) A p p') :
    Twin R W σ A (Eval.inScope p) (Eval.inScope p') :=
  bind get fun _ _ _ hm => bind (extend hm.env fun _ => .none) fun _ _ _ he => inEnv he (h _)

/-- A scope that only the first run opens. -/
theorem inScope_first (h : ∀ W, Twin R W (.first :: σ) A p p') (hp' : Effects.restoring.Bounds p') :
    Twin R W σ A (Eval.inScope p) p' := by
  intro m m' hm
  have hW := W.grows_onlyFirst m.frames.size
  have hm₁ := hm.setFrames hW hm.frames.addFirst
  have hr := h _ _ _ (hm₁.setEnv (.first (.inr rfl) hm₁.env))
  have henv := hp'.env_state m'
  show TwinEnds R W σ A (Eval.inEnv (m.frames.size :: m.env) p { m with frames := m.frames.add [] }) (p' m')
  unfold Eval.inEnv
  dsimp only at hr ⊢
  generalize p { m with frames := m.frames.add [], env := m.frames.size :: m.env } = r at hr ⊢
  generalize p' m' = r' at hr henv ⊢
  cases hr with
  | ok hW₁ ha hm₂ => exact .ok (hW.trans hW₁) ha (hm₂.setEnv (henv ▸ hm.env.mono (hW.trans hW₁)))
  | failed e hW₁ hm₂ => exact .failed e (hW.trans hW₁) (hm₂.setEnv (henv ▸ hm.env.mono (hW.trans hW₁)))
  | exhausted => exact .exhausted

/-- A scope that only the second run opens. -/
theorem inScope_second (h : ∀ W, Twin R W (.second :: σ) A p p') (hp : Effects.restoring.Bounds p) :
    Twin R W σ A p (Eval.inScope p') := by
  intro m m' hm
  have hW := W.grows_onlySecond m'.frames.size
  have hm₁ := hm.setFrames hW hm.frames.addSecond
  have hr := h _ _ _ (hm₁.setEnv (.second (.inr rfl) hm₁.env))
  have henv := hp.env_state m
  show TwinEnds R W σ A (p m) (Eval.inEnv (m'.frames.size :: m'.env) p' { m' with frames := m'.frames.add [] })
  unfold Eval.inEnv
  dsimp only at hr ⊢
  generalize p' { m' with frames := m'.frames.add [], env := m'.frames.size :: m'.env } = r' at hr ⊢
  generalize p m = r at hr henv ⊢
  cases hr with
  | ok hW₁ ha hm₂ => exact .ok (hW.trans hW₁) ha (hm₂.setEnv (henv ▸ hm.env.mono (hW.trans hW₁)))
  | failed e hW₁ hm₂ => exact .failed e (hW.trans hW₁) (hm₂.setEnv (henv ▸ hm.env.mono (hW.trans hW₁)))
  | exhausted => exact .exhausted

end Eval.Twin

namespace ForLoop

/-- Where the condition of the loop stands: without an initializer, only the statement itself has a scope. -/
def outer (f : ForLoop) : Shape :=
  match f.init with
  | none => [.second]
  | some _ => [.both]

/-- Where the body stands: with an increment, only the loop that the parser makes has a scope for it. -/
def inner (f : ForLoop) : Shape :=
  match f.increment with
  | none => f.outer
  | some _ => .first :: f.outer

/-- The parts of the loop are twins of those of the statement. -/
structure Twin (R : Record) (f g : ForLoop) : Prop where
  init : Option.Rel (Stmt.Twin R f.outer) f.init g.init
  cond : Option.Rel (Expr.Twin R f.outer) f.cond g.cond
  increment : Option.Rel (Expr.Twin R f.inner) f.increment g.increment
  body : f.body.Twin R f.inner g.body

namespace Twin

variable {host : Host} {R : Record} {f g : ForLoop} (h : f.Twin R g) (hb : host.Impartial)
include h hb

theorem test (n : Nat) (W : World) :
    Eval.Twin R W f.outer (Value.Twin R) (ForLoop.test host n f.cond) (ForLoop.test host n g.cond) := by
  have hc := h.cond
  generalize f.cond = c at hc ⊢
  generalize g.cond = c' at hc ⊢
  cases hc with
  | none => exact .pure (.bool true)
  | some he => exact (runsTwin hb n).evaluate he

theorem turn (n : Nat) (W : World) :
    Eval.Twin R W f.inner (Flow.Twin R) (f.turn host n) (g.turn host n) := by
  refine .bind ((runsTwin hb n).execute h.body) fun _ flow flow' hflow => ?_
  cases hflow with
  | normal =>
    have hi := h.increment
    generalize f.increment = i at hi ⊢
    generalize g.increment = i' at hi ⊢
    cases hi with
    | none => exact .pure .normal
    | some he => exact .bind ((runsTwin hb n).evaluate he) fun _ _ _ _ => .pure .normal
  | broke => exact .pure .broke
  | returned hv => exact .pure (.returned hv)

theorem scopedTurn (n : Nat) (W : World) :
    Eval.Twin R W f.outer (Flow.Twin R) (f.scopedTurn host n) (g.turn host n) := by
  have ht := h.turn hb n
  unfold ForLoop.inner at ht
  unfold ForLoop.scopedTurn
  cases hi : f.increment with
  | none =>
    rw [hi] at ht
    have hturn : f.turn host n = execute host n f.body := by
      unfold ForLoop.turn
      rw [hi]
      refine Eq.trans ?_ (bind_pure _)
      congr 1
      funext flow
      cases flow <;> rfl
    rw [← hturn]
    exact ht W
  | some e =>
    rw [hi] at ht
    exact .inScope_first ht (.turn (Effects.restoring_allow hb.restores) g n)

theorem rounds (n : Nat) (W : World) : Eval.Twin R W f.outer (Flow.Twin R)
    (ForLoop.rounds host f.cond (f.scopedTurn host) n) (ForLoop.rounds host g.cond (g.turn host) n) := by
  induction n generalizing W with
  | zero => exact .exhausted
  | succ n ih =>
    refine .bind (h.test hb n W) fun _ v v' hv => ?_
    rw [hv.truthy]
    refine .ite (.bind (h.scopedTurn hb n _) fun _ flow flow' hflow => ?_) (.pure .normal)
    cases hflow with
    | normal => exact ih _
    | broke => exact .pure .normal
    | returned hv => exact .pure (.returned hv)

theorem loop (n : Nat) (W : World) : Eval.Twin R W f.outer (Flow.Twin R)
    (f.loop host (f.scopedTurn host) n) (g.loop host (g.turn host) n) := by
  have hstart : Eval.Twin R W f.outer (Flow.Twin R) (start host n f.init) (start host n g.init) := by
    have hi := h.init
    generalize f.init = i at hi ⊢
    generalize g.init = i' at hi ⊢
    cases hi with
    | none => exact .pure .normal
    | some hs => exact (runsTwin hb n).execute hs
  refine .bind hstart fun _ flow flow' hflow => ?_
  cases hflow with
  | normal => exact h.rounds hb n _
  | broke => exact .pure .broke
  | returned hv => exact .pure (.returned hv)

/-- The two runs are twins, the one with scopes as the parser puts them and the other with one scope. -/
theorem run (n : Nat) (W : World) :
    Eval.Twin R W [] (Flow.Twin R) (f.scopedRun host n) (g.run host n) := by
  have hl := h.loop hb n
  have ha := Effects.restoring_allow hb.restores
  unfold ForLoop.outer at hl
  unfold ForLoop.scopedRun ForLoop.run
  cases hi : f.init with
  | none =>
    rw [hi] at hl
    exact .inScope_second hl (.loop ha f (.scopedTurn ha f) n)
  | some first =>
    rw [hi] at hl
    exact .inScope hl

end Twin
end ForLoop

end Lox
