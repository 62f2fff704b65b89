import Lox.Proofs.Parse.Soundness

/-!
# The depth bound of the parser is never reached

A rule is called at some depth `n` with some number of tokens left. Reading a token pays for 32
nested calls, and between two tokens no chain of rules is that long: every rule has a cost below
32, and a call made before a token has been read has a lower cost than its caller. So a rule that
starts with `32 * tokens + cost ≤ n` comes to an end of its own, and `Parse.depth` leaves room for
a whole program. Since a declaration recovers from its faults, a program is then read to its last
token, and a reading that fails has recorded at least one fault.
-/

namespace Lox
namespace Parse
open Ending

variable {α β : Type} {r k j : Nat}

/-- The ending of a rule that was not cut off: a success has read `k` tokens or more. -/
def Settled (s : State) (k : Nat) : EStateM.Result Halt State α → Prop
  | .ok _ s' => s'.rest.length + k ≤ s.rest.length ∧ s'.eof = s.eof
  | .error (.reject _) _ => True
  | .error .exhausted _ => False

theorem Settled.loose {s : State} {res : EStateM.Result Halt State α} (h : Settled s k res) :
    Settled s 0 res := by
  cases res with
  | ok a s' => exact ⟨Nat.le_trans (Nat.le_add_right _ k) h.1, h.2⟩
  | error e s' =>
    cases e with
    | reject e => trivial
    | exhausted => exact h

/-- What two steps read adds up. -/
theorem Settled.bind {p : Parse α} {f : α → Parse β} {s : State} (hp : Settled s k (p s))
    (hf : ∀ a s₁, s₁.rest.length + k ≤ s.rest.length → s₁.eof = s.eof → Settled s₁ j (f a s₁)) :
    Settled s (k + j) ((p >>= f) s) := by
  cases hs : p s with
  | error e s₁ =>
    rw [hs] at hp
    rw [bind_error hs]
    cases e with
    | reject e => trivial
    | exhausted => exact hp
  | ok a s₁ =>
    rw [hs] at hp
    rw [bind_ok hs]
    obtain ⟨hlen, heof⟩ := hp
    have h₁ := hf a s₁ hlen heof
    cases hs₁ : f a s₁ with
    | ok b s₂ =>
      rw [hs₁] at h₁
      obtain ⟨hlen₁, heof₁⟩ := h₁
      exact ⟨by omega, heof₁.trans heof⟩
    | error e s₂ =>
      rw [hs₁] at h₁
      cases e with
      | reject e => trivial
      | exhausted => exact h₁

/-- With at most `r` tokens left, `p` ends by itself, and reads at least `k` tokens if it succeeds. -/
def Settles (r k : Nat) (p : Parse α) : Prop :=
  ∀ s, s.Ends → s.rest.length ≤ r → Settled s k (p s)

namespace Settles

theorem loose {p : Parse α} (h : Settles r k p) : Settles r 0 p := fun s he hr => (h s he hr).loose

/-- What `p` has read is no longer there for what follows. -/
theorem bind {p : Parse α} {f : α → Parse β} (hp : Settles r k p)
    (hf : k ≤ r → ∀ a, Settles (r - k) 0 (f a)) : Settles r k (p >>= f) := by
  intro s he hr
  refine Settled.bind (j := 0) (hp s he hr) fun a s₁ hlen heof => ?_
  exact hf (by omega) a s₁ (by rwa [State.Ends, heof]) (by omega)

/-- After a step that need not read anything there may be as many tokens as before. -/
theorem before {p : Parse α} {f : α → Parse β} (hp : Settles r 0 p)
    (hf : ∀ a, Settles r k (f a)) : Settles r k (p >>= f) := by
  intro s he hr
  have h := (hp s he hr).bind fun a s₁ hlen heof =>
    hf a s₁ (by rwa [State.Ends, heof]) (by omega)
  rwa [Nat.zero_add] at h

theorem map {p : Parse α} (f : α → β) (hp : Settles r k p) : Settles r k (f <$> p) := by
  intro s he hr
  have h := hp s he hr
  show Settled s k (EStateM.map f p s)
  cases hs : p s with
  | ok a s' =>
    rw [hs] at h
    simp only [EStateM.map, hs]
    exact h
  | error e s' =>
    rw [hs] at h
    simp only [EStateM.map, hs]
    cases e with
    | reject e => trivial
    | exhausted => exact h

/-- A step that succeeds without touching the tokens. -/
theorem of_ok {p : Parse α} (h : ∀ s, ∃ a s', p s = .ok a s' ∧ s'.rest = s.rest ∧ s'.eof = s.eof) :
    Settles r 0 p := by
  intro s _ _
  obtain ⟨a, s', hp, hrest, heof⟩ := h s
  rw [hp]
  exact ⟨by rw [hrest, Nat.add_zero], heof⟩

theorem pure (a : α) : Settles r 0 (Pure.pure a : Parse α) := of_ok fun s => ⟨a, s, rfl, rfl, rfl⟩

theorem peek : Settles r 0 peek := of_ok fun s => ⟨_, s, rfl, rfl, rfl⟩

theorem atEnd : Settles r 0 atEnd := of_ok fun s => ⟨_, s, rfl, rfl, rfl⟩

theorem sees (kind : Kind) : Settles r 0 (sees kind) := by
  refine of_ok fun s => ?_
  cases s with
  | mk rest => cases rest <;> exact ⟨_, _, rfl, rfl, rfl⟩

theorem report (t : Token) (fault : SyntaxFault) : Settles r 0 (report t fault) :=
  of_ok fun _ => ⟨(), _, rfl, rfl, rfl⟩

theorem freshId : Settles r 0 freshId := of_ok fun _ => ⟨_, _, rfl, rfl, rfl⟩

theorem reject (fault : SyntaxFault) : Settles r k (reject fault : Parse α) := fun _ _ _ => trivial

theorem ite {c : Prop} [Decidable c] {p q : Parse α} (hp : Settles r k p) (hq : Settles r k q) :
    Settles r k (if c then p else q) := by
  split
  · exact hp
  · exact hq

/-- A token that is read counts; where none is, all of them are still there. -/
theorem readIf_bind {p : Kind → Bool} {f : Option Token → Parse α} (hnone : Settles r k (f none))
    (hsome : 1 ≤ r → ∀ t, Settles (r - 1) (k - 1) (f (some t))) :
    Settles r k (readIf p >>= f) := by
  intro s he hr
  cases hrest : s.rest with
  | nil =>
    have hread : readIf p s = .ok none s := by simp [readIf, hrest]
    rw [bind_ok hread]
    exact hnone s he hr
  | cons t rest =>
    rw [hrest, List.length_cons] at hr
    by_cases ht : p t.kind = true
    · have hread : readIf p s = .ok (some t) { s with rest := rest } := by simp [readIf, hrest, ht]
      rw [bind_ok hread]
      have h := hsome (by omega) t { s with rest := rest } he (by show rest.length ≤ _; omega)
      cases hs : f (some t) { s with rest := rest } with
      | ok a s' =>
        rw [hs] at h
        obtain ⟨hlen, heof⟩ := h
        exact ⟨by rw [hrest, List.length_cons]; simp only at hlen; omega, heof⟩
      | error e s' =>
        rw [hs] at h
        cases e with
        | reject e => trivial
        | exhausted => exact h
    · have hread : readIf p s = .ok none s := by simp [readIf, hrest, ht]
      rw [bind_ok hread]
      exact hnone s he (by rw [hrest]; exact hr)

theorem expect (kind : Kind) (what : Expected) : Settles r 1 (expect kind what) :=
  readIf_bind (reject _) fun _ t => pure t

theorem semicolon (what : Expected) : Settles r 1 (semicolon what) := map _ (expect _ what)

theorem superReference (keyword : Token) : Settles r 0 (superReference keyword) :=
  before (expect _ _).loose fun _ => before (expect _ _).loose fun _ => before freshId fun _ => pure _

theorem assignTo (target : Expr) (equals : Token) (value : Expr) :
    Settles r 0 (assignTo target equals value) := by
  unfold Parse.assignTo
  split
  · exact before freshId fun _ => pure _
  · exact pure _
  · exact before (report _ _) fun _ => pure _

end Settles

/-- What `Settles` says, of the states that satisfy `c`. -/
def SettlesIf (c : State → Prop) (r k : Nat) (p : Parse α) : Prop :=
  ∀ s, c s → s.Ends → s.rest.length ≤ r → Settled s k (p s)

theorem SettlesIf.of_settles {c : State → Prop} {p : Parse α} (h : Settles r k p) :
    SettlesIf c r k p :=
  fun s _ he hr => h s he hr

theorem SettlesIf.loose {c : State → Prop} {p : Parse α} (h : SettlesIf c r k p) :
    SettlesIf c r 0 p :=
  fun s hc he hr => (h s hc he hr).loose

/-- `t` is the token that is looked at. -/
def State.LooksAt (t : Token) (s : State) : Prop := s.rest.headD s.eof = t

/-- There are tokens left. -/
def State.Goes (s : State) : Prop := s.rest ≠ []

theorem Settles.peek_bind {f : Token → Parse α} (hf : ∀ t, SettlesIf (State.LooksAt t) r k (f t)) :
    Settles r k (Parse.peek >>= f) := by
  intro s he hr
  rw [bind_ok (show Parse.peek s = .ok (s.rest.headD s.eof) s from rfl)]
  exact hf _ s rfl he hr

theorem Settles.atEnd_bind {f : Bool → Parse α} (hend : Settles r k (f true))
    (hgoes : SettlesIf State.Goes r k (f false)) : Settles r k (Parse.atEnd >>= f) := by
  intro s he hr
  rw [bind_ok (show Parse.atEnd s = .ok s.rest.isEmpty s from rfl)]
  cases hrest : s.rest with
  | nil => exact hend s he hr
  | cons t rest => exact hgoes s (by rw [State.Goes, hrest]; exact List.cons_ne_nil _ _) he hr

/-- Going past a token that was looked at and is not the end. -/
theorem SettlesIf.skip_bind {t : Token} {f : Unit → Parse α} (hkind : t.kind ≠ .eof)
    (hf : 1 ≤ r → Settles (r - 1) 0 (f ())) : SettlesIf (State.LooksAt t) r 1 (skip >>= f) := by
  intro s ht he hr
  cases hrest : s.rest with
  | nil =>
    rw [State.LooksAt, hrest] at ht
    subst ht
    exact absurd he hkind
  | cons u rest =>
    rw [hrest, List.length_cons] at hr
    have hskip : Settled s 1 (skip s) := ⟨by simp [hrest], rfl⟩
    refine Settled.bind (j := 0) hskip fun _ s₁ hlen heof => ?_
    rw [hrest, List.length_cons] at hlen
    exact hf (by omega) s₁ (by rwa [State.Ends, heof]) (by omega)

theorem SettlesIf.bind {c : State → Prop} {p : Parse α} {f : α → Parse β} (hp : SettlesIf c r k p)
    (hf : k ≤ r → ∀ a, Settles (r - k) 0 (f a)) : SettlesIf c r k (p >>= f) := by
  intro s hc he hr
  refine Settled.bind (j := 0) (hp s hc he hr) fun a s₁ hlen heof => ?_
  exact hf (by omega) a s₁ (by rwa [State.Ends, heof]) (by omega)

theorem length_skipFault {ts : List Token} (h : ts ≠ []) :
    (skipFault ts).length + 1 ≤ ts.length := by
  cases ts with
  | nil => exact absurd rfl h
  | cons t rest => exact Nat.succ_le_succ (Grows.resume_suffix t rest).length_le

/-- Recovery goes past the token at fault, so it too reads a token where there is one. -/
theorem SettlesIf.recovering {p : Parse α} (hg : Grows p) (hp : Settles r 1 p) :
    SettlesIf State.Goes r 1 (recovering p) := by
  intro s hgoes he hr
  have h := hp s he hr
  have hlater := hg s
  rw [recovering_apply]
  cases hs : p s with
  | ok a s' =>
    rw [hs] at h
    exact h
  | error e s' =>
    rw [hs] at h hlater
    cases e with
    | exhausted => exact h
    | reject e =>
      refine ⟨?_, hlater.eof⟩
      have hle := hlater.rest.length_le
      have hpos := List.length_pos_iff.2 hgoes
      by_cases hrest : s'.rest = []
      · simp only [state_error] at hle
        simp only [hrest, skipFault, List.length_nil]
        omega
      · exact Nat.le_trans (length_skipFault hrest) hle

/-! ## Expressions -/

/-- What an operand of the level may cost: each level is two calls above the next. -/
def Level.cost : Level → Nat
  | or => 14
  | and => 12
  | equality => 10
  | comparison => 8
  | term => 6
  | factor => 4

theorem Level.cost_bounds (level : Level) : 0 < level.cost ∧ level.cost < 15 := by
  cases level <;> decide

/-- All rules for expressions, at one depth. -/
structure ExpressionsSettle (n : Nat) : Prop where
  expression (r : Nat) (h : 32 * r + 16 ≤ n) : Settles r 1 (expression n)
  operation (r : Nat) (level : Level) (h : 32 * r + (level.cost + 1) ≤ n) :
    Settles r 1 (operation n level)
  operand (r : Nat) (level : Level) (h : 32 * r + level.cost ≤ n) : Settles r 1 (operand n level)
  operationRest (r : Nat) (level : Level) (left : Expr) (h : 32 * r + 1 ≤ n) :
    Settles r 0 (operationRest n level left)
  unary (r : Nat) (h : 32 * r + 3 ≤ n) : Settles r 1 (unary n)
  suffixed (r : Nat) (h : 32 * r + 2 ≤ n) : Settles r 1 (suffixed n)
  suffixes (r : Nat) (e : Expr) (h : 32 * r + 1 ≤ n) : Settles r 0 (suffixes n e)
  arguments (r : Nat) (count : Nat) (h : 32 * r + 17 ≤ n) : Settles r 1 (arguments n count)
  primary (r : Nat) (h : 32 * r + 1 ≤ n) : Settles r 1 (primary n)

namespace ExpressionsSettle

variable {n : Nat}

theorem next_expression (ih : ExpressionsSettle n) (h : 32 * r + 16 ≤ n + 1) :
    Settles r 1 (Parse.expression (n + 1)) := by
  refine .bind (ih.operation r _ (by simp only [Level.cost]; omega)) fun hr target => ?_
  refine .readIf_bind (.pure _) fun hr' equals => ?_
  exact .before (ih.expression _ (by omega)).loose fun value => .assignTo target equals value

theorem next_operand (ih : ExpressionsSettle n) (level : Level) (h : 32 * r + level.cost ≤ n + 1) :
    Settles r 1 (Parse.operand (n + 1) level) := by
  cases level
  case factor => exact ih.unary r (by simp only [Level.cost] at h; omega)
  all_goals exact ih.operation r _ (by simp only [Level.cost] at h ⊢; omega)

theorem next_operationRest (ih : ExpressionsSettle n) (level : Level) (left : Expr)
    (h : 32 * r + 1 ≤ n + 1) : Settles r 0 (Parse.operationRest (n + 1) level left) := by
  refine .readIf_bind (.pure _) fun hr op => ?_
  have hcost := level.cost_bounds
  exact .before (ih.operand _ level (by omega)).loose fun right =>
    ih.operationRest _ level _ (by omega)

theorem next_unary (ih : ExpressionsSettle n) (h : 32 * r + 3 ≤ n + 1) :
    Settles r 1 (Parse.unary (n + 1)) := by
  refine .readIf_bind (ih.suffixed r (by omega)) fun hr op => ?_
  exact .before (ih.unary _ (by omega)).loose fun _ => .pure _

theorem next_suffixes (ih : ExpressionsSettle n) (e : Expr) (h : 32 * r + 1 ≤ n + 1) :
    Settles r 0 (Parse.suffixes (n + 1) e) := by
  refine .readIf_bind (.readIf_bind (.pure _) fun hr dot => ?_) fun hr paren => ?_
  · exact .before (Settles.expect _ _).loose fun name => ih.suffixes _ _ (by omega)
  · refine .before (.sees _) fun b => .ite (.before (.pure _) fun args => ?_)
      (.before (ih.arguments _ 0 (by omega)).loose fun args => ?_)
    all_goals exact .before (Settles.expect _ _).loose fun paren => ih.suffixes _ _ (by omega)

/-- What `arguments` does once it has counted. -/
theorem arguments_tail (ih : ExpressionsSettle n) (count : Nat) (h : 32 * r + 17 ≤ n + 1) :
    Settles r 1 (do
      let first ← Parse.expression n
      match ← accept (.symbol .comma) with
      | some _ => return first :: (← Parse.arguments n (count + 1))
      | none => return [first]) := by
  refine .bind (ih.expression r (by omega)) fun hr first => .readIf_bind (.pure _) fun hr' comma => ?_
  exact .before (ih.arguments _ _ (by omega)).loose fun _ => .pure _

theorem next_arguments (ih : ExpressionsSettle n) (count : Nat) (h : 32 * r + 17 ≤ n + 1) :
    Settles r 1 (Parse.arguments (n + 1) count) :=
  .ite (.before .peek fun _ => .before (.report _ _) fun _ => ih.arguments_tail count h)
    (ih.arguments_tail count h)

theorem next_primary (ih : ExpressionsSettle n) (h : 32 * r + 1 ≤ n + 1) :
    Settles r 1 (Parse.primary (n + 1)) := by
  refine .peek_bind fun t => ?_
  split
  iterate 5
    next hk => exact .skip_bind (by simp [hk]) fun _ => .pure _
  · next hk => exact .skip_bind (by simp [hk]) fun _ => .superReference _
  iterate 2
    next hk => exact .skip_bind (by simp [hk]) fun _ => .before .freshId fun _ => .pure _
  · next hk =>
    refine .skip_bind (by simp [hk]) fun hr => ?_
    exact .before (ih.expression _ (by omega)).loose fun _ =>
      .before (Settles.expect _ _).loose fun _ => .pure _
  · exact SettlesIf.of_settles (.reject _)

end ExpressionsSettle

theorem expressionsSettle (n : Nat) : ExpressionsSettle n := by
  induction n with
  | zero =>
    constructor
    case operand =>
      intro r level h
      have hcost := level.cost_bounds
      omega
    all_goals intros; omega
  | succ n ih =>
    exact
      { expression := fun r h => ih.next_expression h
        operation := fun r level h => .bind (ih.operand r level (by omega)) fun hr left =>
          ih.operationRest _ level left (by omega)
        operand := fun r level h => ih.next_operand level h
        operationRest := fun r level left h => ih.next_operationRest level left h
        unary := fun r h => ih.next_unary h
        suffixed := fun r h => .bind (ih.primary r (by omega)) fun hr e => ih.suffixes _ e (by omega)
        suffixes := fun r e h => ih.next_suffixes e h
        arguments := fun r count h => ih.next_arguments count h
        primary := fun r h => ih.next_primary h }

theorem Settles.expression {n : Nat} (h : 32 * r + 16 ≤ n) : Settles r 1 (expression n) :=
  (expressionsSettle n).expression r h

/-! ## Statements -/

namespace Settles

variable {n : Nat}

theorem expressionUnless (kind : Kind) (h : 32 * r + 16 ≤ n) :
    Settles r 0 (expressionUnless n kind) :=
  .before (.sees kind) fun _ => .ite (.pure _) (.before (expression h).loose fun _ => .pure _)

theorem expressionStatement (h : 32 * r + 16 ≤ n) : Settles r 1 (expressionStatement n) :=
  .bind (expression h) fun _ _ => .before (semicolon _).loose fun _ => .pure _

theorem varDeclaration (h : 32 * r + 16 ≤ n) : Settles r 1 (varDeclaration n) := by
  refine .bind (expect _ _) fun hr name => .readIf_bind ?_ fun hr' equals => ?_
  · exact .before (.pure _) fun _ => .before (semicolon _).loose fun _ => .pure _
  · have hvalue : Settles (r - 1 - 1) 0 (Parse.expression n) := (expression (by omega)).loose
    exact .before (.map _ hvalue) fun _ => .before (semicolon _).loose fun _ => .pure _

/-- What `parameters` does once it has counted. -/
theorem parameters_tail (count : Nat)
    (ih : 2 ≤ r → Settles (r - 2) 1 (Parse.parameters n (count + 1))) :
    Settles r 1 (do
      let first ← Parse.expect .identifier .parameterName
      match ← Parse.accept (.symbol .comma) with
      | some _ => return first :: (← Parse.parameters n (count + 1))
      | none => return [first]) := by
  refine .bind (expect _ _) fun hr first => .readIf_bind (.pure _) fun hr' comma => ?_
  exact .before (ih (by omega)).loose fun _ => .pure _

theorem parameters (count : Nat) (h : 32 * r + 1 ≤ n) : Settles r 1 (parameters n count) := by
  induction n generalizing r count with
  | zero => omega
  | succ n ih =>
    have htail := parameters_tail (n := n) (r := r) count fun hr => ih _ (by omega)
    exact .ite (.before .peek fun t => .before (.report _ _) fun _ => htail) htail

end Settles

/-- All rules for statements, at one depth. -/
structure StatementsSettle (n : Nat) : Prop where
  declaration (r : Nat) (h : 32 * r + 18 ≤ n) : SettlesIf State.Goes r 1 (declaration n)
  classDeclaration (r : Nat) (h : 32 * r + 1 ≤ n) : Settles r 1 (classDeclaration n)
  methods (r : Nat) (h : 32 * r + 2 ≤ n) : Settles r 0 (methods n)
  routine (r : Nat) (kind : RoutineKind) (h : 32 * r + 1 ≤ n) : Settles r 1 (routine n kind)
  block (r : Nat) (h : 32 * r + 19 ≤ n) : Settles r 1 (block n)
  statement (r : Nat) (h : 32 * r + 17 ≤ n) : Settles r 1 (statement n)
  forStatement (r : Nat) (h : 32 * r + 1 ≤ n) : Settles r 1 (forStatement n)
  ifStatement (r : Nat) (h : 32 * r + 1 ≤ n) : Settles r 1 (ifStatement n)

namespace StatementsSettle

variable {n : Nat}

/-- A declaration before recovery. -/
theorem declaration_body (ih : StatementsSettle n) (h : 32 * r + 18 ≤ n + 1) : Settles r 1 (do
    match ← accept (.keyword .classKw) with
    | some _ => Parse.classDeclaration n
    | none =>
      match ← accept (.keyword .funKw) with
      | some _ => return .function (← Parse.routine n .function)
      | none =>
        match ← accept (.keyword .varKw) with
        | some _ => Parse.varDeclaration n
        | none => Parse.statement n) := by
  refine .readIf_bind (.readIf_bind (.readIf_bind ?_ fun hr kw => ?_) fun hr kw => ?_)
    fun hr kw => ?_
  · exact ih.statement r (by omega)
  · exact (Settles.varDeclaration (by omega)).loose
  · exact .before (ih.routine _ _ (by omega)).loose fun _ => .pure _
  · exact (ih.classDeclaration _ (by omega)).loose

/-- The braces of a class and the methods between them. -/
theorem class_body (ih : StatementsSettle n) {name : Token} {superclass : Option Expr}
    (h : 32 * r + 2 ≤ n) : Settles r 0 (do
      let _ ← Parse.expect (.symbol .leftBrace) .classBody
      let methods ← Parse.methods n
      let _ ← Parse.expect (.symbol .rightBrace) .classEnd
      return Stmt.classDecl name superclass methods) :=
  .before (Settles.expect _ _).loose fun _ => .before (ih.methods r h) fun _ =>
    .before (Settles.expect _ _).loose fun _ => .pure _

theorem next_classDeclaration (ih : StatementsSettle n) (h : 32 * r + 1 ≤ n + 1) :
    Settles r 1 (Parse.classDeclaration (n + 1)) := by
  refine .bind (.expect _ _) fun hr name => .readIf_bind ?_ fun hr' less => ?_
  · exact .before (.pure _) fun _ => ih.class_body (by omega)
  · exact .before (Settles.expect _ _).loose fun _ => .before .freshId fun _ =>
      .before (.pure _) fun _ => ih.class_body (by omega)

theorem next_methods (ih : StatementsSettle n) (h : 32 * r + 2 ≤ n + 1) :
    Settles r 0 (Parse.methods (n + 1)) := by
  have hmore : Settles r 1 (do return (← Parse.routine n .method) :: (← Parse.methods n)) :=
    .bind (ih.routine r _ (by omega)) fun hr _ => .before (ih.methods _ (by omega)) fun _ => .pure _
  exact .before (.sees _) fun _ => .before .atEnd fun _ => .ite (.pure _) hmore.loose

/-- The rest of a routine after its parameters. -/
theorem routine_body (ih : StatementsSettle n) {kind : RoutineKind} {name : Token}
    {params : List Token} (h : 32 * r + 19 ≤ n) : Settles r 0 (do
      let _ ← Parse.expect (.symbol .rightParen) .parameterListEnd
      let _ ← Parse.expect (.symbol .leftBrace) (.routineBody kind)
      return (⟨name, params, ← Parse.block n⟩ : Routine)) :=
  .before (Settles.expect _ _).loose fun _ => .before (Settles.expect _ _).loose fun _ =>
    .before (ih.block r h).loose fun _ => .pure _

theorem next_routine (ih : StatementsSettle n) (kind : RoutineKind) (h : 32 * r + 1 ≤ n + 1) :
    Settles r 1 (Parse.routine (n + 1) kind) := by
  refine .bind (.expect _ _) fun hr name => .before (Settles.expect _ _).loose fun _ => ?_
  refine .before (.sees _) fun _ => .ite ?_ ?_
  · exact .before (.pure _) fun _ => ih.routine_body (by omega)
  · exact .before (Settles.parameters 0 (by omega)).loose fun _ => ih.routine_body (by omega)

theorem next_block (ih : StatementsSettle n) (h : 32 * r + 19 ≤ n + 1) :
    Settles r 1 (Parse.block (n + 1)) := by
  have hclose : Settles r 1 (do
      let _ ← expect (.symbol .rightBrace) .blockEnd
      return ([] : List Stmt)) :=
    .bind (.expect _ _) fun _ _ => .pure _
  refine .before (.sees _) fun b => .atEnd_bind ?_ ?_
  · rw [Bool.or_true]
    exact hclose
  · cases b with
    | true => exact .of_settles hclose
    | false =>
      refine .bind (ih.declaration r (by omega)) fun hr o => ?_
      cases o with
      | none => exact (ih.block _ (by omega)).loose
      | some first => exact .before (ih.block _ (by omega)).loose fun _ => .pure _

theorem next_statement (ih : StatementsSettle n) (h : 32 * r + 17 ≤ n + 1) :
    Settles r 1 (Parse.statement (n + 1)) := by
  have hexpr : 1 ≤ r → Settles (r - 1) 0 (Parse.expression n) := fun hr =>
    (Settles.expression (by omega)).loose
  refine .peek_bind fun t => ?_
  split
  · next hk => exact .skip_bind (by simp [hk]) fun hr => (ih.forStatement _ (by omega)).loose
  · next hk => exact .skip_bind (by simp [hk]) fun hr => (ih.ifStatement _ (by omega)).loose
  · next hk =>
    exact .skip_bind (by simp [hk]) fun hr => .before (hexpr hr) fun _ =>
      .before (Settles.semicolon _).loose fun _ => .pure _
  · next hk =>
    exact .skip_bind (by simp [hk]) fun hr => .before (Settles.semicolon _).loose fun _ => .pure _
  · next hk =>
    exact .skip_bind (by simp [hk]) fun hr => .before (hexpr hr) fun _ =>
      .before (Settles.semicolon _).loose fun _ => .pure _
  · next hk =>
    refine .skip_bind (by simp [hk]) fun hr => .before (.expressionUnless _ (by omega)) fun _ => ?_
    exact .before (Settles.semicolon _).loose fun _ => .pure _
  · next hk =>
    refine .skip_bind (by simp [hk]) fun hr => .before (Settles.expect _ _).loose fun _ => ?_
    exact .before (hexpr hr) fun _ => .before (Settles.expect _ _).loose fun _ =>
      .before (ih.statement _ (by omega)).loose fun _ => .pure _
  · next hk =>
    exact .skip_bind (by simp [hk]) fun hr => .before (ih.block _ (by omega)).loose fun _ => .pure _
  · exact .of_settles (.expressionStatement (by omega))

/-- The rest of a `for` statement after its first clause. -/
theorem for_clauses (ih : StatementsSettle n) {init : Option Stmt} (h : 32 * r + 17 ≤ n) :
    Settles r 0 (do
      let cond ← Parse.expressionUnless n (.symbol .semicolon)
      Parse.semicolon .loopConditionEnd
      let increment ← Parse.expressionUnless n (.symbol .rightParen)
      let _ ← Parse.expect (.symbol .rightParen) .forClausesEnd
      return forLoop init cond increment (← Parse.statement n)) :=
  .before (.expressionUnless _ (by omega)) fun _ => .before (Settles.semicolon _).loose fun _ =>
    .before (.expressionUnless _ (by omega)) fun _ => .before (Settles.expect _ _).loose fun _ =>
    .before (ih.statement _ h).loose fun _ => .pure _

theorem next_forStatement (ih : StatementsSettle n) (h : 32 * r + 1 ≤ n + 1) :
    Settles r 1 (Parse.forStatement (n + 1)) := by
  refine .bind (.expect _ _) fun hr _ =>
    .readIf_bind (.readIf_bind ?_ fun hr' kw => ?_) fun hr' semi => ?_
  · have hinit : Settles (r - 1) 0 (Parse.expressionStatement n) :=
      (Settles.expressionStatement (by omega)).loose
    exact .before (.map _ hinit) fun _ => ih.for_clauses (by omega)
  · have hinit : Settles (r - 1 - 1) 0 (Parse.varDeclaration n) :=
      (Settles.varDeclaration (by omega)).loose
    exact .before (.map _ hinit) fun _ => ih.for_clauses (by omega)
  · exact .before (.pure _) fun _ => ih.for_clauses (by omega)

theorem next_ifStatement (ih : StatementsSettle n) (h : 32 * r + 1 ≤ n + 1) :
    Settles r 1 (Parse.ifStatement (n + 1)) := by
  refine .bind (.expect _ _) fun hr _ => ?_
  have hstatement : Settles (r - 1) 0 (Parse.statement n) := (ih.statement _ (by omega)).loose
  refine .before (Settles.expression (by omega)).loose fun cond => ?_
  refine .before (Settles.expect _ _).loose fun _ => .before hstatement fun yes => ?_
  exact .readIf_bind (.pure _) fun hr' els =>
    .before (ih.statement _ (by omega)).loose fun _ => .pure _

end StatementsSettle

theorem statementsSettle (n : Nat) : StatementsSettle n := by
  induction n with
  | zero => constructor <;> intros <;> omega
  | succ n ih =>
    exact
      { declaration := fun r h =>
          .recovering Grows.declaration_body (ih.declaration_body h)
        classDeclaration := fun r h => ih.next_classDeclaration h
        methods := fun r h => ih.next_methods h
        routine := fun r kind h => ih.next_routine kind h
        block := fun r h => ih.next_block h
        statement := fun r h => ih.next_statement h
        forStatement := fun r h => ih.next_forStatement h
        ifStatement := fun r h => ih.next_ifStatement h }

/-! ## Programs -/

theorem recovering_ne_reject {p : Parse α} {s s' : State} {e : Error} :
    recovering p s ≠ .error (.reject e) s' := by
  rw [recovering_apply]
  cases p s with
  | ok a s₁ => nofun
  | error halt s₁ => cases halt <;> nofun

/-- Where there are tokens, a declaration is read or its fault is recorded. -/
theorem declaration_eq_ok {n : Nat} {s : State} (h : 32 * s.rest.length + 18 ≤ n) (he : s.Ends)
    (hgoes : s.Goes) : ∃ o s', declaration n s = .ok o s' ∧ s'.rest.length < s.rest.length ∧
      s'.Ends := by
  have hsettled := (statementsSettle n).declaration _ h s hgoes he (Nat.le_refl _)
  cases hs : declaration n s with
  | ok o s' =>
    rw [hs] at hsettled
    exact ⟨o, s', rfl, hsettled.1, by rwa [State.Ends, hsettled.2]⟩
  | error halt s' =>
    rw [hs] at hsettled
    cases halt with
    | exhausted => exact hsettled.elim
    | reject e =>
      cases n with
      | zero => omega
      | succ n => exact absurd hs recovering_ne_reject

/-- A program is read to its end, however faulty it is. -/
theorem program_eq_ok {n : Nat} {s : State} (h : 32 * s.rest.length + 19 ≤ n) (he : s.Ends) :
    ∃ stmts s', program n s = .ok stmts s' := by
  induction n generalizing s with
  | zero => omega
  | succ n ih =>
    rw [program, bind_ok (show atEnd s = .ok s.rest.isEmpty s from rfl)]
    by_cases hgoes : s.Goes
    · obtain ⟨o, s₁, hdecl, hlen, he₁⟩ := declaration_eq_ok (n := n) (by omega) he hgoes
      obtain ⟨stmts, s', hrest⟩ := ih (s := s₁) (by omega) he₁
      rw [if_neg (by simpa [State.Goes] using hgoes), bind_ok hdecl]
      cases o with
      | none => exact ⟨stmts, s', hrest⟩
      | some first => exact ⟨first :: stmts, s', bind_ok hrest⟩
    · rw [if_pos (by simpa [State.Goes] using hgoes)]
      exact ⟨[], s, rfl⟩

theorem start_length_le (tokens : List Token) (nextId : Nat) :
    (start tokens nextId).rest.length ≤ tokens.length :=
  (List.takeWhile_prefix _).length_le

end Parse

/-- The reading of a program ends at its last token; what it returns only depends on its faults. -/
theorem Stmt.parse_eq (tokens : List Token) (nextId : Nat) : ∃ stmts s,
    Parse.program (Parse.depth tokens.length) (Parse.start tokens nextId) = .ok stmts s ∧
      Stmt.parse tokens nextId =
        (if s.errors.isEmpty then .ok stmts else .error s.errors, s.nextId) := by
  have hlen := Parse.start_length_le tokens nextId
  obtain ⟨stmts, s, h⟩ := Parse.program_eq_ok (n := Parse.depth tokens.length)
    (by unfold Parse.depth; omega) (Parse.start_ends tokens nextId)
  exact ⟨stmts, s, h, by rw [Stmt.parse, h]⟩

/-- A reading that fails names a fault. -/
theorem Stmt.parse_error_ne_nil {tokens : List Token} {nextId : Nat} {es : List Error}
    (h : (Stmt.parse tokens nextId).1 = .error es) : es ≠ [] := by
  obtain ⟨stmts, s, -, heq⟩ := Stmt.parse_eq tokens nextId
  rw [heq] at h
  dsimp only at h
  split at h
  · cases h
  · next hne =>
    rintro rfl
    exact hne (by simp [Except.error.inj h])

end Lox
