import Lox.Proofs.Nodes
import Lox.Proofs.Parse.Steps

/-!
# Every expression of the grammar is read

The parser decides by one token what to do next. The first tokens of the rules (`Rule.first`) tell
the alternatives apart, and a token that cannot go on with an operation (`Stops`) ends it. So on
tokens with a derivation each rule of the parser reads just these tokens, records no fault and gives
the tree of the derivation, up to identities.
-/

namespace Lox
namespace Grammar
open Parse

variable {nearest : Bool}

/-! ## First tokens -/

def startsPrimary : Kind → Bool
  | .keyword k => k = .falseKw || k = .trueKw || k = .nilKw || k = .thisKw || k = .superKw
  | .symbol s => s = .leftParen
  | .number _ | .string _ | .identifier => true
  | .eof => false

def startsExpression (k : Kind) : Bool := isUnary k || startsPrimary k

/-- The keywords and the brace that start a statement, and no expression. -/
def startsSimple : Kind → Bool
  | .keyword k =>
    k = .forKw || k = .ifKw || k = .printKw || k = .returnKw || k = .whileKw || k = .breakKw ||
      k = .executeKw
  | .symbol s => s = .leftBrace
  | _ => false

def startsDeclaration : Kind → Bool
  | .keyword k => k = .classKw || k = .funKw || k = .varKw
  | _ => false

namespace Rule

/-- Which tokens can be the first of a rule. -/
def first : Rule → Kind → Bool
  | declarations, k | declaration, k => startsDeclaration k || (startsSimple k || startsExpression k)
  | statement _, k => startsSimple k || startsExpression k
  | methods, k | function, k => k.alike .identifier
  | varDecl, k => k.alike (.keyword .varKw)
  | forInit, k => k.alike (.symbol .semicolon) || (k.alike (.keyword .varKw) || startsExpression k)
  | exprStmt, k | optional, k | expression, k | operation _, k | arguments, k => startsExpression k
  | call, k | primary, k => startsPrimary k

/-- Whether a rule derives the empty list. -/
def nullable : Rule → Bool
  | declarations | methods | optional => true
  | _ => false

end Rule

theorem nextIs_append {p : Kind → Bool} {ts : List Token} (us : List Token)
    (h : nextIs p ts = true) : nextIs p (ts ++ us) = true := by
  cases ts with
  | nil => cases h
  | cons t ts => exact h

theorem exists_of_nextIs {p : Kind → Bool} {ts : List Token} (h : nextIs p ts = true) :
    ∃ t us, ts = t :: us ∧ p t.kind = true := by
  cases ts with
  | nil => cases h
  | cons t us => exact ⟨t, us, rfl, h⟩

theorem nextIs_mono {p q : Kind → Bool} {ts : List Token} (hpq : ∀ k, p k = true → q k = true)
    (h : nextIs p ts = true) : nextIs q ts = true := by
  cases ts with
  | nil => cases h
  | cons t ts => exact hpq _ h

theorem nextIs_false {p q : Kind → Bool} {ts : List Token} (hpq : ∀ k, p k = true → q k = false)
    (h : nextIs p ts = true) : nextIs q ts = false := by
  cases ts with
  | nil => rfl
  | cons t ts => exact hpq _ h

/-- A symbol that is no first token is not the next one. -/
theorem not_next_symbol {p : Kind → Bool} {s : Symbol} {ts : List Token}
    (hs : p (.symbol s) = false) (h : nextIs p ts = true) (rest : List Token) :
    nextIs (·.alike (.symbol s)) (ts ++ rest) = false := by
  refine nextIs_false (fun k hk => Bool.eq_false_iff.2 fun ha => ?_) (nextIs_append rest h)
  rw [Kind.alike_symbol.1 ha, hs] at hk
  cases hk

theorem not_next_keyword {p : Kind → Bool} {w : Keyword} {ts : List Token}
    (hw : p (.keyword w) = false) (h : nextIs p ts = true) (rest : List Token) :
    nextIs (·.alike (.keyword w)) (ts ++ rest) = false := by
  refine nextIs_false (fun k hk => Bool.eq_false_iff.2 fun ha => ?_) (nextIs_append rest h)
  rw [Kind.alike_keyword.1 ha, hw] at hk
  cases hk

theorem Writes.first {k : Kind} {v : Literal} (h : Writes k v) :
    startsPrimary k = Bool.true := by
  cases h <;> rfl

theorem first_of_not_nullable {r : Rule} {ts : List Token} (hr : r.nullable = false)
    (h : (r.nullable = true ∧ ts = []) ∨ nextIs r.first ts = true) : nextIs r.first ts = true :=
  h.resolve_left fun hn => by simp [hr] at hn

/-- What a rule derives starts with one of its first tokens, if it is not empty. -/
theorem Derives.first_or_nil {r : Rule} {ts : List Token} {t : r.Tree}
    (h : Derives nearest r ts t) : (r.nullable = true ∧ ts = []) ∨ nextIs r.first ts = true := by
  induction h with
  | noDeclarations => exact .inl ⟨rfl, rfl⟩
  | noMethods => exact .inl ⟨rfl, rfl⟩
  | absent => exact .inl ⟨rfl, rfl⟩
  | moreDeclarations _ _ ih _ =>
    exact .inr (nextIs_append _ (first_of_not_nullable (r := .declaration) rfl ih))
  | moreMethods _ _ ih _ =>
    exact .inr (nextIs_append _ (first_of_not_nullable (r := .function) rfl ih))
  | classDecl hk => exact .inr (by simp [Rule.first, startsDeclaration, hk])
  | subclassDecl _ hk => exact .inr (by simp [Rule.first, startsDeclaration, hk])
  | funDecl hk => exact .inr (by simp [Rule.first, startsDeclaration, hk])
  | varDeclaration _ ih =>
    refine .inr (nextIs_mono (fun k hk => ?_) (first_of_not_nullable rfl ih))
    simp only [Rule.first, Kind.alike_keyword] at hk
    simp [Rule.first, startsDeclaration, hk]
  | statement _ ih =>
    refine .inr (nextIs_mono (fun k hk => ?_) (first_of_not_nullable rfl ih))
    exact Bool.or_eq_true_iff.2 (.inr hk)
  | function hk => exact .inr (by simp [Rule.first, hk])
  | varDecl hk => exact .inr (by simp [Rule.first, hk])
  | varInit hk => exact .inr (by simp [Rule.first, hk])
  | exprStmt _ _ ih => exact .inr (nextIs_append _ (first_of_not_nullable rfl ih))
  | expression _ ih =>
    refine .inr (nextIs_mono (fun k hk => ?_) (first_of_not_nullable rfl ih))
    exact Bool.or_eq_true_iff.2 (.inr hk)
  | forStmt hk => exact .inr (by simp [Rule.first, startsSimple, hk])
  | ifStmt hk => exact .inr (by simp [Rule.first, startsSimple, hk])
  | ifElseStmt hk => exact .inr (by simp [Rule.first, startsSimple, hk])
  | printStmt hk => exact .inr (by simp [Rule.first, startsSimple, hk])
  | returnStmt hk => exact .inr (by simp [Rule.first, startsSimple, hk])
  | whileStmt hk => exact .inr (by simp [Rule.first, startsSimple, hk])
  | breakStmt hk => exact .inr (by simp [Rule.first, startsSimple, hk])
  | executeStmt hk => exact .inr (by simp [Rule.first, startsSimple, hk])
  | block hk => exact .inr (by simp [Rule.first, startsSimple, hk])
  | initVar _ ih =>
    refine .inr (nextIs_mono (fun k hk => ?_) (first_of_not_nullable rfl ih))
    exact Bool.or_eq_true_iff.2 (.inr (Bool.or_eq_true_iff.2 (.inl hk)))
  | initExpr _ ih =>
    refine .inr (nextIs_mono (fun k hk => ?_) (first_of_not_nullable rfl ih))
    exact Bool.or_eq_true_iff.2 (.inr (Bool.or_eq_true_iff.2 (.inr hk)))
  | initNone hk => exact .inr (by simp [Rule.first, hk])
  | present _ ih => exact .inr (first_of_not_nullable (r := .expression) rfl ih)
  | assignName _ hk => exact .inr (by simp [Rule.first, startsExpression, startsPrimary, hk])
  | assignProperty _ _ _ _ _ ih _ =>
    refine .inr (nextIs_append _ (nextIs_mono (fun k hk => ?_) (first_of_not_nullable rfl ih)))
    exact Bool.or_eq_true_iff.2 (.inr hk)
  | logicOr _ ih => exact .inr (first_of_not_nullable rfl ih)
  | operand _ _ ih => exact .inr (first_of_not_nullable rfl ih)
  | operation _ _ _ _ ih _ => exact .inr (nextIs_append _ (first_of_not_nullable rfl ih))
  | unary hk => exact .inr (by simp [Rule.first, startsExpression, unary_iff.1 hk])
  | operandCall _ ih =>
    refine .inr (nextIs_mono (fun k hk => ?_) (first_of_not_nullable rfl ih))
    exact Bool.or_eq_true_iff.2 (.inr hk)
  | callPrimary _ ih => exact .inr (first_of_not_nullable rfl ih)
  | callNone _ _ _ ih => exact .inr (nextIs_append _ (first_of_not_nullable rfl ih))
  | callArgs _ _ _ _ _ ih _ => exact .inr (nextIs_append _ (first_of_not_nullable rfl ih))
  | property _ _ _ ih => exact .inr (nextIs_append _ (first_of_not_nullable rfl ih))
  | oneArgument _ ih => exact .inr (first_of_not_nullable rfl ih)
  | moreArguments _ _ _ ih _ => exact .inr (nextIs_append _ (first_of_not_nullable rfl ih))
  | literal hw => exact .inr hw.first
  | thisRef _ hk => exact .inr (by simp [Rule.first, startsPrimary, hk])
  | var _ hk => exact .inr (by simp [Rule.first, startsPrimary, hk])
  | group hk => exact .inr (by simp [Rule.first, startsPrimary, hk])
  | superRef _ hk => exact .inr (by simp [Rule.first, startsPrimary, hk])

theorem Derives.first {r : Rule} {ts : List Token} {t : r.Tree} (h : Derives nearest r ts t)
    (hr : r.nullable = false) : nextIs r.first ts = true :=
  first_of_not_nullable hr h.first_or_nil

/-! ## Tokens that end an operation -/

/-- How tightly the operators of a level bind, and `none` for what has no operators. -/
def tightness : Option Level → Nat
  | some .or => 0
  | some .and => 1
  | some .equality => 2
  | some .comparison => 3
  | some .term => 4
  | some .factor => 5
  | none => 6

theorem tightness_tighter (level : Level) :
    tightness level.tighter? = tightness (some level) + 1 := by
  cases level <;> rfl

theorem tightness_some_lt (level : Level) : tightness (some level) < 6 := by
  cases level <;> decide

theorem tightness_le (level : Option Level) : tightness level ≤ 6 := by
  cases level with
  | none => exact Nat.le_refl 6
  | some level => exact Nat.le_of_lt (tightness_some_lt level)

/-- The level of an operator. -/
def levelOf : Kind → Option Level
  | .keyword .orKw => some .or
  | .keyword .andKw => some .and
  | .symbol .bangEqual | .symbol .equalEqual => some .equality
  | .symbol .greater | .symbol .greaterEqual | .symbol .less | .symbol .lessEqual => some .comparison
  | .symbol .minus | .symbol .plus => some .term
  | .symbol .star | .symbol .slash => some .factor
  | _ => none

theorem levelOf_of_has {level : Level} {k : Kind} (h : level.has k = true) :
    levelOf k = some level := by
  cases k with
  | symbol s => cases level <;> cases s <;> first | rfl | cases h
  | keyword w => cases level <;> cases w <;> first | rfl | cases h
  | _ => cases level <;> cases h

/-- A token that goes on with an operation of the tightness `low` or more. -/
def Extends (low : Nat) (k : Kind) : Prop :=
  k = .symbol .leftParen ∨ k = .symbol .dot ∨ ∃ level, low ≤ tightness (some level) ∧ level.has k = true

/-- No operation of the tightness `low` or more goes on with `rest`. -/
def Stops (low : Nat) (rest : List Token) : Prop := ∀ t us, rest = t :: us → ¬ Extends low t.kind

namespace Stops

variable {low high : Nat} {rest : List Token}

theorem mono (h : Stops low rest) (hl : low ≤ high) : Stops high rest := by
  rintro t us rfl (hk | hk | ⟨level, hle, hk⟩)
  · exact h t us rfl (.inl hk)
  · exact h t us rfl (.inr (.inl hk))
  · exact h t us rfl (.inr (.inr ⟨level, Nat.le_trans hl hle, hk⟩))

/-- An operator ends the operations that bind tighter than it does. -/
theorem operator {level : Level} {op : Token} (h : level.has op.kind = true)
    (hl : tightness (some level) < low) : Stops low (op :: rest) := by
  rintro t us ⟨⟩ (hk | hk | ⟨level', hle, hk⟩)
  · cases hk ▸ levelOf_of_has h
  · cases hk ▸ levelOf_of_has h
  · obtain rfl := Option.some.inj ((levelOf_of_has h).symm.trans (levelOf_of_has hk))
    omega

/-- A semicolon, a closing parenthesis, a comma and an equals sign end every operation. -/
theorem mark {t : Token} {s : Symbol} (hk : t.kind = .symbol s)
    (hs : s = .semicolon ∨ s = .rightParen ∨ s = .comma ∨ s = .equal) : Stops low (t :: rest) := by
  rintro t us ⟨⟩ (h | h | ⟨level, -, h⟩)
  · rcases hs with rfl | rfl | rfl | rfl <;> simp [hk] at h
  · rcases hs with rfl | rfl | rfl | rfl <;> simp [hk] at h
  · rcases hs with rfl | rfl | rfl | rfl <;> cases hk ▸ levelOf_of_has h

theorem has {level : Level} (h : Stops (tightness (some level)) rest) :
    nextIs level.has rest = false := by
  cases rest with
  | nil => rfl
  | cons t us =>
    have := h t us rfl
    simp only [Extends, not_or, not_exists, not_and] at this
    simpa using this.2.2 level (Nat.le_refl _)

theorem leftParen (h : Stops low rest) : nextIs (·.alike (.symbol .leftParen)) rest = false := by
  cases rest with
  | nil => rfl
  | cons t us =>
    have := h t us rfl
    simp only [Extends, not_or] at this
    exact Bool.eq_false_iff.2 (mt Kind.alike_symbol.1 this.1)

theorem dot (h : Stops low rest) : nextIs (·.alike (.symbol .dot)) rest = false := by
  cases rest with
  | nil => rfl
  | cons t us =>
    have := h t us rfl
    simp only [Extends, not_or] at this
    exact Bool.eq_false_iff.2 (mt Kind.alike_symbol.1 this.2.1)

end Stops

/-- Nothing in `rest` goes on with an expression. -/
structure Closed (rest : List Token) : Prop where
  stops : Stops 0 rest
  equal : nextIs (·.alike (.symbol .equal)) rest = false

theorem Closed.mark {t : Token} {rest : List Token} {s : Symbol} (hk : t.kind = .symbol s)
    (hs : s = .semicolon ∨ s = .rightParen ∨ s = .comma) : Closed (t :: rest) where
  stops := .mark hk (by rcases hs with rfl | rfl | rfl <;> simp)
  equal := by rcases hs with rfl | rfl | rfl <;> simp [hk, Kind.alike]

end Grammar

namespace Parse
open Ending Grammar

/-! ## Expressions -/

/-- `p` reads up to `rest`, records no fault and gives `t` up to identities. -/
def Yields (r : Rule) (p : Parse r.Tree) (s : State) (t : r.Tree) (rest : List Token) : Prop :=
  ∃ t' k, p s = .ok t' { s with rest := rest, nextId := k } ∧ r.erase t' = r.erase t

/-- With `extra` levels of depth beyond those for the tokens, `p` reads `ts` and gives `t` before any
`rest` that may follow. -/
def Completes (r : Rule) (extra : Nat) (follow : List Token → Prop) (p : Nat → Parse r.Tree)
    (ts : List Token) (t : r.Tree) : Prop :=
  ∀ ⦃n : Nat⦄ ⦃s : State⦄ ⦃rest : List Token⦄, 32 * ts.length + extra ≤ n → s.rest = ts ++ rest →
    follow rest → Yields r (p n) s t rest

/-- After the operands of `ts` the parser is about to look for a further operator. -/
def CompletesOperation (level : Level) (ts : List Token) (e : Expr) : Prop :=
  ∀ ⦃n : Nat⦄ ⦃s : State⦄ ⦃rest : List Token⦄,
    32 * ts.length + (15 - 2 * tightness (some level)) ≤ n → s.rest = ts ++ rest →
    Stops (tightness (some level) + 1) rest →
    ∃ e' k m, n ≤ m + 1 + ts.length ∧
      operation n level s = operationRest m level e' { s with rest := rest, nextId := k } ∧
      e'.erase = e.erase

/-- After the calls and properties of `ts` the parser is about to look for a further one. -/
def CompletesCall (ts : List Token) (e : Expr) : Prop :=
  ∀ ⦃n : Nat⦄ ⦃s : State⦄ ⦃rest : List Token⦄, 32 * ts.length + 2 ≤ n → s.rest = ts ++ rest →
    ∃ e' k m, n ≤ m + 1 + ts.length ∧
      suffixed n s = suffixes m e' { s with rest := rest, nextId := k } ∧ e'.erase = e.erase

/-- The operands of every tightness. -/
def CompletesOperand : Option Level → List Token → Expr → Prop
  | none => Completes .unary 3 (Stops 6) unary
  | some level => CompletesOperation level

theorem CompletesOperation.operation {level : Level} {ts : List Token} {e : Expr}
    (h : CompletesOperation level ts e) :
    Completes .expression (15 - 2 * tightness (some level)) (Stops (tightness (some level)))
      (operation · level) ts e := by
  intro n s rest hn hr hf
  obtain ⟨e', k, m, hm, he, her⟩ := h hn hr (hf.mono (Nat.le_succ _))
  have := tightness_some_lt level
  obtain ⟨m, rfl⟩ : ∃ m', m = m' + 1 := ⟨m - 1, by omega⟩
  refine ⟨e', k, ?_, her⟩
  show Parse.operation n level s = _
  rw [he, operationRest, bind_ok (readIf_of_not_next hf.has)]
  rfl

theorem CompletesCall.suffixed {ts : List Token} {e : Expr} (h : CompletesCall ts e) :
    Completes .call 2 (Stops 6) suffixed ts e := by
  intro n s rest hn hr hf
  obtain ⟨e', k, m, hm, he, her⟩ := h hn hr
  obtain ⟨m, rfl⟩ : ∃ m', m = m' + 1 := ⟨m - 1, by omega⟩
  refine ⟨e', k, ?_, her⟩
  rw [he, suffixes, bind_ok (accept_of_not_next hf.leftParen)]
  simp only
  rw [bind_ok (accept_of_not_next hf.dot)]
  rfl

/-- An operand of `level` is an operation of the next one. -/
theorem CompletesOperand.operand {level : Level} {ts : List Token} {e : Expr}
    (h : CompletesOperand level.tighter? ts e) :
    Completes .expression (16 - 2 * tightness level.tighter?) (Stops (tightness level.tighter?))
      (operand · level) ts e := by
  intro n s rest hn hr hf
  have hle := tightness_le level.tighter?
  obtain ⟨n, rfl⟩ : ∃ n', n = n' + 1 := ⟨n - 1, by omega⟩
  show Yields .expression (Parse.operand (n + 1) level) s e rest
  rw [Parse.operand]
  cases hl : level.tighter? with
  | none =>
    rw [hl] at h hf hn hle
    exact h (by simp only [tightness] at hn; omega) hr hf
  | some tighter =>
    rw [hl] at h hf hn hle
    exact h.operation (by omega) hr hf

/-- A call or property is an operand of every tightness. -/
theorem CompletesCall.unary {ts : List Token} {e : Expr} (h : CompletesCall ts e)
    (hfirst : nextIs startsPrimary ts = true) : Completes .unary 3 (Stops 6) unary ts e := by
  intro n s rest hn hr hf
  obtain ⟨n, rfl⟩ : ∃ n', n = n' + 1 := ⟨n - 1, by omega⟩
  have hnot : nextIs isUnary s.rest = false := by
    rw [hr]
    refine nextIs_false (fun k hk => ?_) (nextIs_append rest hfirst)
    cases k <;> simp_all [startsPrimary, isUnary]
  obtain ⟨e', k, he, her⟩ := h.suffixed (n := n) (by omega) hr hf
  refine ⟨e', k, ?_, her⟩
  rw [Parse.unary, bind_ok (readIf_of_not_next hnot)]
  exact he

/-- An operand alone is an operation. -/
theorem CompletesOperand.single {level : Level} {ts : List Token} {e : Expr}
    (h : CompletesOperand level.tighter? ts e) : CompletesOperation level ts e := by
  intro n s rest hn hr hf
  have hlt := tightness_some_lt level
  have ht := tightness_tighter level
  obtain ⟨n, rfl⟩ : ∃ n', n = n' + 1 := ⟨n - 1, by omega⟩
  obtain ⟨e', k, he, her⟩ := h.operand (n := n) (by omega) hr (ht ▸ hf)
  refine ⟨e', k, n, by omega, ?_, her⟩
  rw [Parse.operation, bind_ok he]

theorem CompletesOperation.more {level : Level} {op : Token} {ls rs : List Token}
    {left right : Expr} (hl : CompletesOperation level ls left) (hop : level.has op.kind = true)
    (hr : CompletesOperand level.tighter? rs right) :
    CompletesOperation level (ls ++ op :: rs) (level.join left op right) := by
  intro n s rest hn hs hf
  have hlt := tightness_some_lt level
  have ht := tightness_tighter level
  simp only [List.length_append, List.length_cons] at hn ⊢
  have hs' : s.rest = ls ++ op :: (rs ++ rest) := by simp [hs]
  obtain ⟨left', k, m, hm, hleft, herl⟩ := hl (n := n) (by omega) hs'
    (.operator hop (Nat.lt_succ_self _))
  obtain ⟨m, rfl⟩ : ∃ m', m = m' + 1 := ⟨m - 1, by omega⟩
  obtain ⟨right', k', hright, herr⟩ := hr.operand (n := m)
    (s := { s with rest := rs ++ rest, nextId := k }) (by omega) rfl (ht ▸ hf)
  refine ⟨level.join left' op right', k', m, by omega, ?_, ?_⟩
  · rw [hleft, operationRest, bind_ok (readIf_of_next rfl hop)]
    exact bind_ok hright
  · have herr : right'.erase = right.erase := herr
    cases level <;> simp [Level.join, Expr.erase, herl, herr]

/-- What is no operation is an operand of every level. -/
theorem CompletesOperand.loosen {ts : List Token} {e : Expr} (h : CompletesOperand none ts e)
    (level : Level) : CompletesOperation level ts e := by
  have factor : CompletesOperation .factor ts e := CompletesOperand.single h
  have term : CompletesOperation .term ts e := CompletesOperand.single factor
  have comparison : CompletesOperation .comparison ts e := CompletesOperand.single term
  have equality : CompletesOperation .equality ts e := CompletesOperand.single comparison
  have and : CompletesOperation .and ts e := CompletesOperand.single equality
  cases level
  case or => exact CompletesOperand.single and
  all_goals assumption

/-! ### Calls and primaries -/

abbrev CompletesPrimary : List Token → Expr → Prop := Completes .primary 1 (fun _ => True) primary

abbrev CompletesExpression : List Token → Expr → Prop := Completes .expression 16 Closed expression

/-- The arguments are read as long as they are not too many. -/
def CompletesArguments (ts : List Token) (args : List Expr) : Prop :=
  ∀ count, count + args.length ≤ maxArity →
    Completes .arguments 17 (nextIs (·.alike (.symbol .rightParen)) · = true) (arguments · count) ts
      args

theorem CompletesPrimary.call {ts : List Token} {e : Expr} (h : CompletesPrimary ts e) :
    CompletesCall ts e := by
  intro n s rest hn hr
  obtain ⟨n, rfl⟩ : ∃ n', n = n' + 1 := ⟨n - 1, by omega⟩
  obtain ⟨e', k, he, her⟩ := h (n := n) (by omega) hr trivial
  refine ⟨e', k, n, by omega, ?_, her⟩
  rw [Parse.suffixed, bind_ok he]

theorem CompletesCall.callNone {cs : List Token} {callee : Expr} {lp rp : Token}
    (h : CompletesCall cs callee) (hlp : lp.kind = .symbol .leftParen)
    (hrp : rp.kind = .symbol .rightParen) : CompletesCall (cs ++ [lp, rp]) (.call callee rp []) := by
  intro n s rest hn hr
  simp only [List.length_append, List.length_cons, List.length_nil] at hn ⊢
  have hr' : s.rest = cs ++ lp :: rp :: rest := by simp [hr]
  obtain ⟨callee', k, m, hm, he, her⟩ := h (n := n) (by omega) hr'
  obtain ⟨m, rfl⟩ : ∃ m', m = m' + 1 := ⟨m - 1, by omega⟩
  refine ⟨.call callee' rp [], k, m, by omega, ?_, by simp [Expr.erase, her]⟩
  rw [he, suffixes, bind_ok (accept_of_next rfl hlp)]
  simp only
  rw [bind_ok (sees_apply _)]
  simp only [nextIs_cons, hrp, Kind.alike_refl, if_true]
  rw [bind_ok (pure_apply _), bind_ok (expect_of_next rfl hrp)]

theorem CompletesCall.callArgs {cs ts : List Token} {callee : Expr} {args : List Expr}
    {lp rp : Token} (h : CompletesCall cs callee) (hlp : lp.kind = .symbol .leftParen)
    (hargs : CompletesArguments ts args) (hfirst : nextIs startsExpression ts = true)
    (hlen : args.length ≤ 8) (hrp : rp.kind = .symbol .rightParen) :
    CompletesCall (cs ++ lp :: (ts ++ [rp])) (.call callee rp args) := by
  intro n s rest hn hr
  simp only [List.length_append, List.length_cons, List.length_nil] at hn ⊢
  have hr' : s.rest = cs ++ lp :: (ts ++ rp :: rest) := by simp [hr]
  obtain ⟨callee', k, m, hm, he, her⟩ := h (n := n) (by omega) hr'
  obtain ⟨m, rfl⟩ : ∃ m', m = m' + 1 := ⟨m - 1, by omega⟩
  obtain ⟨args', k', ha, har⟩ := hargs 0 (by simpa [maxArity] using hlen) (n := m)
    (s := { s with rest := ts ++ rp :: rest, nextId := k }) (by omega) rfl (by simp [hrp])
  have hnot : nextIs (·.alike (.symbol .rightParen)) (ts ++ rp :: rest) = false :=
    not_next_symbol rfl hfirst _
  refine ⟨.call callee' rp args', k', m, by omega, ?_, ?_⟩
  · rw [he, suffixes, bind_ok (accept_of_next rfl hlp)]
    simp only
    rw [bind_ok (sees_apply _)]
    simp only [hnot, if_false, Bool.false_eq_true]
    rw [bind_ok ha, bind_ok (expect_of_next rfl hrp)]
  · have har : Expr.eraseAll args' = Expr.eraseAll args := har
    simp [Expr.erase, her, har]

theorem CompletesCall.property {os : List Token} {object : Expr} {dot name : Token}
    (h : CompletesCall os object) (hdot : dot.kind = .symbol .dot)
    (hname : name.kind = .identifier) : CompletesCall (os ++ [dot, name]) (.get object name) := by
  intro n s rest hn hr
  simp only [List.length_append, List.length_cons, List.length_nil] at hn ⊢
  have hr' : s.rest = os ++ dot :: name :: rest := by simp [hr]
  obtain ⟨object', k, m, hm, he, her⟩ := h (n := n) (by omega) hr'
  obtain ⟨m, rfl⟩ : ∃ m', m = m' + 1 := ⟨m - 1, by omega⟩
  refine ⟨.get object' name, k, m, by omega, ?_, by simp [Expr.erase, her]⟩
  rw [he, suffixes, bind_ok (accept_of_not_next (by simp [hdot, Kind.alike]))]
  simp only
  rw [bind_ok (accept_of_next rfl hdot)]
  simp only
  rw [bind_ok (expect_of_next rfl hname)]

theorem CompletesExpression.oneArgument {ts : List Token} {e : Expr} (h : CompletesExpression ts e) :
    CompletesArguments ts [e] := by
  intro count hcount n s rest hn hr hf
  obtain ⟨rp, us, rfl, hrp⟩ := exists_of_nextIs hf
  obtain ⟨n, rfl⟩ : ∃ n', n = n' + 1 := ⟨n - 1, by omega⟩
  obtain ⟨e', k, he, her⟩ := h (n := n) (by omega) hr (.mark (Kind.alike_symbol.1 hrp) (by simp))
  refine ⟨[e'], k, ?_, ?_⟩
  · show arguments (n + 1) count s = _
    have hlt : ¬ maxArity ≤ count := by simp only [List.length_singleton] at hcount; omega
    rw [arguments, if_neg hlt]
    beta_reduce
    rw [bind_ok he, bind_ok (accept_of_not_next (by simp [Kind.alike_symbol.1 hrp, Kind.alike]))]
    rfl
  · have her : e'.erase = e.erase := her
    simp [Rule.erase, Expr.eraseAll, her]

theorem CompletesArguments.more {es ts : List Token} {e : Expr} {args : List Expr} {comma : Token}
    (h : CompletesExpression es e) (hcomma : comma.kind = .symbol .comma)
    (hargs : CompletesArguments ts args) : CompletesArguments (es ++ comma :: ts) (e :: args) := by
  intro count hcount n s rest hn hr hf
  simp only [List.length_append, List.length_cons] at hn hcount
  obtain ⟨n, rfl⟩ : ∃ n', n = n' + 1 := ⟨n - 1, by omega⟩
  have hr' : s.rest = es ++ comma :: (ts ++ rest) := by simp [hr]
  obtain ⟨e', k, he, her⟩ := h (n := n) (by omega) hr' (.mark hcomma (by simp))
  obtain ⟨args', k', ha, har⟩ := hargs (count + 1) (by omega) (n := n)
    (s := { s with rest := ts ++ rest, nextId := k }) (by omega) rfl hf
  refine ⟨e' :: args', k', ?_, ?_⟩
  · show arguments (n + 1) count s = _
    have hlt : ¬ maxArity ≤ count := by omega
    rw [arguments, if_neg hlt]
    beta_reduce
    rw [bind_ok he, bind_ok (accept_of_next rfl hcomma)]
    exact bind_ok ha
  · have her : e'.erase = e.erase := her
    have har : Expr.eraseAll args' = Expr.eraseAll args := har
    simp [Rule.erase, Expr.eraseAll, her, har]

theorem completes_literal {t : Token} {v : Literal} (h : Writes t.kind v) :
    CompletesPrimary [t] (.literal v) := by
  intro n s rest hn hr _
  obtain ⟨n, rfl⟩ : ∃ n', n = n' + 1 := ⟨n - 1, by omega⟩
  refine ⟨.literal v, s.nextId, ?_, rfl⟩
  rw [primary, bind_ok (peek_of_next hr)]
  generalize t.kind = k at h
  cases h <;> exact bind_ok (skip_of_next hr)

theorem completes_var {t : Token} (id : Nat) (hk : t.kind = .identifier) :
    CompletesPrimary [t] (.var id t) := by
  intro n s rest hn hr _
  obtain ⟨n, rfl⟩ : ∃ n', n = n' + 1 := ⟨n - 1, by omega⟩
  refine ⟨.var s.nextId t, s.nextId + 1, ?_, rfl⟩
  rw [primary, bind_ok (peek_of_next hr)]
  simp only [hk]
  rw [bind_ok (skip_of_next hr)]
  rfl

theorem completes_thisRef {t : Token} (id : Nat) (hk : t.kind = .keyword .thisKw) :
    CompletesPrimary [t] (.thisRef id t) := by
  intro n s rest hn hr _
  obtain ⟨n, rfl⟩ : ∃ n', n = n' + 1 := ⟨n - 1, by omega⟩
  refine ⟨.thisRef s.nextId t, s.nextId + 1, ?_, rfl⟩
  rw [primary, bind_ok (peek_of_next hr)]
  simp only [hk]
  rw [bind_ok (skip_of_next hr)]
  rfl

theorem completes_superRef {kw dot method : Token} (id : Nat) (hk : kw.kind = .keyword .superKw)
    (hdot : dot.kind = .symbol .dot) (hm : method.kind = .identifier) :
    CompletesPrimary [kw, dot, method] (.superRef id kw method) := by
  intro n s rest hn hr _
  obtain ⟨n, rfl⟩ : ∃ n', n = n' + 1 := ⟨n - 1, by omega⟩
  refine ⟨.superRef s.nextId kw method, s.nextId + 1, ?_, rfl⟩
  rw [primary, bind_ok (peek_of_next hr)]
  simp only [hk]
  rw [bind_ok (skip_of_next hr), superReference, bind_ok (expect_of_next rfl hdot),
    bind_ok (expect_of_next rfl hm)]
  rfl

theorem CompletesExpression.group {ts : List Token} {e : Expr} {lp rp : Token}
    (h : CompletesExpression ts e) (hlp : lp.kind = .symbol .leftParen)
    (hrp : rp.kind = .symbol .rightParen) : CompletesPrimary (lp :: (ts ++ [rp])) (.group e) := by
  intro n s rest hn hr _
  simp only [List.length_append, List.length_cons, List.length_nil] at hn
  obtain ⟨n, rfl⟩ : ∃ n', n = n' + 1 := ⟨n - 1, by omega⟩
  have hr' : s.rest = lp :: (ts ++ rp :: rest) := by simp [hr]
  obtain ⟨e', k, he, her⟩ := h (n := n) (s := { s with rest := ts ++ rp :: rest }) (by omega) rfl
    (.mark hrp (by simp))
  refine ⟨.group e', k, ?_, congrArg Expr.group her⟩
  rw [primary, bind_ok (peek_of_next hr')]
  simp only [hlp]
  rw [bind_ok (skip_of_next hr'), bind_ok he, bind_ok (expect_of_next rfl hrp)]
  rfl

theorem CompletesOperand.negate {ts : List Token} {e : Expr} {op : Token}
    (hop : isUnary op.kind = true) (h : CompletesOperand none ts e) :
    CompletesOperand none (op :: ts) (.unary op e) := by
  intro n s rest hn hr hf
  simp only [List.length_cons] at hn
  obtain ⟨n, rfl⟩ : ∃ n', n = n' + 1 := ⟨n - 1, by omega⟩
  obtain ⟨e', k, he, her⟩ := h (n := n) (s := { s with rest := ts ++ rest }) (by omega) rfl hf
  refine ⟨.unary op e', k, ?_, congrArg (Expr.unary op) her⟩
  rw [Parse.unary, bind_ok (readIf_of_next hr hop)]
  exact bind_ok he

/-! ### Assignments -/

theorem CompletesOperation.expression {ts : List Token} {e : Expr}
    (h : CompletesOperation .or ts e) : CompletesExpression ts e := by
  intro n s rest hn hr hf
  obtain ⟨n, rfl⟩ : ∃ n', n = n' + 1 := ⟨n - 1, by omega⟩
  obtain ⟨e', k, he, her⟩ := h.operation (n := n) (by simp only [tightness]; omega) hr hf.stops
  refine ⟨e', k, ?_, her⟩
  rw [Parse.expression, bind_ok he, bind_ok (accept_of_not_next hf.equal)]
  rfl

/-- What can be assigned to is read before the equals sign, and the value after it. -/
theorem CompletesExpression.assign {os ts : List Token} {target value : Expr} {eq : Token}
    (whole : Expr) (ht : CompletesOperation .or os target) (heq : eq.kind = .symbol .equal)
    (hv : CompletesExpression ts value)
    (hjoin : ∀ (target' value' : Expr) (s : State), target'.erase = target.erase →
      value'.erase = value.erase → Yields .expression (assignTo target' eq value') s whole s.rest) :
    CompletesExpression (os ++ eq :: ts) whole := by
  intro n s rest hn hr hf
  simp only [List.length_append, List.length_cons] at hn
  obtain ⟨n, rfl⟩ : ∃ n', n = n' + 1 := ⟨n - 1, by omega⟩
  have hr' : s.rest = os ++ eq :: (ts ++ rest) := by simp [hr]
  obtain ⟨target', k, he, her⟩ := ht.operation (n := n) (by simp only [tightness]; omega) hr'
    (.mark heq (by simp))
  obtain ⟨value', k', hv, hvr⟩ := hv (n := n) (s := { s with rest := ts ++ rest, nextId := k })
    (by omega) rfl hf
  obtain ⟨e', k'', hj, hjr⟩ := hjoin target' value' _ her hvr
  refine ⟨e', k'', ?_, hjr⟩
  rw [Parse.expression, bind_ok he, bind_ok (accept_of_next rfl heq)]
  simp only
  rw [bind_ok hv]
  exact hj

theorem CompletesExpression.assignName {ts : List Token} {value : Expr} {name eq : Token} (id : Nat)
    (hname : name.kind = .identifier) (heq : eq.kind = .symbol .equal)
    (hv : CompletesExpression ts value) :
    CompletesExpression (name :: eq :: ts) (.assign id name value) := by
  have hcall : CompletesCall [name] (.var id name) := (completes_var id hname).call
  have hop : CompletesOperation .or [name] (.var id name) :=
    CompletesOperand.loosen (hcall.unary (by simp [startsPrimary, hname])) .or
  refine CompletesExpression.assign (.assign id name value) hop heq hv ?_
  intro target' value' s ht hv
  cases target' <;> cases ht
  exact ⟨_, _, rfl, by simp [Rule.erase, Expr.erase, hv]⟩

theorem CompletesExpression.assignProperty {os ts : List Token} {object value : Expr}
    {dot name eq : Token} (ho : CompletesCall os object)
    (hfirst : nextIs startsPrimary os = true) (hdot : dot.kind = .symbol .dot)
    (hname : name.kind = .identifier) (heq : eq.kind = .symbol .equal)
    (hv : CompletesExpression ts value) :
    CompletesExpression (os ++ dot :: name :: eq :: ts) (.set object name value) := by
  have hop : CompletesOperation .or (os ++ [dot, name]) (.get object name) :=
    CompletesOperand.loosen ((ho.property hdot hname).unary (nextIs_append _ hfirst)) .or
  have h := CompletesExpression.assign (.set object name value) hop heq hv ?_
  · simpa using h
  · intro target' value' s ht hv
    cases target' <;> simp only [Expr.erase, reduceCtorEq, Expr.get.injEq] at ht
    obtain ⟨ht, rfl⟩ := ht
    exact ⟨_, s.nextId, rfl, by simp [Rule.erase, Expr.erase, ht, hv]⟩

end Parse
end Lox
