import Lox.Proofs.Match.Parse
import Lox.Proofs.Parse.Acceptance
import Lox.Proofs.Parse.Bounds
import Lox.Proofs.Parse.Totality

/-!
# What a missing semicolon costs

A statement that ends in a semicolon is given up where the semicolon is missing. The token at that place is
left out even if it starts the next statement, and reading goes on behind it: after the next semicolon, or
before the next word that starts a statement. So the errors are the one at that token and all those of what
is read from there on. There are none of the latter if the token starts a statement that ends in a semicolon
itself. If it starts a statement with others in it, reading may go on inside.
-/

namespace Lox
namespace Grammar
open Parse

/-! ## Tokens that recovery goes past -/

/-- No token at which reading goes on after a fault, and none after which it does. -/
def isPlain (k : Kind) : Bool := !startsStatement k && !k.alike (.symbol .semicolon)

/-- The rules of expressions and their parts. -/
def Rule.inExpression : Rule → Bool
  | optional | expression | operation _ | call | arguments | primary => true
  | _ => false

theorem isPlain_of_has {level : Level} {k : Kind} (h : level.has k = true) : isPlain k = true := by
  cases k with
  | symbol s => cases level <;> cases s <;> first | rfl | cases h
  | keyword w => cases level <;> cases w <;> first | rfl | cases h
  | _ => cases level <;> cases h

theorem isPlain_of_isUnary {k : Kind} (h : isUnary k = true) : isPlain k = true := by
  cases k with
  | symbol s => cases s <;> first | rfl | cases h
  | _ => cases h

theorem Writes.isPlain {k : Kind} {v : Literal} (h : Writes k v) : isPlain k = Bool.true := by
  cases h <;> rfl

def Plain (ts : List Token) : Prop := ∀ t ∈ ts, isPlain t.kind = true

namespace Plain

variable {t : Token} {ts us : List Token}

theorem nil : Plain [] := nofun

theorem cons (ht : isPlain t.kind = true) (h : Plain ts) : Plain (t :: ts) :=
  List.forall_mem_cons.2 ⟨ht, h⟩

theorem append (h : Plain ts) (h' : Plain us) : Plain (ts ++ us) := List.forall_mem_append.2 ⟨h, h'⟩

/-- A token of a kind that is plain. -/
theorem token {k : Kind} (ht : t.kind = k) (hk : isPlain k = true) (h : Plain ts) : Plain (t :: ts) :=
  cons (ht ▸ hk) h

end Plain

/-- Statements do not stand in expressions. -/
theorem Derives.plain {nearest : Bool} {r : Rule} {ts : List Token} {t : r.Tree}
    (h : Derives nearest r ts t) (hr : r.inExpression = true) : Plain ts := by
  induction h with
  | absent => exact .nil
  | present _ ih => exact ih rfl
  | assignName _ hname heq _ ih => exact .token hname rfl (.token heq rfl (ih rfl))
  | assignProperty _ hdot hname heq _ iho ih =>
    exact .append (iho rfl) (.token hdot rfl (.token hname rfl (.token heq rfl (ih rfl))))
  | logicOr _ ih => exact ih rfl
  | operand _ _ ih => exact ih rfl
  | operation _ hop _ _ ihl ihr => exact .append (ihl rfl) (.cons (isPlain_of_has (binary_iff.1 hop).1) (ihr rfl))
  | unary hop _ ih => exact .cons (isPlain_of_isUnary (unary_iff.1 hop)) (ih rfl)
  | operandCall _ ih => exact ih rfl
  | callPrimary _ ih => exact ih rfl
  | callNone _ hlp hrp ih => exact .append (ih rfl) (.token hlp rfl (.token hrp rfl .nil))
  | callArgs _ hlp _ _ hrp ih iha =>
    exact .append (ih rfl) (.token hlp rfl (.append (iha rfl) (.token hrp rfl .nil)))
  | property _ hdot hname ih => exact .append (ih rfl) (.token hdot rfl (.token hname rfl .nil))
  | oneArgument _ ih => exact ih rfl
  | moreArguments _ hcomma _ ihe ih => exact .append (ihe rfl) (.token hcomma rfl (ih rfl))
  | literal hw => exact .cons hw.isPlain .nil
  | thisRef _ hk => exact .token hk rfl .nil
  | var _ hk => exact .token hk rfl .nil
  | group hlp _ hrp ih => exact .token hlp rfl (.append (ih rfl) (.token hrp rfl .nil))
  | superRef _ hk hdot hm => exact .token hk rfl (.token hdot rfl (.token hm rfl .nil))
  | _ => cases hr

/-! ## Statements without their semicolon -/

/-- The words that start a statement which ends in a semicolon and has no statement in it. -/
def startsSimpleStatement : Kind → Bool
  | .keyword k => k = .varKw || k = .printKw || k = .returnKw || k = .breakKw || k = .executeKw
  | _ => false

/-- The tokens of a statement before the semicolon that ends it, and what is asked for if another token stands
in its place. After a bare `return` that is an expression. -/
inductive Unended : List Token → Expected → Prop
  | var {kw name : Token} : kw.kind = .keyword .varKw → name.kind = .identifier →
      Unended [kw, name] .variableEnd
  | varInit {kw name eq : Token} {ts : List Token} {e : Expr} : kw.kind = .keyword .varKw →
      name.kind = .identifier → eq.kind = .symbol .equal → Derives true .expression ts e →
      Unended (kw :: name :: eq :: ts) .variableEnd
  | expr {ts : List Token} {e : Expr} : Derives true .expression ts e → Unended ts .expressionEnd
  | print {kw : Token} {ts : List Token} {e : Expr} : kw.kind = .keyword .printKw →
      Derives true .expression ts e → Unended (kw :: ts) .printEnd
  | returnNone {kw : Token} : kw.kind = .keyword .returnKw → Unended [kw] .expression
  | returnSome {kw : Token} {ts : List Token} {e : Expr} : kw.kind = .keyword .returnKw →
      Derives true .expression ts e → Unended (kw :: ts) .returnEnd
  | breakLoop {kw : Token} : kw.kind = .keyword .breakKw → Unended [kw] .breakEnd
  | execute {kw : Token} {ts : List Token} {e : Expr} : kw.kind = .keyword .executeKw →
      Derives true .expression ts e → Unended (kw :: ts) .executeEnd

theorem Unended.ne_nil {ts : List Token} {what : Expected} (h : Unended ts what) : ts ≠ [] := by
  cases h with
  | expr he =>
    rintro rfl
    exact absurd (he.first rfl) (by simp)
  | _ => exact List.cons_ne_nil _ _

theorem Unended.plain_tail {ts : List Token} {what : Expected} (h : Unended ts what) :
    Plain ts.tail := by
  cases h with
  | var _ hname => exact .token hname rfl .nil
  | varInit _ hname heq he => exact .token hname rfl (.token heq rfl (he.plain rfl))
  | expr he => exact fun t ht => he.plain rfl t (List.mem_of_mem_tail ht)
  | print _ he => exact he.plain rfl
  | returnNone => exact .nil
  | returnSome _ he => exact he.plain rfl
  | breakLoop => exact .nil
  | execute _ he => exact he.plain rfl

end Grammar

/-- What is asked for where the semicolon of the statement is missing, if it ends in one of its own. -/
def Stmt.lacking : Stmt → Option Expected
  | .varDecl _ _ => some .variableEnd
  | .expr _ => some .expressionEnd
  | .print _ => some .printEnd
  | .returnWith _ none => some .expression
  | .returnWith _ (some _) => some .returnEnd
  | .breakLoop _ => some .breakEnd
  | .execute _ _ => some .executeEnd
  | _ => none

theorem Stmt.lacking_forLoop (init : Option Stmt) (cond increment : Option Expr) (body : Stmt) :
    (Parse.forLoop init cond increment body).lacking = none := by
  cases init <;> rfl

namespace Grammar
open Parse

/-- The ending of a declaration: with a semicolon of its own, or without. -/
inductive Ends (ds : List Token) (d : Stmt) : Prop
  | semicolon (ts : List Token) {semi : Token} {what : Expected} : ds = ts ++ [semi] →
      semi.kind = .symbol .semicolon → Unended ts what → d.lacking = some what → Ends ds d
  | other : nextIs startsSimpleStatement ds = false → d.lacking = none → Ends ds d

theorem Derives.varDecl_ends {ds : List Token} {d : Stmt} (h : Derives true .varDecl ds d) :
    Ends ds d := by
  cases h with
  | varDecl hkw hname hsemi => exact .semicolon [_, _] rfl hsemi (.var hkw hname) rfl
  | varInit hkw hname heq he hsemi =>
    exact .semicolon (_ :: _ :: _ :: _) rfl hsemi (.varInit hkw hname heq he) rfl

theorem Derives.statement_ends {b : Bool} {ds : List Token} {d : Stmt}
    (h : Derives true (.statement b) ds d) : Ends ds d := by
  cases h with
  | expression h =>
    cases h with
    | exprStmt he hsemi => exact .semicolon _ rfl hsemi (.expr he) rfl
  | forStmt hkw =>
    rw [forTree_eq]
    exact .other (by simp [startsSimpleStatement, hkw]) (Stmt.lacking_forLoop _ _ _ _)
  | ifStmt hkw => exact .other (by simp [startsSimpleStatement, hkw]) rfl
  | ifElseStmt hkw => exact .other (by simp [startsSimpleStatement, hkw]) rfl
  | printStmt hkw he hsemi => exact .semicolon (_ :: _) rfl hsemi (.print hkw he) rfl
  | returnStmt hkw he hsemi =>
    cases he with
    | absent => exact .semicolon [_] rfl hsemi (.returnNone hkw) rfl
    | present he => exact .semicolon (_ :: _) rfl hsemi (.returnSome hkw he) rfl
  | whileStmt hkw => exact .other (by simp [startsSimpleStatement, hkw]) rfl
  | breakStmt hkw hsemi => exact .semicolon [_] rfl hsemi (.breakLoop hkw) rfl
  | executeStmt hkw he hsemi => exact .semicolon (_ :: _) rfl hsemi (.execute hkw he) rfl
  | block hlb => exact .other (by simp [startsSimpleStatement, hlb]) rfl

theorem Derives.declaration_ends {ds : List Token} {d : Stmt} (h : Derives true .declaration ds d) :
    Ends ds d := by
  cases h with
  | classDecl hkw => exact .other (by simp [startsSimpleStatement, hkw]) rfl
  | subclassDecl _ hkw => exact .other (by simp [startsSimpleStatement, hkw]) rfl
  | funDecl hkw => exact .other (by simp [startsSimpleStatement, hkw]) rfl
  | varDeclaration h => exact h.varDecl_ends
  | statement h => exact h.statement_ends

theorem Derives.declaration_of_singleton {ts : List Token} {d : Stmt}
    (h : Derives true .declarations ts [d]) : Derives true .declaration ts d := by
  cases h with
  | moreDeclarations hd hmore =>
    cases hmore
    rwa [List.append_nil]

/-- The tokens before the semicolon that ends a declaration of its own. -/
theorem Derives.unended {before : List Token} {semi : Token} {d : Stmt} {what : Expected}
    (h : Derives true .declarations (before ++ [semi]) [d]) (hwhat : d.lacking = some what) :
    Unended before what := by
  cases h.declaration_of_singleton.declaration_ends with
  | other _ hnone =>
    rw [hwhat] at hnone
    cases hnone
  | semicolon ts hts _ hunended hwhat' =>
    obtain ⟨rfl, -⟩ := List.append_inj' hts rfl
    rw [hwhat] at hwhat'
    cases hwhat'
    exact hunended

/-- A word that starts a statement ends every expression. -/
theorem Closed.startsStatement {b : Token} (hb : startsStatement b.kind = true) (rest : List Token) :
    Closed (b :: rest) := by
  have hkey : ∀ s, b.kind ≠ .symbol s := by
    intro s hs
    rw [hs] at hb
    cases hb
  constructor
  · rintro t us ⟨⟩ (hk | hk | ⟨level, -, hk⟩)
    · exact hkey _ hk
    · exact hkey _ hk
    · have hplain := isPlain_of_has hk
      rw [isPlain, hb] at hplain
      cases hplain
  · exact Bool.eq_false_iff.2 fun h => hkey _ (Kind.alike_symbol.1 h)

end Grammar

namespace Parse
open Ending Grammar

variable {n : Nat} {s : State} {b : Token} {rest : List Token}

/-! ## Where the semicolon is missing -/

/-- The state in which a rule fails at `b`, for lack of `what`. -/
def Fails {α : Type} (p : Parse α) (s : State) (b : Token) (rest : List Token) (what : Expected) : Prop :=
  ∃ k, p s = .error (.reject (.syntacticAt b (.expected what))) { s with rest := b :: rest, nextId := k }

theorem reject_at {α : Type} {what : Expected} (hr : s.rest = b :: rest) :
    (reject (.expected what) : Parse α) s = .error (.reject (.syntacticAt b (.expected what))) s := by
  rw [reject, bind_ok (peek_of_next hr)]
  rfl

theorem not_next_of_startsStatement (hb : startsStatement b.kind = true) (sym : Symbol) :
    nextIs (·.alike (.symbol sym)) (b :: rest) = false := by
  refine Bool.eq_false_iff.2 fun h => ?_
  rw [nextIs_cons, Kind.alike_symbol] at h
  rw [h] at hb
  cases hb

theorem semicolon_fails {what : Expected} (hb : startsStatement b.kind = true) (hr : s.rest = b :: rest) :
    semicolon what s = .error (.reject (.syntacticAt b (.expected what))) s := by
  have hexpect : expect (.symbol .semicolon) what s = .error (.reject (.syntacticAt b (.expected what))) s := by
    rw [expect, bind_ok (accept_of_not_next (hr ▸ not_next_of_startsStatement hb _))]
    exact reject_at hr
  show EStateM.map _ (expect _ _) s = _
  simp only [EStateM.map, hexpect]

/-- An expression that is read up to `b`, and then no semicolon. -/
theorem fails_after {ts : List Token} {e : Expr} (he : Derives true .expression ts e)
    (hb : startsStatement b.kind = true) (hn : 32 * ts.length + 16 ≤ n) (hr : s.rest = ts ++ b :: rest)
    (what : Expected) (next : Expr → Parse Stmt) :
    Fails (do let e ← expression n; semicolon what; next e) s b rest what := by
  obtain ⟨e', k, hread, -⟩ := complete he hn hr (.startsStatement hb rest)
  exact ⟨k, (bind_ok hread).trans (bind_error (semicolon_fails hb rfl))⟩

/-- No expression starts with a word that starts a statement. -/
theorem expression_fails (hb : startsStatement b.kind = true) (hn : 16 ≤ n) (hr : s.rest = b :: rest) :
    expression n s = .error (.reject (.syntacticAt b (.expected .expression))) s := by
  obtain ⟨n, rfl⟩ : ∃ m, n = m + 16 := ⟨n - 16, by omega⟩
  have hprimary : ∀ m, primary (m + 1) s = .error (.reject (.syntacticAt b (.expected .expression))) s := by
    intro m
    rw [primary, bind_ok (peek_of_next hr)]
    generalize hk : b.kind = k at hb
    split
    case h_10 => exact reject_at hr
    all_goals cases hb
  have hunary : ∀ m, unary (m + 3) s = .error (.reject (.syntacticAt b (.expected .expression))) s := by
    intro m
    have hnot : nextIs isUnary s.rest = false := by
      rw [hr]
      refine Bool.eq_false_iff.2 fun h => ?_
      have hplain := isPlain_of_isUnary h
      rw [isPlain, hb] at hplain
      cases hplain
    rw [unary, bind_ok (readIf_of_not_next hnot)]
    exact bind_error (hprimary m)
  have hlevel : ∀ level m r, operand m level s = .error r s → operation (m + 1) level s = .error r s :=
    fun level m r h => bind_error h
  exact bind_error (hlevel .or _ _ (hlevel .and _ _ (hlevel .equality _ _ (hlevel .comparison _ _
    (hlevel .term _ _ (hlevel .factor _ _ (hunary n)))))))

/-- What is left of a declaration that fails at `b`. -/
def State.givenUp (s : State) (b : Token) (rest : List Token) (what : Expected) (k : Nat) : State :=
  { s with
    rest := skipFault (b :: rest)
    nextId := k
    errors := s.errors ++ [.syntacticAt b (.expected what)] }

theorem Fails.recovering {α : Type} {p : Parse α} {what : Expected} (h : Fails p s b rest what) :
    ∃ k, recovering p s = .ok none (s.givenUp b rest what k) := by
  obtain ⟨k, hp⟩ := h
  exact ⟨k, by rw [recovering_apply, hp]; rfl⟩

/-- A declaration that starts with no word of its own is a statement. -/
theorem Fails.declaration {what : Expected} (hfirst : nextIs startsDeclaration s.rest = false)
    (h : Fails (statement n) s b rest what) :
    ∃ k, declaration (n + 1) s = .ok none (s.givenUp b rest what k) := by
  have hnot : ∀ w, startsDeclaration (.keyword w) = true →
      nextIs (·.alike (.keyword w)) s.rest = false := by
    intro w hw
    cases hrest : s.rest with
    | nil => rfl
    | cons t us =>
      rw [hrest, nextIs_cons] at hfirst
      refine Bool.eq_false_iff.2 fun ht => ?_
      rw [nextIs_cons, Kind.alike_keyword] at ht
      rw [ht, hw] at hfirst
      cases hfirst
  obtain ⟨k, hs⟩ := h
  refine Fails.recovering ⟨k, ?_⟩
  rw [bind_ok (accept_of_not_next (hnot .classKw rfl))]
  simp only
  rw [bind_ok (accept_of_not_next (hnot .funKw rfl))]
  simp only
  rw [bind_ok (accept_of_not_next (hnot .varKw rfl))]
  exact hs

theorem Fails.declaration_var {kw : Token} {us : List Token} {what : Expected}
    (hkw : kw.kind = .keyword .varKw) (hr : s.rest = kw :: us)
    (h : Fails (varDeclaration n) { s with rest := us } b rest what) :
    ∃ k, Parse.declaration (n + 1) s = .ok none (s.givenUp b rest what k) := by
  have hclass : nextIs (·.alike (.keyword .classKw)) s.rest = false := by simp [hr, hkw, Kind.alike]
  have hfun : nextIs (·.alike (.keyword .funKw)) s.rest = false := by simp [hr, hkw, Kind.alike]
  obtain ⟨k, hs⟩ := h
  refine Fails.recovering ⟨k, ?_⟩
  rw [bind_ok (accept_of_not_next hclass)]
  simp only
  rw [bind_ok (accept_of_not_next hfun)]
  simp only
  rw [bind_ok (accept_of_next hr hkw)]
  exact hs

theorem expressionUnless_of_not_next {k : Kind} {s' : State} {e : Expr}
    (hnot : nextIs (·.alike k) s.rest = false) (h : expression n s = .ok e s') :
    expressionUnless n k s = .ok (some e) s' := by
  rw [expressionUnless, bind_ok (sees_apply _), hnot]
  exact bind_ok h

/-- Without its semicolon a simple statement is given up at the next token, which starts another. -/
theorem declaration_unended {ts : List Token} {what : Expected} (h : Unended ts what)
    (hb : startsStatement b.kind = true) (hn : 32 * ts.length + 18 ≤ n) (hr : s.rest = ts ++ b :: rest) :
    ∃ k, declaration n s = .ok none (s.givenUp b rest what k) := by
  obtain ⟨n, rfl⟩ : ∃ m, n = m + 2 := ⟨n - 2, by omega⟩
  cases h with
  | var hkw hname =>
    simp only [List.cons_append, List.nil_append] at hr
    refine Fails.declaration_var hkw hr ⟨s.nextId, ?_⟩
    rw [varDeclaration, bind_ok (expect_of_next rfl hname),
      bind_ok (accept_of_not_next (not_next_of_startsStatement hb _))]
    simp only
    rw [bind_ok (pure_apply _)]
    exact bind_error (semicolon_fails hb rfl)
  | varInit hkw hname heq he =>
    simp only [List.length_cons] at hn
    simp only [List.cons_append] at hr
    obtain ⟨e', k, hread, -⟩ := complete he (n := n + 1) (s := { s with rest := _ }) (by omega) rfl
      (.startsStatement hb rest)
    refine Fails.declaration_var hkw hr ⟨k, ?_⟩
    rw [varDeclaration, bind_ok (expect_of_next rfl hname), bind_ok (accept_of_next rfl heq)]
    simp only
    rw [bind_ok (map_eq_ok.2 ⟨_, hread, rfl⟩)]
    exact bind_error (semicolon_fails hb rfl)
  | expr he =>
    have hfirst : nextIs startsExpression s.rest = true := hr ▸ nextIs_append _ (he.first rfl)
    have hnot : nextIs startsDeclaration s.rest = false := by
      refine nextIs_false (fun k hk => ?_) hfirst
      cases k with
      | keyword w => cases w <;> first | rfl | cases hk
      | _ => rfl
    apply Fails.declaration hnot
    unfold Fails
    rw [statement_of_startsExpression hfirst]
    exact fails_after he hb (by omega) hr _ _
  | print hkw he =>
    simp only [List.length_cons] at hn
    simp only [List.cons_append] at hr
    apply Fails.declaration (by simp [hr, hkw, startsDeclaration])
    unfold Fails
    rw [statement, bind_ok (peek_of_next hr)]
    simp only [hkw]
    rw [bind_ok (skip_of_next hr)]
    exact fails_after (s := { s with rest := _ }) he hb (by omega) rfl _ _
  | returnNone hkw =>
    simp only [List.cons_append, List.nil_append] at hr
    refine Fails.declaration (by simp [hr, hkw, startsDeclaration]) ⟨s.nextId, ?_⟩
    rw [statement, bind_ok (peek_of_next hr)]
    simp only [hkw]
    rw [bind_ok (skip_of_next hr)]
    apply bind_error
    rw [expressionUnless, bind_ok (sees_apply _), not_next_of_startsStatement hb]
    exact bind_error (expression_fails hb (by simp only [List.length_singleton] at hn; omega) rfl)
  | returnSome hkw he =>
    simp only [List.length_cons] at hn
    simp only [List.cons_append] at hr
    obtain ⟨e', k, hread, -⟩ := complete he (n := n) (s := { s with rest := _ }) (by omega) rfl
      (.startsStatement hb rest)
    have hnot := not_next_symbol (s := .semicolon) rfl (he.first rfl) (b :: rest)
    refine Fails.declaration (by simp [hr, hkw, startsDeclaration]) ⟨k, ?_⟩
    rw [statement, bind_ok (peek_of_next hr)]
    simp only [hkw]
    rw [bind_ok (skip_of_next hr), bind_ok (expressionUnless_of_not_next hnot hread)]
    exact bind_error (semicolon_fails hb rfl)
  | breakLoop hkw =>
    simp only [List.cons_append, List.nil_append] at hr
    refine Fails.declaration (by simp [hr, hkw, startsDeclaration]) ⟨s.nextId, ?_⟩
    rw [statement, bind_ok (peek_of_next hr)]
    simp only [hkw]
    rw [bind_ok (skip_of_next hr)]
    exact bind_error (semicolon_fails hb rfl)
  | execute hkw he =>
    simp only [List.length_cons] at hn
    simp only [List.cons_append] at hr
    apply Fails.declaration (by simp [hr, hkw, startsDeclaration])
    unfold Fails
    rw [statement, bind_ok (peek_of_next hr)]
    simp only [hkw]
    rw [bind_ok (skip_of_next hr)]
    exact fails_after (s := { s with rest := _ }) he hb (by omega) rfl _ _

/-! ## Where reading goes on -/

/-- The tokens from which reading goes on after a fault at the first one. -/
def restart (tokens : List Token) : List Token :=
  skipFault (tokens.takeWhile (!isEof ·)) ++ [endOf tokens]

theorem isEof_endOf (tokens : List Token) : isEof (endOf tokens) = true :=
  (isEof_iff _).2 (start_ends tokens 0)

theorem not_isEof_of_mem_skipFault {tokens : List Token} {t : Token}
    (h : t ∈ skipFault (tokens.takeWhile (!isEof ·))) : isEof t = false := by
  have hmem := (Grows.skipFault_suffix _).subset h
  simpa using (List.mem_takeWhile_imp (p := fun t => !isEof t) hmem)

theorem takeWhile_restart (tokens : List Token) :
    (restart tokens).takeWhile (!isEof ·) = skipFault (tokens.takeWhile (!isEof ·)) := by
  rw [restart, List.takeWhile_append_of_pos]
  · simp [isEof_endOf]
  · intro t ht
    simp [not_isEof_of_mem_skipFault ht]

theorem endOf_restart (tokens : List Token) : endOf (restart tokens) = endOf tokens := by
  have hnone : (skipFault (tokens.takeWhile (!isEof ·))).find? isEof = none :=
    List.find?_eq_none.2 fun t ht => by simp [not_isEof_of_mem_skipFault ht]
  have hfind : (restart tokens).find? isEof = some (endOf tokens) := by
    rw [restart, List.find?_append, hnone]
    simp [isEof_endOf]
  rw [endOf, hfind]

theorem length_restart_le (b : Token) (after : List Token) :
    (restart (b :: after)).length ≤ after.length + 1 := by
  have hskip : (skipFault ((b :: after).takeWhile (!isEof ·))).length ≤ after.length := by
    by_cases hb : isEof b = true
    · simp [hb, skipFault]
    · rw [List.takeWhile_cons_of_pos (by simpa using hb)]
      exact (Grows.resume_suffix b _).length_le.trans (List.takeWhile_prefix _).length_le
  simpa [restart] using hskip

/-- Tokens without an `eof` stand in front of what is read after them. -/
theorem start_append {before after : List Token} (hbefore : ∀ t ∈ before, isEof t = false)
    (hb : isEof b = false) (nextId : Nat) :
    start (before ++ b :: after) nextId =
      ⟨before ++ b :: after.takeWhile (!isEof ·), endOf (b :: after), nextId, []⟩ := by
  have hnone : before.find? isEof = none := List.find?_eq_none.2 fun t ht => by simp [hbefore t ht]
  have hrest : (before ++ b :: after).takeWhile (!isEof ·) =
      before ++ b :: after.takeWhile (!isEof ·) := by
    rw [List.takeWhile_append_of_pos (fun t ht => by simp [hbefore t ht]),
      List.takeWhile_cons_of_pos (by simp [hb])]
  have hend : endOf (before ++ b :: after) = endOf (b :: after) := by
    rw [endOf, endOf, List.find?_append, hnone, List.getLast?_append_of_ne_nil _ (List.cons_ne_nil _ _)]
    rfl
  rw [start, hrest, hend]

/-- A declaration that is given up leaves what is read from the restart, behind the error. -/
theorem givenUp_eq {before after : List Token} {what : Expected} (hbefore : ∀ t ∈ before, isEof t = false)
    (hb : isEof b = false) (nextId k : Nat) :
    (start (before ++ b :: after) nextId).givenUp b (after.takeWhile (!isEof ·)) what k =
      (start (restart (b :: after)) k).behind [.syntacticAt b (.expected what)] := by
  rw [start_append hbefore hb, start, takeWhile_restart, endOf_restart,
    List.takeWhile_cons_of_pos (by simp [hb])]
  rfl

/-- Recovery goes to the end of a simple statement. -/
theorem resume_plain {last semi : Token} {us : List Token} (ts : List Token)
    (hlast : last.kind ≠ .symbol .semicolon) (hus : Plain us) (hsemi : semi.kind = .symbol .semicolon) :
    resume last (us ++ semi :: ts) = ts := by
  induction us generalizing last with
  | nil =>
    rw [List.nil_append, resume, if_neg (by simp [hlast, hsemi, startsStatement])]
    cases ts with
    | nil => rfl
    | cons t ts => simp [resume, hsemi]
  | cons u us ih =>
    obtain ⟨hu, hus⟩ := List.forall_mem_cons.1 hus
    obtain ⟨hstart, hsemi'⟩ : startsStatement u.kind = false ∧ u.kind.alike (.symbol .semicolon) = false := by
      simpa [isPlain] using hu
    rw [List.cons_append, resume, if_neg (by simp [hlast, hstart])]
    exact ih (fun hu => by simp [hu, Kind.alike] at hsemi') hus

/-- A token that starts a simple statement is left out together with the rest of that statement. -/
theorem derives_restart {after : List Token} {stmts : List Stmt} (hb : startsSimpleStatement b.kind = true)
    (h : Derives true .declarations ((b :: after).takeWhile (!isEof ·)) stmts) :
    ∃ more, Derives true .declarations ((restart (b :: after)).takeWhile (!isEof ·)) more := by
  rw [takeWhile_restart]
  have hnot : ∀ k, startsSimpleStatement k = false → b.kind ≠ k := by
    rintro k hk rfl
    rw [hb] at hk
    cases hk
  have heof : isEof b = false := Bool.eq_false_iff.2 fun he => hnot .eof rfl ((isEof_iff b).1 he)
  rw [List.takeWhile_cons_of_pos (by simp [heof])] at h ⊢
  generalize hrest : b :: after.takeWhile (!isEof ·) = rest at h ⊢
  cases h with
  | noDeclarations => cases hrest
  | @moreDeclarations ds ts d more hd hmore =>
    obtain ⟨t, us, rfl, -⟩ := exists_of_nextIs (hd.first rfl)
    obtain ⟨rfl, -⟩ := List.cons.inj hrest
    cases hd.declaration_ends with
    | other hother => exact absurd hb (by simpa using hother)
    | semicolon vs hvs hsemi hun =>
      cases vs with
      | nil =>
        cases hvs
        exact absurd hsemi (hnot _ rfl)
      | cons v vs =>
        rw [List.cons_append] at hvs
        obtain ⟨rfl, rfl⟩ := List.cons.inj hvs
        have hplain : Plain vs := hun.plain_tail
        refine ⟨more, ?_⟩
        rw [List.cons_append, List.append_assoc, skipFault, List.singleton_append,
          resume_plain ts (hnot _ rfl) hplain hsemi]
        exact hmore

/-! ## The errors -/

/-- The errors of a reading. -/
def errorsOf : Except (List Error) (List Stmt) → List Error
  | .ok _ => []
  | .error es => es

/-- The errors do not depend on the identities that are handed out. -/
theorem errorsOf_parse_eq {tokens : List Token} (h : ∃ t ∈ tokens, isEof t = true) (i j : Nat) :
    errorsOf (Stmt.parse tokens i).1 = errorsOf (Stmt.parse tokens j).1 := by
  have habreast : Abreast (.anyNode Eq) Eq :=
    { node_succ := fun _ => trivial
      error := fun {t t'} _ ht _ => by
        obtain ⟨hkind, hlexeme, hline⟩ := ht
        cases t
        cases t'
        cases hkind
        cases hlexeme
        cases hline
        rfl }
  have hread := (Stmt.parse_matched habreast (Token.matchedAll_self (fun _ => rfl) tokens) h
    (i := i) (j := j) trivial).1
  revert hread
  generalize (Stmt.parse tokens i).1 = r
  generalize (Stmt.parse tokens j).1 = r'
  rintro (_ | herrors)
  · rfl
  · exact List.forall₂_eq_eq_eq ▸ herrors

theorem errorsOf_parse_eq_nil {tokens : List Token} {i : Nat} :
    errorsOf (Stmt.parse tokens i).1 = [] ↔ ∃ stmts, (Stmt.parse tokens i).1 = .ok stmts := by
  cases h : (Stmt.parse tokens i).1 with
  | ok stmts => exact ⟨fun _ => ⟨stmts, rfl⟩, fun _ => rfl⟩
  | error es => exact ⟨fun hnil => absurd hnil (Stmt.parse_error_ne_nil h), nofun⟩

/-- The error at the token in the semicolon's place, and those of what is read from the restart on. -/
theorem parse_unended {before : List Token} {what : Expected} (h : Unended before what)
    (hbefore : ∀ t ∈ before, isEof t = false) (hb : startsStatement b.kind = true) (after : List Token)
    (nextId : Nat) :
    ∃ k, (Stmt.parse (before ++ b :: after) nextId).1 =
      .error (.syntacticAt b (.expected what) :: errorsOf (Stmt.parse (restart (b :: after)) k).1) := by
  have heof : isEof b = false := by
    refine Bool.eq_false_iff.2 fun he => ?_
    rw [(isEof_iff b).1 he] at hb
    cases hb
  have hpos := List.length_pos_iff.2 h.ne_nil
  have hlen := length_restart_le b after
  obtain ⟨m, hm⟩ : ∃ m, depth (before ++ b :: after).length = m + 1 := ⟨_, rfl⟩
  have hbound : 32 * before.length + 18 ≤ m ∧ depth (restart (b :: after)).length ≤ m := by
    simp only [depth, List.length_append, List.length_cons] at hm ⊢
    omega
  have hrest : (start (before ++ b :: after) nextId).rest = before ++ b :: after.takeWhile (!isEof ·) := by
    rw [start_append hbefore heof]
  obtain ⟨k, hdecl⟩ := declaration_unended h hb hbound.1 hrest
  rw [givenUp_eq hbefore heof] at hdecl
  obtain ⟨stmts, s, hprogram, hparse⟩ := Stmt.parse_eq (restart (b :: after)) k
  have hmore := (Goal.program.extend hbound.2).eq_ok_behind hprogram [.syntacticAt b (.expected what)]
  refine ⟨k, ?_⟩
  have hread : program (m + 1) (start (before ++ b :: after) nextId) =
      .ok stmts (s.behind [.syntacticAt b (.expected what)]) := by
    rw [program, bind_ok atEnd_apply, if_neg (by simp [hrest]), bind_ok hdecl]
    exact hmore
  have herrors : errorsOf (Stmt.parse (restart (b :: after)) k).1 = s.errors := by
    rw [hparse]
    cases s.errors <;> rfl
  rw [herrors, Stmt.parse, hm, hread]
  rfl

end Parse

open Parse Grammar in
/-- A statement that lacks its semicolon before a word that starts the next one costs the error at that word and
the errors of what is read from the restart on. So it costs one error exactly if that is a program, and this
is so if the word starts a statement with a semicolon of its own in tokens that are a program. -/
theorem Stmt.parse_missing_semicolon {before after : List Token} {semi b : Token} {d : Stmt}
    {what : Expected} {i : Nat} (hbefore : ∀ t ∈ before, isEof t = false)
    (hsemi : semi.kind = .symbol .semicolon)
    (hd : (Stmt.parse (before ++ [semi]) i).1 = .ok [d]) (hwhat : d.lacking = some what)
    (hb : startsStatement b.kind = true) (nextId k : Nat) :
    (Stmt.parse (before ++ b :: after) nextId).1 =
      .error (.syntacticAt b (.expected what) :: errorsOf (Stmt.parse (restart (b :: after)) k).1) ∧
    ((∃ e, (Stmt.parse (before ++ b :: after) nextId).1 = .error [e]) ↔
      ∃ stmts, (Stmt.parse (restart (b :: after)) k).1 = .ok stmts) ∧
    (startsSimpleStatement b.kind = true → (∃ j stmts, (Stmt.parse (b :: after) j).1 = .ok stmts) →
      (Stmt.parse (before ++ b :: after) nextId).1 = .error [.syntacticAt b (.expected what)]) := by
  have htokens : (before ++ [semi]).takeWhile (!isEof ·) = before ++ [semi] := by
    rw [List.takeWhile_append_of_pos (fun t ht => by simp [hbefore t ht])]
    simp [isEof, hsemi, Kind.alike]
  have hunended : Unended before what := (htokens ▸ (Stmt.parse_sound hd).1).unended hwhat
  obtain ⟨k', hparse⟩ := parse_unended hunended hbefore hb after nextId
  have heof : ∃ t ∈ restart (b :: after), isEof t = true :=
    ⟨_, List.mem_append_right _ (List.mem_singleton_self _), isEof_endOf _⟩
  rw [errorsOf_parse_eq heof k' k] at hparse
  refine ⟨hparse, ?_, ?_⟩
  · rw [← errorsOf_parse_eq_nil, hparse]
    simp
  · rintro hsimple ⟨j, stmts, hafter⟩
    obtain ⟨more, hmore⟩ := derives_restart hsimple (Stmt.parse_sound hafter).1
    obtain ⟨stmts', hok, -⟩ := Stmt.parse_complete hmore k
    rw [hparse, errorsOf_parse_eq_nil.2 ⟨stmts', hok⟩]

/-- `print a`, without its semicolon. -/
def unendedPrint : List Token := [⟨.keyword .printKw, "print", 1⟩, ⟨.identifier, "a", 1⟩]

/-- `var b = c; print b;` -/
def simpleProgram : List Token :=
  [⟨.keyword .varKw, "var", 1⟩, ⟨.identifier, "b", 1⟩, ⟨.symbol .equal, "=", 1⟩, ⟨.identifier, "c", 1⟩,
    ⟨.symbol .semicolon, ";", 1⟩, ⟨.keyword .printKw, "print", 1⟩, ⟨.identifier, "b", 1⟩,
    ⟨.symbol .semicolon, ";", 1⟩, ⟨.eof, "", 1⟩]

theorem Stmt.parse_missing_semicolon_var :
    (Stmt.parse (unendedPrint ++ simpleProgram) 0).1 =
      .error [.syntacticAt ⟨.keyword .varKw, "var", 1⟩ (.expected .printEnd)] := by
  have hd : (Stmt.parse (unendedPrint ++ [⟨.symbol .semicolon, ";", 1⟩]) 0).1 =
      .ok [.print (.var 0 ⟨.identifier, "a", 1⟩)] := by cbv
  have hprogram : ∃ stmts, (Stmt.parse simpleProgram 0).1 = .ok stmts := ⟨_, by cbv⟩
  exact (Stmt.parse_missing_semicolon (by decide) rfl hd rfl rfl 0 0).2.2 rfl ⟨0, hprogram⟩

/-- `fun f() { return; }` -/
def functionProgram : List Token :=
  [⟨.keyword .funKw, "fun", 1⟩, ⟨.identifier, "f", 1⟩, ⟨.symbol .leftParen, "(", 1⟩,
    ⟨.symbol .rightParen, ")", 1⟩, ⟨.symbol .leftBrace, "\x7b", 1⟩, ⟨.keyword .returnKw, "return", 1⟩,
    ⟨.symbol .semicolon, ";", 1⟩, ⟨.symbol .rightBrace, "\x7d", 1⟩, ⟨.eof, "", 1⟩]

/-- The word `fun` is left out, reading goes on with `return`, and the brace is an error of its own. -/
theorem Stmt.parse_missing_semicolon_fun :
    (Stmt.parse (unendedPrint ++ [⟨.symbol .semicolon, ";", 1⟩]) 0).1 =
      .ok [.print (.var 0 ⟨.identifier, "a", 1⟩)] ∧
    (∃ stmts, (Stmt.parse functionProgram 0).1 = .ok stmts) ∧
    (Stmt.parse (unendedPrint ++ functionProgram) 0).1 =
      .error [.syntacticAt ⟨.keyword .funKw, "fun", 1⟩ (.expected .printEnd),
        .syntacticAt ⟨.symbol .rightBrace, "\x7d", 1⟩ (.expected .expression)] := by
  exact ⟨by cbv, ⟨_, by cbv⟩, by cbv⟩

end Lox
